import Vccl.Lib.Transition

/-! The paths of the topology graph to one node: ncclTopoSetPaths walks the links breadth first and writes, for every
node it comes to, the list of links that leads back. A path may be written more than once in a round, each time from
another node, and its first link is kept where no link leads back to that node. -/
namespace Vccl.Topo.SetPaths

open List Function

inductive NodeType where
  | gpu | pci | nvs | cpu | nic | net
  deriving DecidableEq

/-- The types of paths, in the order of their values. A link has the value of a path too: LINK_PCI is PATH_PIX. -/
inductive PathType where
  | loc | nvl | nvb | c2c | pix | pxb | pxn | phb | sys | net | dis
  deriving DecidableEq

variable {N B : Type}

structure Link (N B : Type) where
  type : PathType
  bw : B
  remNode : N

/-- A pointer to a link of a node. -/
structure LinkPtr (N : Type) where
  node : N
  index : Nat
  deriving DecidableEq

structure LinkList (N B : Type) where
  list : Nat → Option (LinkPtr N)
  count : Nat
  bw : B
  type : PathType

structure System (N B : Type) [LinearOrder B] [Zero B] where
  ids : NodeType → List Int
  type : N → NodeType
  id : N → Int
  links : N → List (Link N B)
  nvbDisable : Bool
  locBw : B
  locBw_pos : 0 < locBw

/-- The paths are the entries for the base node: getPath finds them all at the index of its id. Beside them stand,
for each node, the node its path was last written from and the last of these that a link leads back to. -/
structure Search (N B : Type) where
  paths : N → LinkList N B
  nextNodeList : List N
  source : N → Option N
  reversed : N → Option N

inductive Result (N B : Type) where
  | internalError
  | success (found : Search N B)

def Result.All (P : Search N B → Prop) : Result N B → Prop
  | internalError => True
  | success found => P found

variable [LinearOrder B] [Zero B] [DecidableEq N]

namespace System

variable (system : System N B)

def reverseLink (node remNode : N) (type : PathType) : Option Nat :=
  (system.links remNode).findIdx? fun link => link.remNode = node ∧ link.type = type

def pathType (node remNode : N) (link path : PathType) (count : Nat) : PathType :=
  let type := if link = .net then .loc else link
  let type := if system.type node = .pci ∧ system.type remNode = .pci then .pxb else type
  let type := if link = .pix ∧ (system.type node = .cpu ∨ system.type remNode = .cpu) then .phb else type
  let type := if system.type node = .gpu ∧ path = .nvl ∧ type = .nvl ∧ count > 1 then .nvb else type
  if path.ctorIdx < type.ctorIdx then type else path

/-- The body of the loop over the links; none is the error that no link leads back. -/
def visit (base : N) (s : Search N B) : N × Link N B → Option (Search N B)
  | (node, link) =>
    let path := s.paths node
    let remPath := s.paths link.remNode
    let bw := min path.bw link.bw
    if node ≠ base ∧ system.type node = .gpu ∧
        (system.nvbDisable ∨ link.type ≠ .nvl ∨ system.type link.remNode ≠ .gpu ∨ path.count > 1) then some s
    else if (remPath.bw = 0 ∨ remPath.count > path.count) ∧ remPath.bw < bw then
      let reverse := system.reverseLink node link.remNode link.type
      let first := (reverse.map (LinkPtr.mk link.remNode)).or (remPath.list 0)
      let list i := if i = 0 then first else if i ≤ path.count then path.list (i - 1) else remPath.list i
      let type := system.pathType node link.remNode link.type path.type (path.count + 1)
      if first = none then none
      else some
        { paths := update s.paths link.remNode ⟨list, path.count + 1, bw, type⟩
          nextNodeList := if link.remNode ∈ s.nextNodeList then s.nextNodeList else s.nextNodeList ++ [link.remNode]
          source := update s.source link.remNode (some node)
          reversed := update s.reversed link.remNode ((reverse.map fun _ => node).or (s.reversed link.remNode)) }
    else some s

def visits (nodeList : List N) : List (N × Link N B) :=
  nodeList.flatMap fun node => (system.links node).map (node, ·)

/-- The rounds of the search; none while it has not ended. -/
def search (base : N) : Nat → List N → Search N B → Option (Result N B)
  | 0, _, _ => none
  | _ + 1, [], s => some (.success s)
  | rounds + 1, node :: rest, s =>
    match Transition.run (system.visit base) { s with nextNodeList := [] } (system.visits (node :: rest)) with
    | none => some .internalError
    | some s => search base rounds s.nextNodeList s

def start (base : N) : Search N B where
  paths := update (fun _ => ⟨fun _ => none, 0, 0, .dis⟩) base ⟨fun _ => none, 0, system.locBw, .loc⟩
  nextNodeList := []
  source _ := none
  reversed _ := none

def ncclTopoSetPaths (base : N) (rounds : Nat) : Option (Result N B) :=
  if system.id base ∈ system.ids (system.type base) then system.search base rounds [base] (system.start base)
  else some .internalError

/-- Where a link leads, if it is one of the node. -/
def hop (node : N) (ptr : Option (LinkPtr N)) : Option N :=
  ptr.bind fun ptr => if ptr.node = node then (system.links node)[ptr.index]?.map (·.remNode) else none

/-- Where the first links of a list lead, each from the end of the one before it. -/
def follow : Nat → (Nat → Option (LinkPtr N)) → N → Option N
  | 0, _, node => some node
  | count + 1, list, node => (system.hop node (list 0)).bind (follow count fun i => list (i + 1))

def Chained (base : N) (s : Search N B) : Prop :=
  ∀ n, 0 < (s.paths n).bw → system.follow (s.paths n).count (s.paths n).list n = some base

def Symmetric : Prop :=
  ∀ n, ∀ link ∈ system.links n, system.reverseLink n link.remNode link.type ≠ none

end System

def Rejoined (base : N) (s : Search N B) : Prop :=
  ∀ n, n ≠ base → 0 < (s.paths n).bw → s.reversed n = s.source n

variable {system : System N B} {base : N} {s s' : Search N B} {depth : Nat} {nodeList : List N}

theorem follow_congr {list list' : Nat → Option (LinkPtr N)} {count : Nat} (same : ∀ i < count, list i = list' i) :
    system.follow count list = system.follow count list' := by
  induction count generalizing list list' with
  | zero => rfl
  | succ count ih =>
    funext node
    rw [System.follow, System.follow, same 0 count.succ_pos, ih fun i below => same (i + 1) (Nat.succ_lt_succ below)]

/-- What holds in the round that starts from the nodes at one depth: every path but that of the base continues the
path of the node it was written from, and such a path is not written again. -/
structure Inv (system : System N B) (base : N) (depth : Nat) (nodeList : List N) (s : Search N B) : Prop where
  bw_nonneg : ∀ n, 0 ≤ (s.paths n).bw
  root : 0 < (s.paths base).bw ∧ (s.paths base).count = 0
  deepest : ∀ n, 0 < (s.paths n).bw → (s.paths n).count ≤ depth + 1
  level : ∀ n ∈ nodeList, 0 < (s.paths n).bw ∧ (s.paths n).count = depth
  next : ∀ n ∈ s.nextNodeList, 0 < (s.paths n).bw ∧ (s.paths n).count = depth + 1
  first : ∀ n, system.hop n ((s.paths n).list 0) = s.reversed n
  own : ∀ n ptr, (s.paths n).list 0 = some ptr → ptr.node = n
  tree : ∀ n, n ≠ base → 0 < (s.paths n).bw → ∃ p, s.source n = some p ∧ 0 < (s.paths p).bw ∧
    (s.paths n).count = (s.paths p).count + 1 ∧ ∀ i < (s.paths p).count, (s.paths n).list (i + 1) = (s.paths p).list i
  both : system.Symmetric → ∀ n, s.reversed n = s.source n

theorem hop_reverseLink {node remNode : N} {type : PathType} {i : Nat}
    (found : system.reverseLink node remNode type = some i) : system.hop remNode (some ⟨remNode, i⟩) = some node := by
  obtain ⟨below, hl, -⟩ := findIdx?_eq_some_iff_getElem.mp found
  simp only [decide_eq_true_eq] at hl
  simp [System.hop, below, hl.1]

namespace Inv

theorem visit (h : Inv system base depth nodeList s) {node : N} {link : Link N B}
    (mem : node ∈ nodeList ∧ link ∈ system.links node) (ran : system.visit base s (node, link) = some s') :
    Inv system base depth nodeList s' := by
  obtain ⟨wide, count⟩ := h.level node mem.1
  simp only [System.visit] at ran
  split at ran
  · exact Option.some.inj ran ▸ h
  split at ran
  case isFalse => exact Option.some.inj ran ▸ h
  next better =>
  obtain ⟨-, ⟨⟩⟩ := Option.ite_none_left_eq_some.mp ran
  have more : 0 < min (s.paths node).bw link.bw := (h.bw_nonneg _).trans_lt better.2
  -- the paths that this one may continue, and those the round starts from, are not written
  have fixed (n : N) (reached : 0 < (s.paths n).bw) (below : (s.paths n).count ≤ depth) : n ≠ link.remNode := by
    rintro rfl
    have := reached.ne'
    grind
  constructor <;> dsimp only
  · exact (forall_update_iff s.paths fun _ path => 0 ≤ path.bw).mpr ⟨more.le, fun n _ => h.bw_nonneg n⟩
  · rw [update_of_ne (fixed base h.root.1 (h.root.2.trans_le (Nat.zero_le _)))]
    exact h.root
  · refine (forall_update_iff s.paths fun _ path => 0 < path.bw → path.count ≤ depth + 1).mpr ⟨fun _ => ?_, ?_⟩
    · exact (congrArg (· + 1) count).le
    · exact fun n _ => h.deepest n
  · intro n below
    obtain ⟨reached, same⟩ := h.level n below
    rw [update_of_ne (fixed n reached same.le)]
    exact h.level n below
  · intro n later
    by_cases same : n = link.remNode
    · simp [same, more, count]
    · have old : n ∈ s.nextNodeList := by
        split at later <;> simp_all
      rw [update_of_ne same]
      exact h.next n old
  · intro n
    by_cases same : n = link.remNode
    · subst same
      cases found : system.reverseLink node link.remNode link.type with
      | none => simpa [found] using h.first link.remNode
      | some i => simpa [found] using hop_reverseLink found
    · simpa [same] using h.first n
  · refine (forall_update_iff s.paths fun n path => ∀ ptr, path.list 0 = some ptr → ptr.node = n).mpr ⟨?_, ?_⟩
    · intro ptr hp
      cases found : system.reverseLink node link.remNode link.type with
      | none => exact h.own _ ptr (by simpa [found] using hp)
      | some i =>
        obtain rfl : LinkPtr.mk _ i = ptr := by simpa [found] using hp
        rfl
    · exact fun n _ => h.own n
  · intro n other
    by_cases same : n = link.remNode
    · subst same
      intro _
      have apart := fixed node wide count.le
      refine ⟨node, by simp, ?_⟩
      rw [update_of_ne apart, update_self]
      refine ⟨wide, rfl, fun i below => ?_⟩
      simp [Nat.succ_le_of_lt below]
    · rw [update_of_ne same, update_of_ne same]
      intro reached
      obtain ⟨p, hs, hp, deeper, rest⟩ := h.tree n other reached
      have := h.deepest n reached
      refine ⟨p, hs, ?_⟩
      rw [update_of_ne (fixed p hp (by omega))]
      exact ⟨hp, deeper, rest⟩
  · intro symmetric n
    by_cases same : n = link.remNode
    · obtain ⟨i, found⟩ := Option.ne_none_iff_exists'.mp (symmetric node link mem.2)
      simp [same, found]
    · simpa [same] using h.both symmetric n

theorem visits (h : Inv system base depth nodeList s)
    (ran : Transition.run (system.visit base) s (system.visits nodeList) = some s') :
    Inv system base depth nodeList s' := by
  have sub : ∀ a ∈ system.visits nodeList, a.1 ∈ nodeList ∧ a.2 ∈ system.links a.1 := by
    grind [System.visits]
  generalize system.visits nodeList = l at ran sub
  induction l generalizing s with
  | nil => exact Option.some.inj ran ▸ h
  | cons a rest ih =>
    obtain ⟨m, first, tail⟩ := Transition.run_cons_some.mp ran
    obtain ⟨here, later⟩ := forall_mem_cons.mp sub
    exact ih (h.visit here first) tail later

theorem nextRound (h : Inv system base depth nodeList s) :
    Inv system base (depth + 1) s.nextNodeList { s with nextNodeList := [] } :=
  { h with
    deepest := fun n reached => (h.deepest n reached).trans (Nat.le_succ _)
    level := h.next
    next := nofun }

theorem start : Inv system base 0 [base] (system.start base) where
  bw_nonneg := (forall_update_iff _ fun _ (path : LinkList N B) => 0 ≤ path.bw).mpr ⟨system.locBw_pos.le, fun _ _ => le_rfl⟩
  root := by simp [System.start, system.locBw_pos]
  deepest n _ := by
    by_cases same : n = base <;> simp [System.start, same]
  level := by simp [System.start, system.locBw_pos]
  next := nofun
  first n := by
    by_cases same : n = base <;> simp [System.start, same, System.hop]
  own n ptr := by
    by_cases same : n = base <;> simp [System.start, same]
  tree n other := by simp [System.start, other]
  both _ _ := rfl

theorem shallower (h : Inv system base depth nodeList s) (k : Nat)
    (deep : ∃ n, 0 < (s.paths n).bw ∧ (s.paths n).count = k + 1) :
    ∃ n, 0 < (s.paths n).bw ∧ (s.paths n).count = k := by
  obtain ⟨n, reached, count⟩ := deep
  have other : n ≠ base := by
    rintro rfl
    simp [h.root.2] at count
  obtain ⟨p, -, hp, deeper, -⟩ := h.tree n other reached
  exact ⟨p, hp, by omega⟩

theorem depth_lt_card [Fintype N] (h : Inv system base depth nodeList s) {n : N} (mem : n ∈ nodeList) :
    depth < Fintype.card N := by
  have all : Finset.range (depth + 1) ⊆ Finset.univ.image fun n => (s.paths n).count := by
    intro k below
    obtain ⟨m, -, hm⟩ : ∃ m, 0 < (s.paths m).bw ∧ (s.paths m).count = k :=
      Nat.decreasingInduction (fun k _ => h.shallower k) ⟨n, h.level n mem⟩ (Finset.mem_range_succ_iff.mp below)
    exact Finset.mem_image.mpr ⟨m, Finset.mem_univ m, hm⟩
  simpa [Nat.succ_le_iff] using (Finset.card_le_card all).trans Finset.card_image_le

theorem chained_iff (h : Inv system base depth nodeList s) : system.Chained base s ↔ Rejoined base s := by
  constructor
  · intro chained n other reached
    obtain ⟨p, hs, hp, deeper, rest⟩ := h.tree n other reached
    have chain := chained n reached
    rw [deeper, System.follow, follow_congr rest, h.first, Option.bind_eq_some_iff] at chain
    obtain ⟨q, back, chain⟩ := chain
    rw [back, hs]
    by_cases top : p = base
    · rw [top, h.root.2] at chain
      exact top ▸ chain
    · -- the path of p starts with a link of p, so that it cannot be followed from another node
      obtain ⟨_, -, -, above, -⟩ := h.tree p top hp
      rw [above, System.follow, Option.bind_eq_some_iff] at chain
      obtain ⟨_, hop, -⟩ := chain
      obtain ⟨ptr, hl, hop⟩ := Option.bind_eq_some_iff.mp hop
      rw [← (Option.ite_none_right_eq_some.mp hop).1, h.own p ptr hl]
  · intro rejoined n reached
    induction count : (s.paths n).count using Nat.strong_induction_on generalizing n with
    | _ c ih =>
      by_cases top : n = base
      · rw [← count, top, h.root.2]
        rfl
      · obtain ⟨p, hs, hp, deeper, rest⟩ := h.tree n top reached
        rw [← count, deeper, System.follow, follow_congr rest, h.first, rejoined n top reached, hs]
        exact ih _ (by omega) p hp rfl

end Inv

theorem search_spec [Fintype N] {rounds : Nat} (h : Inv system base depth nodeList { s with nextNodeList := [] })
    (below : depth ≤ Fintype.card N) (enough : Fintype.card N < depth + rounds) :
    ∃ result, system.search base rounds nodeList s = some result ∧ result.All fun found =>
      (system.Chained base found ↔ Rejoined base found) ∧ (system.Symmetric → Rejoined base found) := by
  induction rounds generalizing depth nodeList s with
  | zero => omega
  | succ rounds ih =>
    cases nodeList with
    | nil => exact ⟨_, rfl, h.chained_iff, fun symmetric n _ _ => h.both symmetric n⟩
    | cons n rest =>
      rw [System.search]
      split
      · exact ⟨_, rfl, trivial⟩
      · next found ran => exact ih (h.visits ran).nextRound (h.depth_lt_card mem_cons_self) (by omega)

/-- Two nodes lead to the last one, which has a link back to the first of them only, and the way through the other is
wider: the list keeps the link to the first and goes on with the path of the other. -/
def oneWay : System (Fin 4) Nat where
  ids _ := [0, 1, 2, 3]
  type _ := .pci
  id n := n
  links
    | 0 => [⟨.pix, 10, 1⟩, ⟨.pix, 10, 2⟩]
    | 1 => [⟨.pix, 10, 0⟩, ⟨.pix, 5, 3⟩]
    | 2 => [⟨.pix, 10, 0⟩, ⟨.pix, 10, 3⟩]
    | 3 => [⟨.pix, 5, 1⟩]
  nvbDisable := false
  locBw := 5000
  locBw_pos := by decide

end Vccl.Topo.SetPaths
