import Vccl.Lib.Forest
import Vccl.Topo.Btree
import Vccl.Topo.Rings

/-! `connectTrees`: the chains of ranks within the nodes, joined along the double binary tree of the
nodes. Every rank only computes its own parent and children. -/
namespace Vccl.Topo

open List Function Option
open Forest (Climbs Climbing)

inductive TreeError where
  | tooManyChildren (down : List (Option Nat))
  deriving DecidableEq

def setTreeUp (tree : Tree) (indexes : Nat → Nat) (u : Option Nat) : Tree :=
  match u with
  | none => tree
  | some u => { tree with up := some (indexes u) }

def setTreeDown (tree : Tree) (indexes : Nat → Nat) (d : Option Nat) : Except TreeError Tree :=
  match d with
  | none => .ok tree
  | some d =>
    let x := tree.down.findIdx isNone
    if x = tree.down.length then .error (.tooManyChildren tree.down)
    else .ok { tree with down := tree.down.set x (some (indexes d)) }

/-- The body of the loop of `connectTrees` for one of the two channels. -/
def connectTree (rank node : Nat) (ttp ttc0 ttc1 : Nat → Nat) (btree : Btree) (tree : Tree) :
    Except TreeError Tree :=
  let tree :=
    if rank = ttp node then setTreeUp tree (if btree.parentChildType = 0 then ttc0 else ttc1) btree.up else tree
  (if rank = ttc0 node then setTreeDown tree ttp btree.down0 else .ok tree).bind fun tree =>
    if rank = ttc1 node then setTreeDown tree ttp btree.down1 else .ok tree

/-- The move of the duplicated channels in `initTransportsRank`, once the ranks have agreed on a smaller
number of channels. -/
def moveDuplicates (nChannelsOrig nChannels : Nat) (channels : Nat → Tree) : Nat → Tree :=
  if nChannels < nChannelsOrig then
    (range nChannels).foldl
      (fun channels i => update channels (nChannels + i) (channels (nChannelsOrig + i))) channels
  else channels

namespace Cluster

variable (cluster : Cluster)

def treeToParent (c node : Nat) : Nat := ((topoPreset cluster (cluster.firstRank node)).tree c).toParent
def treeToChild0 (c node : Nat) : Nat := ((topoPreset cluster (cluster.firstRank node)).tree c).toChild0
def treeToChild1 (c node : Nat) : Nat := ((topoPreset cluster (cluster.firstRank node)).tree c).toChild1

def connectTrees (rank : Nat) : Except TreeError (Nat → Tree) :=
  let nChannels := cluster.alignedChannels rank
  let nNodes := cluster.layout.nNodes
  let node := cluster.layout.rankToNode rank
  let connect c btree tree := connectTree rank node (cluster.treeToParent c) (cluster.treeToChild0 c)
    (cluster.treeToChild1 c) btree tree
  (range nChannels).foldlM (fun channels c => do
      let tree0 ← connect c (getBtree nNodes node) (channels c)
      let tree1 ← connect c (getDtree1 nNodes node) (channels (c + nChannels))
      return update (update channels c tree0) (c + nChannels) tree1)
    (moveDuplicates (cluster.graphs (cluster.hostOf rank)).nChannels nChannels (topoPreset cluster rank).channels)

end Cluster

structure IsTree (nRanks : Nat) (up : Nat → Option Nat) (down : Nat → List Nat) : Prop where
  consistent : ∀ r < nRanks, ∀ p < nRanks, up r = some p ↔ r ∈ down p
  parents : ∀ r < nRanks, ∀ p, up r = some p → p < nRanks
  children : ∀ p < nRanks, ∀ r ∈ down p, r < nRanks
  nodup : ∀ p < nRanks, (down p).Nodup
  arity : ∀ p < nRanks, (down p).length ≤ 3
  acyclic : ∀ r < nRanks, ¬ Relation.TransGen (Climbs up) r r
  root : ∃ root < nRanks, (∀ r < nRanks, up r = none ↔ r = root) ∧
    ∀ r < nRanks, Relation.ReflTransGen (Climbs up) r root

section

variable {nNodes nRanks : Nat} {node : Nat → Nat} {path : Nat → List Nat} {tree : Nat → Btree}
  {c0 c1 : Nat → Nat} {up : Nat → Option Nat} {down : Nat → List Nat}

def childIndex (c0 c1 : Nat → Nat) (childType node : Nat) : Nat := if childType = 0 then c0 node else c1 node

/-- The pointers of the rank at place `i` of node `n`: along the chain, from its head to the chain of
the parent node, and from the places for children to the heads of the child nodes. -/
structure Glued (nNodes : Nat) (path : Nat → List Nat) (tree : Nat → Btree) (c0 c1 : Nat → Nat)
    (up : Nat → Option Nat) (down : Nat → List Nat) : Prop where
  pointers : ∀ n < nNodes, ∀ i r : Nat, (path n)[i]? = some r →
    up r = (if i = 0 then
        (tree n).up.map fun u => (path u).getD (childIndex c0 c1 (tree n).parentChildType u) 0
      else (path n)[i - 1]?) ∧
    down r = (path n)[i + 1]?.toList ++
      (if i = c0 n then (tree n).down0.toList.map fun d => (path d).getD 0 0 else []) ++
      (if i = c1 n then (tree n).down1.toList.map fun d => (path d).getD 0 0 else [])

structure ChildPlaces (nNodes : Nat) (path : Nat → List Nat) (c0 c1 : Nat → Nat) : Prop where
  lt : ∀ n < nNodes, ∀ t, childIndex c0 c1 t n < (path n).length
  le : ∀ n < nNodes, ∀ t, childIndex c0 c1 t n ≤ 1

theorem Paths.place (paths : Paths nNodes nRanks node path) {r : Nat} (inside : r < nRanks) :
    node r < nNodes ∧ ∃ i : Nat, (path (node r))[i]? = some r := by
  have onNode := paths.onNode r inside
  exact ⟨onNode, mem_iff_getElem?.mp ((paths.mem_iff _ onNode r).mpr ⟨inside, rfl⟩)⟩

theorem Paths.bound (paths : Paths nNodes nRanks node path) {n i r : Nat} (inside : n < nNodes)
    (here : (path n)[i]? = some r) : r < nRanks :=
  ((paths.mem_iff n inside r).mp (mem_of_getElem? here)).1

theorem mem_heads {P : Prop} [Decidable P] {o : Option Nat} {f : Nat → Nat} {a : Nat} :
    (a ∈ if P then o.toList.map f else []) ↔ P ∧ ∃ v, o = some v ∧ f v = a := by
  split <;> simp [*]

theorem length_heads {P : Prop} [Decidable P] {o : Option Nat} {f : Nat → Nat} :
    (if P then o.toList.map f else []).length ≤ 1 := by
  split
  · cases o <;> simp
  · simp

theorem Paths.eq_getD_iff (paths : Paths nNodes nRanks node path) {n i j r : Nat} (inside : n < nNodes)
    (here : (path n)[i]? = some r) (less : j < (path n).length) : r = (path n).getD j 0 ↔ i = j := by
  have there := (paths.getD_mem inside less).1
  constructor
  · intro same
    rw [← same] at there
    exact (paths.place_unique inside inside here there).2
  · rintro rfl
    rw [here] at there
    exact some.inj there

theorem Paths.head (paths : Paths nNodes nRanks node path) {n : Nat} (inside : n < nNodes) :
    (path n)[0]? = some ((path n).getD 0 0) :=
  (paths.getD_mem inside (paths.length_pos inside)).1

namespace Glued

variable (glued : Glued nNodes path tree c0 c1 up down) (paths : Paths nNodes nRanks node path)
  (nodes : NodeTree nNodes tree) (places : ChildPlaces nNodes path c0 c1)

include glued paths nodes places

variable {r p : Nat} {n i : Nat}

theorem parent_cases (inside : n < nNodes) (here : (path n)[i]? = some r) (parent : up r = some p) :
    (∃ j, i = j + 1 ∧ (path n)[j]? = some p) ∨
      ∃ u, i = 0 ∧ u < nNodes ∧ (tree n).up = some u ∧ (tree u).child (tree n).parentChildType = some n ∧
        (path u)[childIndex c0 c1 (tree n).parentChildType u]? = some p := by
  rw [(glued.pointers n inside i r here).1] at parent
  cases i with
  | zero =>
    obtain ⟨u, hp', rfl⟩ := map_eq_some_iff.mp parent
    obtain ⟨hi', child⟩ := nodes.up n inside u hp'
    exact .inr ⟨u, rfl, hi', hp', child, (paths.getD_mem hi' (places.lt u hi' _)).1⟩
  | succ j => exact .inl ⟨j, rfl, parent⟩

theorem mem_down_of_up (inside : r < nRanks) (parent : up r = some p) : r ∈ down p := by
  obtain ⟨ho, i, here⟩ := paths.place inside
  rcases glued.parent_cases paths nodes places ho here parent with
    ⟨j, rfl, before⟩ | ⟨u, rfl, hi', -, hc, place⟩
  · rw [(glued.pointers _ ho j p before).2, here]
    simp
  have head : r = (path (node r)).getD 0 0 := by
    rw [paths.head ho] at here
    exact (some.inj here).symm
  rw [(glued.pointers u hi' _ p place).2]
  simp only [mem_append]
  unfold Btree.child at hc
  unfold childIndex
  by_cases first : (tree (node r)).parentChildType = 0
  · rw [if_pos first] at hc
    refine .inl (.inr ?_)
    rw [if_pos first, hc]
    simpa using head
  · rw [if_neg first] at hc
    refine .inr ?_
    rw [if_neg first, hc]
    simpa using head

omit places in
theorem child_cases (inside : n < nNodes) (here : (path n)[i]? = some p) (child : r ∈ down p) :
    (path n)[i + 1]? = some r ∨
      ∃ v < nNodes, (path v)[0]? = some r ∧ (tree v).up = some n ∧
        i = childIndex c0 c1 (tree v).parentChildType n := by
  rw [(glued.pointers n inside i p here).2] at child
  simp only [mem_append, mem_heads] at child
  rcases child with (next | ⟨hpl, v, hk, rfl⟩) | ⟨hpl, v, hk, rfl⟩
  · exact .inl (by simpa using next)
  · obtain ⟨hi', hp, type⟩ := nodes.down0 n inside v hk
    exact .inr ⟨v, hi', paths.head hi', hp, by rw [type]; exact hpl⟩
  · obtain ⟨hi', hp, type⟩ := nodes.down1 n inside v hk
    exact .inr ⟨v, hi', paths.head hi', hp, by rw [type]; exact hpl⟩

omit places in
theorem up_of_mem_down (inside : p < nRanks) (child : r ∈ down p) :
    r < nRanks ∧ up r = some p := by
  obtain ⟨ho, i, here⟩ := paths.place inside
  rcases glued.child_cases paths nodes ho here child with next | ⟨v, hi', head, hp, place⟩
  · refine ⟨paths.bound ho next, ?_⟩
    rw [(glued.pointers _ ho _ r next).1]
    exact here
  · refine ⟨paths.bound hi' head, ?_⟩
    rw [(glued.pointers v hi' 0 r head).1, hp, map_some, ← place,
      getD_eq_getElem?_getD, here]
    rfl

theorem climbing : ∃ height, Climbing (· < nRanks) up height := by
  obtain ⟨height, falls⟩ := nodes.height
  refine ⟨fun r => 2 * height (node r) + (path (node r)).idxOf r, ?_⟩
  have heightAt : ∀ {n i r : Nat}, n < nNodes → (path n)[i]? = some r →
      2 * height (node r) + (path (node r)).idxOf r = 2 * height n + i := by
    intro n i r hi here
    obtain ⟨-, ho⟩ := (paths.mem_iff n hi r).mp (mem_of_getElem? here)
    rw [ho]
    have found := getElem?_idxOf (mem_of_getElem? here)
    rw [(paths.place_unique hi hi found here).2]
  constructor
  · intro r p hi parent
    obtain ⟨ho, i, here⟩ := paths.place hi
    rcases glued.parent_cases paths nodes places ho here parent with
      ⟨j, -, before⟩ | ⟨u, -, hi', -, -, place⟩
    · exact paths.bound ho before
    · exact paths.bound hi' place
  · intro r p hi parent
    obtain ⟨ho, i, here⟩ := paths.place hi
    rcases glued.parent_cases paths nodes places ho here parent with
      ⟨j, rfl, before⟩ | ⟨u, rfl, hi', hp', -, place⟩
    · simp only [heightAt ho here, heightAt ho before]
      omega
    · -- the place in the parent node is at most the second one, and that node is lower
      have lower := falls _ ho u hp'
      have second := places.le u hi' (tree (node r)).parentChildType
      simp only [heightAt hi' place]
      omega

omit nodes places in
theorem up_none_iff {root : Nat} (top : root < nNodes) (only : ∀ v < nNodes, (tree v).up = none ↔ v = root)
    (inside : r < nRanks) : up r = none ↔ r = (path root).getD 0 0 := by
  obtain ⟨ho, i, here⟩ := paths.place inside
  have head := paths.head top
  rw [(glued.pointers _ ho i r here).1]
  constructor
  · intro none'
    cases i with
    | zero =>
      rw [if_pos rfl, map_eq_none_iff, only _ ho] at none'
      rw [none', head] at here
      exact (some.inj here).symm
    | succ i =>
      have bound := (List.getElem?_eq_some_iff.mp here).1
      rw [List.getElem?_eq_getElem (by omega)] at none'
      cases none'
  · rintro rfl
    obtain ⟨same, rfl⟩ := paths.place_unique ho top here head
    rw [if_pos rfl, map_eq_none_iff, only _ ho]
    exact same

omit places in
theorem nodup_down (inside : p < nRanks) : (down p).Nodup := by
  obtain ⟨ho, i, here⟩ := paths.place inside
  rw [(glued.pointers _ ho i p here).2]
  have single : ∀ (o : Option Nat) (P : Prop) [Decidable P] (f : Nat → Nat),
      (if P then o.toList.map f else []).Nodup := by
    intro o P _ f
    cases o <;> split <;> simp
  have apart : ∀ {v : Nat}, v < nNodes → (path v).getD 0 0 ∉ (path (node p))[i + 1]?.toList := by
    intro v hi' mem
    have index := (paths.place_unique ho hi' (by simpa using mem) (paths.head hi')).2
    omega
  refine (Nodup.append ?_ (single ..) ?_).append (single ..) ?_
  · cases (path (node p))[i + 1]? <;> simp
  · intro a next first
    obtain ⟨-, v, hk, rfl⟩ := mem_heads.mp first
    exact apart (nodes.down0 _ ho v hk).1 next
  -- a child is the head of one node, which is the first or the second child
  intro a he hs
  obtain ⟨-, w, hk, rfl⟩ := mem_heads.mp hs
  obtain ⟨hi', -, _⟩ := nodes.down1 _ ho w hk
  rcases mem_append.mp he with next | first
  · exact apart hi' next
  · obtain ⟨-, v, hk', same⟩ := mem_heads.mp first
    obtain ⟨hi'', -, _⟩ := nodes.down0 _ ho v hk'
    obtain ⟨rfl, -⟩ := paths.place_unique hi' hi'' (paths.head hi') (same ▸ paths.head hi'')
    omega

theorem isTree : IsTree nRanks up down where
  consistent r inside p inside' :=
    ⟨glued.mem_down_of_up paths nodes places inside, fun child =>
      (glued.up_of_mem_down paths nodes inside' child).2⟩
  parents r inside p parent := by
    obtain ⟨height, climbing⟩ := glued.climbing paths nodes places
    exact climbing.stays r p inside parent
  children p inside r child := (glued.up_of_mem_down paths nodes inside child).1
  nodup p inside := glued.nodup_down paths nodes inside
  arity p inside := by
    obtain ⟨ho, i, here⟩ := paths.place inside
    rw [(glued.pointers _ ho i p here).2]
    have next : (path (node p))[i + 1]?.toList.length ≤ 1 := by
      cases (path (node p))[i + 1]? <;> simp
    simp only [length_append]
    exact Nat.add_le_add (Nat.add_le_add next length_heads) length_heads
  acyclic r inside := by
    obtain ⟨height, climbing⟩ := glued.climbing paths nodes places
    exact climbing.acyclic inside
  root := by
    obtain ⟨height, climbing⟩ := glued.climbing paths nodes places
    obtain ⟨root, top, only⟩ := nodes.root
    have none_iff := fun r (inside : r < nRanks) => glued.up_none_iff paths top only inside
    refine ⟨(path root).getD 0 0, paths.bound top (paths.head top), none_iff, ?_⟩
    intro r inside
    obtain ⟨last, ht, none', hr⟩ := climbing.reaches_root inside
    rw [(none_iff last ht).mp none'] at hr
    exact hr

end Glued

end

structure Tree.Packed (tree : Tree) (l : List Nat) : Prop where
  length : l.length ≤ 3
  down : tree.down = l.map some ++ replicate (3 - l.length) none

variable {tree : Tree} {l : List Nat}

theorem Tree.Packed.children (packed : tree.Packed l) : tree.down.filterMap id = l := by
  rw [packed.down]
  simp

theorem setTreeDown_packed (packed : tree.Packed l) (room : l.length < 3) (indexes : Nat → Nat) (d : Option Nat) :
    ∃ tree', setTreeDown tree indexes d = .ok tree' ∧ tree'.up = tree.up ∧
      tree'.Packed (l ++ d.toList.map indexes) := by
  cases d with
  | none => exact ⟨tree, rfl, rfl, by simpa using packed⟩
  | some d =>
    obtain ⟨k, free⟩ : ∃ k, 3 - l.length = k + 1 := ⟨2 - l.length, by omega⟩
    have full : ∀ x ∈ l.map some, isNone x = false := by simp
    have index : tree.down.findIdx isNone = l.length := by
      rw [packed.down, free, replicate_succ, findIdx_append]
      simp [findIdx_cons]
    have length : tree.down.length = 3 := by
      rw [packed.down]
      simp
      omega
    refine ⟨{ tree with down := tree.down.set l.length (some (indexes d)) }, ?_, rfl, ?_⟩
    · simp only [setTreeDown, index]
      rw [if_neg (by omega)]
    refine ⟨by simp; omega, ?_⟩
    have rest : 3 - (l ++ [indexes d]).length = k := by
      rw [length_append, length_singleton]
      omega
    simp only [toList_some, map_cons, map_nil, rest]
    rw [packed.down, free, replicate_succ]
    simp

theorem connectTree_packed (packed : tree.Packed l) (short : l.length ≤ 1) {rank node : Nat}
    {ttp ttc0 ttc1 : Nat → Nat} (btree : Btree) :
    ∃ tree', connectTree rank node ttp ttc0 ttc1 btree tree = .ok tree' ∧
      tree'.up = (if rank = ttp node then
        (btree.up.map (if btree.parentChildType = 0 then ttc0 else ttc1)).or tree.up else tree.up) ∧
      tree'.Packed (l ++ (if rank = ttc0 node then btree.down0.toList.map ttp else []) ++
        (if rank = ttc1 node then btree.down1.toList.map ttp else [])) := by
  let tree1 := if rank = ttp node then
    setTreeUp tree (if btree.parentChildType = 0 then ttc0 else ttc1) btree.up else tree
  have up1 : tree1.up = if rank = ttp node then
      (btree.up.map (if btree.parentChildType = 0 then ttc0 else ttc1)).or tree.up else tree.up := by
    unfold tree1
    split
    · cases btree.up <;> rfl
    · rfl
  have packed1 : tree1.Packed l := by
    unfold tree1
    split
    · cases btree.up
      · exact packed
      · exact ⟨packed.length, packed.down⟩
    · exact packed
  have step : ∀ {t : Tree} {l : List Nat} (r' : Nat) (d : Option Nat), t.Packed l → l.length < 3 →
      ∃ t', (if rank = r' then setTreeDown t ttp d else .ok t) = .ok t' ∧ t'.up = t.up ∧
        t'.Packed (l ++ if rank = r' then d.toList.map ttp else []) := by
    intro t l r' d packed room
    by_cases here : rank = r'
    · simp only [if_pos here]
      exact setTreeDown_packed packed room ttp d
    · simp only [if_neg here, append_nil]
      exact ⟨t, rfl, rfl, packed⟩
  obtain ⟨_, ok2, up2, packed2⟩ := step (ttc0 node) btree.down0 packed1 (by omega)
  have short2 : (if rank = ttc0 node then btree.down0.toList.map ttp else []).length ≤ 1 := length_heads
  obtain ⟨tree3, ok3, up3, packed3⟩ := step (ttc1 node) btree.down1 packed2 (by rw [length_append]; omega)
  refine ⟨tree3, ?_, by rw [up3, up2, up1], packed3⟩
  change (if rank = ttc0 node then setTreeDown tree1 ttp btree.down0 else .ok tree1).bind _ = Except.ok tree3
  rw [ok2]
  exact ok3

theorem chainTree_packed (l : List Nat) (i : Nat) :
    (chainTree l i).Packed l[i + 1]?.toList ∧ l[i + 1]?.toList.length ≤ 1 := by
  have next : (if i = l.length - 1 then none else l[i + 1]?) = l[i + 1]? := by
    split
    · exact (getElem?_eq_none (by omega)).symm
    · rfl
  unfold chainTree
  rw [next]
  cases l[i + 1]? <;> exact ⟨⟨by simp, rfl⟩, by simp⟩

theorem moveDuplicates_apply {nChannelsOrig nChannels : Nat} (fewer : nChannels ≤ nChannelsOrig)
    (channels : Nat → Tree) {c : Nat} (channel : c < nChannels) :
    moveDuplicates nChannelsOrig nChannels channels c = channels c ∧
      moveDuplicates nChannelsOrig nChannels channels (nChannels + c) = channels (nChannelsOrig + c) := by
  unfold moveDuplicates
  split
  · have moved : ∀ n, ∀ k, (range n).foldl (fun channels i =>
        update channels (nChannels + i) (channels (nChannelsOrig + i))) channels k =
          if nChannels ≤ k ∧ k < nChannels + n then channels (nChannelsOrig + (k - nChannels))
          else channels k := by
      intro n
      induction n with
      | zero =>
        intro k
        rw [if_neg (by omega)]
        rfl
      | succ n ih =>
        intro k
        rw [range_succ, foldl_append]
        simp only [foldl_cons, foldl_nil, update_apply, ih]
        by_cases here : k = nChannels + n
        · -- the source lies behind everything that was overwritten
          rw [if_pos here, if_neg (by omega), if_pos (by omega)]
          congr 1
          omega
        · rw [if_neg here]
          by_cases hb : nChannels ≤ k ∧ k < nChannels + n
          · rw [if_pos hb, if_pos (by omega)]
          · rw [if_neg hb, if_neg (by omega)]
    rw [moved, moved, if_neg (by omega), if_pos (by omega), Nat.add_sub_cancel_left]
    exact ⟨rfl, rfl⟩
  · obtain rfl : nChannels = nChannelsOrig := by omega
    exact ⟨rfl, rfl⟩

theorem foldlM_pairs {n : Nat} {connect0 connect1 : Nat → Tree → Except TreeError Tree} {start tree0 tree1 : Nat → Tree}
    (ok0 : ∀ c < n, connect0 c (start c) = .ok (tree0 c)) (ok1 : ∀ c < n, connect1 c (start (c + n)) = .ok (tree1 c))
    (k : Nat) (less : k ≤ n) :
    ∃ channels, (range k).foldlM (fun channels c => do
        let tree0 ← connect0 c (channels c)
        let tree1 ← connect1 c (channels (c + n))
        return update (update channels c tree0) (c + n) tree1) start = .ok channels ∧
      ∀ c < n, channels c = (if c < k then tree0 c else start c) ∧
        channels (c + n) = if c < k then tree1 c else start (c + n) := by
  induction k with
  | zero => exact ⟨start, rfl, by simp⟩
  | succ k ih =>
    obtain ⟨channels, run, each⟩ := ih (by omega)
    refine ⟨update (update channels k (tree0 k)) (k + n) (tree1 k), ?_, ?_⟩
    · rw [range_succ, foldlM_append, run]
      simp [each k less, ok0 k less, ok1 k less, bind, Except.bind, pure, Except.pure]
    · intro c below
      by_cases last : c = k
      · rw [last, update_of_ne (by omega), update_self, update_self]
        simp
      · rw [update_of_ne (by omega), update_of_ne last, update_of_ne (by omega), update_of_ne (by omega)]
        simpa only [show c < k + 1 ↔ c < k by omega] using each c below

namespace Cluster

variable (cluster : Cluster)

def chain (c node : Nat) : List Nat := (cluster.graphs (cluster.hostOf (cluster.firstRank node))).treeIntra c

def ownChain (c rank : Nat) : List Nat := cluster.chain c (cluster.layout.rankToNode rank)

def nodePattern (node : Nat) : TreePattern := (cluster.graphs (cluster.hostOf (cluster.firstRank node))).pattern

def child0At (node : Nat) : Nat := child0Index (cluster.nodePattern node)
def child1At (node : Nat) : Nat := child1Index (cluster.nodePattern node)

def connectChain (c rank : Nat) (btree : Btree) : Tree → Except TreeError Tree :=
  connectTree rank (cluster.layout.rankToNode rank) (cluster.treeToParent c) (cluster.treeToChild0 c)
    (cluster.treeToChild1 c) btree

variable {cluster} {c : Nat}

section

variable (channel : ∀ r < cluster.nRanks, c < (cluster.graphs (cluster.hostOf r)).nChannels)

include channel

theorem chain_isPath (node : Nat) : cluster.IsPath (cluster.firstRank node) (cluster.chain c node) :=
  cluster.treePath _ (firstRank_lt node) c (channel _ (firstRank_lt node))

theorem chains : Paths cluster.layout.nNodes cluster.nRanks cluster.layout.rankToNode (cluster.chain c) :=
  paths_of_isPath fun node _ => chain_isPath channel node

theorem tree_firstRank (node : Nat) : (topoPreset cluster (cluster.firstRank node)).tree c =
    treePlace (cluster.nodePattern node) (cluster.chain c node) := by
  have path := chain_isPath channel node
  obtain ⟨i, here⟩ := path.place (firstRank_lt node)
  simp only [topoPreset, if_pos (channel _ (firstRank_lt node))]
  exact atRank_eq _ _ path.nodup here

theorem childPlaces :
    ChildPlaces cluster.layout.nNodes (cluster.chain c) cluster.child0At cluster.child1At := by
  have le : ∀ t node, childIndex cluster.child0At cluster.child1At t node ≤ 1 := by
    intro t node
    simp only [childIndex, child0At, child1At, child0Index, child1Index]
    split <;> split <;> omega
  refine ⟨?_, fun node _ t => le t node⟩
  intro node hi t
  have path := chain_isPath channel node
  have pos := (chains channel).length_pos hi
  have := le t node
  by_cases hs : (cluster.chain c node).length = 1
  · have plain := cluster.plainTree _ (firstRank_lt node) (by rw [← Perm.length_eq path, hs])
    have zero : childIndex cluster.child0At cluster.child1At t node = 0 := by
      simp only [childIndex, child0At, child1At, nodePattern, plain]
      split <;> decide
    omega
  · omega

theorem channels_place {rank : Nat} (inside : rank < cluster.nRanks) :
    ∃ i : Nat, (cluster.ownChain c rank)[i]? = some rank ∧
      (topoPreset cluster rank).channels c = chainTree (cluster.ownChain c rank) i ∧
      (topoPreset cluster rank).channels ((cluster.graphs (cluster.hostOf rank)).nChannels + c) =
        chainTree (cluster.ownChain c rank) i := by
  have onNode := cluster.layout.onNode rank (by simpa using inside)
  obtain ⟨hf, node⟩ := rankToNode_firstRank onNode
  have host := (rankToNode_eq_iff hf inside).mp node
  obtain ⟨-, i, here⟩ := (chains channel).place inside
  have known := channel rank inside
  refine ⟨i, here, ?_, ?_⟩
  · simp only [topoPreset, if_pos known]
    rw [← host]
    exact atRank_eq _ _ (chain_isPath channel _).nodup here
  · simp only [topoPreset]
    rw [if_neg (by omega), if_pos (by omega), Nat.add_sub_cancel_left, ← host]
    exact atRank_eq _ _ (chain_isPath channel _).nodup here

theorem connectTree_chain {rank i : Nat} (inside : rank < cluster.nRanks)
    (here : (cluster.ownChain c rank)[i]? = some rank) (btree : Btree) :
    ∃ tree, cluster.connectChain c rank btree (chainTree (cluster.ownChain c rank) i) = .ok tree ∧
      tree.up = (if i = 0 then btree.up.map fun u => (cluster.chain c u).getD
          (childIndex cluster.child0At cluster.child1At btree.parentChildType u) 0
        else (cluster.ownChain c rank)[i - 1]?) ∧
      tree.down.filterMap id = (cluster.ownChain c rank)[i + 1]?.toList ++
        (if i = cluster.child0At (cluster.layout.rankToNode rank) then
          btree.down0.toList.map fun d => (cluster.chain c d).getD 0 0 else []) ++
        (if i = cluster.child1At (cluster.layout.rankToNode rank) then
          btree.down1.toList.map fun d => (cluster.chain c d).getD 0 0 else []) := by
  have onNode := cluster.layout.onNode rank (by simpa using inside)
  have places := childPlaces channel
  have toParent : cluster.treeToParent c = fun d => (cluster.chain c d).getD 0 0 := by
    funext d
    rw [treeToParent, tree_firstRank channel]
    rfl
  have toChild0 : cluster.treeToChild0 c = fun u => (cluster.chain c u).getD (cluster.child0At u) 0 := by
    funext u
    rw [treeToChild0, tree_firstRank channel]
    rfl
  have toChild1 : cluster.treeToChild1 c = fun u => (cluster.chain c u).getD (cluster.child1At u) 0 := by
    funext u
    rw [treeToChild1, tree_firstRank channel]
    rfl
  have at_iff {j : Nat} (less : j < (cluster.chain c (cluster.layout.rankToNode rank)).length) :=
    propext ((chains channel).eq_getD_iff onNode here less)
  obtain ⟨hp, hs⟩ := chainTree_packed (cluster.ownChain c rank) i
  obtain ⟨tree, ok, up, down⟩ := connectTree_packed hp hs btree
  refine ⟨tree, ok, ?_, ?_⟩
  · rw [up, toParent, toChild0, toChild1]
    simp only [at_iff ((chains channel).length_pos onNode)]
    split
    next head =>
      simp only [chainTree, if_pos head, or_none]
      congr 1
      funext u
      simp only [childIndex]
      split <;> rfl
    next later =>
      simp [chainTree, if_neg later]
  · have first := places.lt _ onNode 0
    have second := places.lt _ onNode 1
    simp only [childIndex, if_true, if_neg (show (1 : Nat) ≠ 0 by decide)] at first second
    rw [down.children, toParent, toChild0, toChild1]
    simp only [at_iff first, at_iff second]

end

variable (cluster) in
def Connects (c : Nat) (tree : Nat → Btree) (rank : Nat) (result : Tree) : Prop :=
  ∃ i : Nat, (cluster.ownChain c rank)[i]? = some rank ∧
    cluster.connectChain c rank (tree (cluster.layout.rankToNode rank)) (chainTree (cluster.ownChain c rank) i) =
      .ok result

theorem connectTrees_ok {rank : Nat} (inside : rank < cluster.nRanks) :
    ∃ channels, cluster.connectTrees rank = .ok channels ∧ ∀ c < cluster.alignedChannels rank,
      cluster.Connects c (getBtree cluster.layout.nNodes) rank (channels c) ∧
        cluster.Connects c (getDtree1 cluster.layout.nNodes) rank
          (channels (c + cluster.alignedChannels rank)) := by
  have fits : ∀ c < cluster.alignedChannels rank,
      ∀ r < cluster.nRanks, c < (cluster.graphs (cluster.hostOf r)).nChannels :=
    fun c less r hb => lt_of_lt_of_le less (alignedChannels_le inside hb)
  let moved := moveDuplicates (cluster.graphs (cluster.hostOf rank)).nChannels (cluster.alignedChannels rank)
    (topoPreset cluster rank).channels
  have start : ∀ c < cluster.alignedChannels rank, ∃ i : Nat, (cluster.ownChain c rank)[i]? = some rank ∧
      moved c = chainTree (cluster.ownChain c rank) i ∧ moved c = moved (c + cluster.alignedChannels rank) := by
    intro c less
    obtain ⟨i, here, first, hs⟩ := channels_place (fits c less) inside
    obtain ⟨low, high⟩ := moveDuplicates_apply (alignedChannels_le inside inside)
      (topoPreset cluster rank).channels less
    simp only [moved]
    rw [Nat.add_comm c, low, high, first, hs]
    exact ⟨i, here, rfl, rfl⟩
  have ok (tree : Nat → Btree) (c : Nat) (less : c < cluster.alignedChannels rank) :
      ∃ result, cluster.connectChain c rank (tree (cluster.layout.rankToNode rank)) (moved c) = .ok result ∧
        cluster.Connects c tree rank result := by
    obtain ⟨i, here, first, -⟩ := start c less
    obtain ⟨result, done, -⟩ := connectTree_chain (fits c less) inside here (tree (cluster.layout.rankToNode rank))
    exact ⟨result, first ▸ done, i, here, done⟩
  have : Nonempty Tree := ⟨⟨none, []⟩⟩
  choose! tree0 ok0 joined0 using ok (getBtree cluster.layout.nNodes)
  choose! tree1 ok1 joined1 using ok (getDtree1 cluster.layout.nNodes)
  obtain ⟨channels, run, each⟩ := foldlM_pairs ok0 (fun c less => by
    obtain ⟨_, -, -, same⟩ := start c less
    exact same ▸ ok1 c less) _ le_rfl
  refine ⟨channels, run, fun c less => ?_⟩
  rw [(each c less).1, (each c less).2, if_pos less, if_pos less]
  exact ⟨joined0 c less, joined1 c less⟩

theorem channel_isTree (channel : ∀ r < cluster.nRanks, c < (cluster.graphs (cluster.hostOf r)).nChannels)
    {tree : Nat → Btree} (nodes : NodeTree cluster.layout.nNodes tree) {result : Nat → Tree}
    (connected : ∀ rank < cluster.nRanks, cluster.Connects c tree rank (result rank)) :
    IsTree cluster.nRanks (fun r => (result r).up) (fun r => (result r).down.filterMap id) := by
  have paths := chains channel
  refine Glued.isTree ⟨?_⟩ paths nodes (childPlaces channel)
  intro n hi i r here
  obtain ⟨hb, node⟩ := (paths.mem_iff n hi r).mp (mem_of_getElem? here)
  obtain ⟨j, ht, ok⟩ := connected r hb
  obtain ⟨_, ok', up, down⟩ := connectTree_chain channel hb ht (tree (cluster.layout.rankToNode r))
  rw [ok'] at ok
  cases ok
  rw [ownChain, node] at ht up down
  obtain ⟨-, rfl⟩ := paths.place_unique hi hi ht here
  exact ⟨up, down⟩

end Cluster

/-- What the ranks connect on their own is one tree on every channel. -/
theorem connectTrees_trees (cluster : Cluster) :
    ∃ nChannels, ∃ channels : Nat → Nat → Tree, 0 < nChannels ∧
      (∀ rank < cluster.nRanks, cluster.alignedChannels rank = nChannels ∧
        cluster.connectTrees rank = .ok (channels rank)) ∧
      ∀ c < 2 * nChannels, IsTree cluster.nRanks (fun r => (channels r c).up)
        (fun r => (channels r c).down.filterMap id) := by
  have : Nonempty Tree := ⟨⟨none, []⟩⟩
  choose! channels done using fun rank (hi : rank < cluster.nRanks) => Cluster.connectTrees_ok hi
  have same : ∀ rank < cluster.nRanks, cluster.alignedChannels rank = cluster.alignedChannels 0 :=
    fun rank hi => Cluster.alignedChannels_eq hi cluster.someRank
  refine ⟨cluster.alignedChannels 0, channels, Cluster.alignedChannels_pos cluster.someRank,
    fun rank hi => ⟨same rank hi, (done rank hi).1⟩, ?_⟩
  have someNode : 0 < cluster.layout.nNodes :=
    Nat.zero_lt_of_lt (cluster.layout.onNode 0 (by simpa using cluster.someRank))
  have fits : ∀ {c}, c < cluster.alignedChannels 0 →
      ∀ r < cluster.nRanks, c < (cluster.graphs (cluster.hostOf r)).nChannels :=
    fun less r hb => lt_of_lt_of_le less (Cluster.alignedChannels_le cluster.someRank hb)
  intro c less
  rcases Nat.lt_or_ge c (cluster.alignedChannels 0) with first | hs
  · refine Cluster.channel_isTree (fits first) (getBtree_nodeTree someNode) ?_
    intro rank hi
    exact ((done rank hi).2 c (by rw [same rank hi]; exact first)).1
  obtain ⟨d, rfl⟩ := Nat.exists_eq_add_of_le' hs
  have lower : d < cluster.alignedChannels 0 := by omega
  refine Cluster.channel_isTree (fits lower) (getDtree1_nodeTree someNode) ?_
  intro rank hi
  have connects := ((done rank hi).2 d (by rw [same rank hi]; exact lower)).2
  rwa [same rank hi] at connects

theorem twoHosts_trees : ∃ channels : Nat → Nat → Tree,
    (∀ rank < 5, twoHosts.connectTrees rank = .ok (channels rank)) ∧
      IsTree 5 (fun r => (channels r 3).up) (fun r => (channels r 3).down.filterMap id) := by
  obtain ⟨n, channels, -, done, trees⟩ := connectTrees_trees twoHosts
  have two : n = 2 := (done 0 (by decide)).1.symm.trans (by decide +kernel)
  exact ⟨channels, fun rank hi => (done rank hi).2, trees 3 (by omega)⟩

end Vccl.Topo
