import Vccl.Bitops
import Vccl.Lib.Triangular
import Vccl.Topo.Nodes

/-! The order in which a rank talks to its peers (the schedule built by `initTransportsRank`) and the
channels a round begins at. -/
namespace Vccl.P2p

open Vccl.Topo Triangular List

structure SchedulePair where
  sendRank : Nat
  recvRank : Nat
  deriving DecidableEq

/-- The turns of one of the two loops, which run over the deltas in the same way: deltas that are too
large for `n` are left out. -/
def deltasFrom (n : Nat) : Nat → Nat → Nat → List Nat
  | 0, _, _ => []
  | turns + 1, round, delta =>
    (if delta < n then [delta] else []) ++
      deltasFrom n turns (round + 1) ((delta + (round + 1)) &&& (pow2Up n - 1))

def deltas (n : Nat) : List Nat := deltasFrom n (pow2Up n) 0 0

def flat (l : Layout) : Bool := (range l.nNodes).any fun node => l.localRanks node ≠ l.maxLocalRanks

/-- In the flat case the source also writes `node = 0`, to the variable of the loop only. -/
def p2pSchedule (l : Layout) (rank : Nat) : List SchedulePair :=
  let nNodes := if flat l then 1 else l.nNodes
  let nLocals := if flat l then l.nRanks else l.maxLocalRanks
  let node := l.rankToNode rank
  let localRank := if flat l then rank else l.rankToLocalRank rank
  (deltas nNodes).flatMap fun nodeDelta =>
    let sendNode := (node + nodeDelta) % nNodes
    let recvNode := (node + nNodes - nodeDelta) % nNodes
    (deltas nLocals).map fun localDelta =>
      let sendLocal := (localRank + localDelta) % nLocals
      let recvLocal := (localRank + nLocals - localDelta) % nLocals
      { sendRank := if flat l then sendLocal else (l.localRankToRank sendNode).getD sendLocal 0
        recvRank := if flat l then recvLocal else (l.localRankToRank recvNode).getD recvLocal 0 }

def maxWorkP2pPerBatch : Nat := 8

def channelBaseForRound (l : Layout) (p2pRound : Nat) : Nat :=
  if 1 < l.nNodes then
    let nodeDelta := p2pRound / l.maxLocalRanks
    let localDelta := p2pRound % l.maxLocalRanks
    let base := nodeDelta * divUp l.maxLocalRanks maxWorkP2pPerBatch
    (base + localDelta / maxWorkP2pPerBatch) &&& 0xff
  else p2pRound &&& 0xff

theorem deltasFrom_eq (n turns round : Nat) :
    deltasFrom n turns round (tri round % pow2Up n) =
      ((range' round turns).map (tri · % pow2Up n)).filter (decide <| · < n) := by
  induction turns generalizing round with
  | zero => rfl
  | succ turns ih =>
    have next : (tri round % pow2Up n + (round + 1)) &&& (pow2Up n - 1) = tri (round + 1) % pow2Up n := by
      rw [pow2Up_eq, Nat.and_two_pow_sub_one_eq_mod, Nat.mod_add_mod, tri_succ]
    rw [deltasFrom, range'_succ]
    split <;> simp_all

theorem deltas_perm (n : Nat) : (deltas n).Perm (range n) := by
  have start : tri 0 % pow2Up n = 0 := Nat.zero_mod _
  have all : deltas n = ((range (pow2Up n)).map (tri · % pow2Up n)).filter (decide <| · < n) := by
    have loop := deltasFrom_eq n (pow2Up n) 0
    rw [start] at loop
    rw [deltas, loop, range_eq_range']
  rw [all]
  have perm := (tri_mod_perm (log2Up n)).filter fun x => decide (x < n)
  rw [← pow2Up_eq] at perm
  refine perm.trans (perm_range_of_mem (nodup_range.filter _) ?_)
  intro x
  have bound := le_pow2Up n
  simp only [mem_filter, mem_range, decide_eq_true_eq]
  omega

theorem mem_deltas {n d : Nat} : d ∈ deltas n ↔ d < n := by
  rw [(deltas_perm n).mem_iff, mem_range]

structure Grid (nRanks : Nat) where
  nodes : Nat
  locals : Nat
  rankAt : Nat → Nat → Nat
  nodeOf : Nat → Nat
  localOf : Nat → Nat
  node_lt : ∀ r < nRanks, nodeOf r < nodes
  local_lt : ∀ r < nRanks, localOf r < locals
  rankAt_of : ∀ r < nRanks, rankAt (nodeOf r) (localOf r) = r
  of_rankAt : ∀ i < nodes, ∀ j < locals, rankAt i j < nRanks ∧ nodeOf (rankAt i j) = i ∧ localOf (rankAt i j) = j

theorem ahead_iff_behind {n a b d : Nat} (ha : a < n) (hb : b < n) (hd : d < n) :
    (a + d) % n = b ↔ (b + n - d) % n = a := by
  have behind : (b + n - d) % n = if d ≤ b then b - d else b + n - d := by
    split
    · rw [show b + n - d = b - d + n by omega, Nat.add_mod_right, Nat.mod_eq_of_lt (by omega)]
    · exact Nat.mod_eq_of_lt (by omega)
  have ahead : (a + d) % n = if a + d < n then a + d else a + d - n := by
    split
    · exact Nat.mod_eq_of_lt (by assumption)
    · rw [Nat.mod_eq_sub_mod (by omega), Nat.mod_eq_of_lt (by omega)]
  rw [ahead, behind]
  split <;> split <;> omega

namespace Grid

variable {n : Nat} (g : Grid n)

def pairAt (rank : Nat) (d : Nat × Nat) : SchedulePair where
  sendRank := g.rankAt ((g.nodeOf rank + d.1) % g.nodes) ((g.localOf rank + d.2) % g.locals)
  recvRank := g.rankAt ((g.nodeOf rank + g.nodes - d.1) % g.nodes)
    ((g.localOf rank + g.locals - d.2) % g.locals)

def rounds : List (Nat × Nat) := (deltas g.nodes).product (deltas g.locals)

def delta (a b : Nat) : Nat × Nat :=
  ((g.nodeOf b + g.nodes - g.nodeOf a) % g.nodes, (g.localOf b + g.locals - g.localOf a) % g.locals)

theorem mem_rounds {d : Nat × Nat} : d ∈ g.rounds ↔ d.1 < g.nodes ∧ d.2 < g.locals := by
  obtain ⟨d1, d2⟩ := d
  have pair : (d1, d2) ∈ g.rounds ↔ d1 ∈ deltas g.nodes ∧ d2 ∈ deltas g.locals := mem_product
  rw [pair, mem_deltas, mem_deltas]

theorem nodup_rounds : g.rounds.Nodup :=
  ((deltas_perm _).nodup_iff.mpr nodup_range).product ((deltas_perm _).nodup_iff.mpr nodup_range)

variable {g} {a b : Nat} {d : Nat × Nat}

theorem rankAt_eq_iff {i j : Nat} (hi : i < g.nodes) (hj : j < g.locals) (hb : b < n) :
    g.rankAt i j = b ↔ i = g.nodeOf b ∧ j = g.localOf b := by
  obtain ⟨-, node, localRank⟩ := g.of_rankAt i hi j hj
  constructor
  · rintro rfl
    exact ⟨node.symm, localRank.symm⟩
  · rintro ⟨rfl, rfl⟩
    exact g.rankAt_of b hb

theorem sendRank_eq_iff (ha : a < n) (hb : b < n) (round : d ∈ g.rounds) :
    (g.pairAt a d).sendRank = b ↔ d = g.delta a b := by
  obtain ⟨d1, d2⟩ := d
  obtain ⟨h1, h2⟩ := g.mem_rounds.mp round
  have node := g.node_lt a ha
  have localRank := g.local_lt a ha
  rw [pairAt, rankAt_eq_iff (Nat.mod_lt _ (by omega)) (Nat.mod_lt _ (by omega)) hb, Prod.mk.injEq]
  rw [add_comm _ d1, add_comm _ d2, ahead_iff_behind h1 (g.node_lt b hb) node,
    ahead_iff_behind h2 (g.local_lt b hb) localRank]
  exact and_congr eq_comm eq_comm

theorem recvRank_eq_iff (ha : a < n) (hb : b < n) (round : d ∈ g.rounds) :
    (g.pairAt a d).recvRank = b ↔ d = g.delta b a := by
  rw [← sendRank_eq_iff hb ha round]
  obtain ⟨_, _⟩ := d
  obtain ⟨h1, h2⟩ := g.mem_rounds.mp round
  have node := g.node_lt a ha
  have localRank := g.local_lt a ha
  rw [pairAt, pairAt, rankAt_eq_iff (Nat.mod_lt _ (by omega)) (Nat.mod_lt _ (by omega)) hb,
    rankAt_eq_iff (Nat.mod_lt _ (by omega)) (Nat.mod_lt _ (by omega)) ha,
    ahead_iff_behind (g.node_lt b hb) node h1, ahead_iff_behind (g.local_lt b hb) localRank h2]

theorem delta_mem (ha : a < n) : g.delta a b ∈ g.rounds := by
  have node := g.node_lt a ha
  have localRank := g.local_lt a ha
  exact g.mem_rounds.mpr ⟨Nat.mod_lt _ (by omega), Nat.mod_lt _ (by omega)⟩

theorem peers_lt (ha : a < n) (d : Nat × Nat) :
    (g.pairAt a d).sendRank < n ∧ (g.pairAt a d).recvRank < n := by
  have node := g.node_lt a ha
  have localRank := g.local_lt a ha
  exact ⟨(g.of_rankAt _ (Nat.mod_lt _ (by omega)) _ (Nat.mod_lt _ (by omega))).1,
    (g.of_rankAt _ (Nat.mod_lt _ (by omega)) _ (Nat.mod_lt _ (by omega))).1⟩

theorem map_perm_range {xs : List (Nat × Nat)} {f : Nat × Nat → Nat} {inverse : Nat → Nat × Nat}
    (distinct : xs.Nodup) (inside : ∀ d ∈ xs, f d < n) (found : ∀ b < n, inverse b ∈ xs)
    (inverts : ∀ b < n, ∀ d ∈ xs, f d = b ↔ d = inverse b) : (xs.map f).Perm (range n) := by
  refine perm_range_of_mem ?_ ?_
  · refine Nodup.map_on ?_ distinct
    intro d mem d' mem' same
    rw [(inverts _ (inside d' mem') d mem).mp same]
    exact ((inverts _ (inside d' mem') d' mem').mp rfl).symm
  · intro b
    rw [mem_map]
    constructor
    · rintro ⟨d, mem, rfl⟩
      exact inside d mem
    · intro hb
      exact ⟨_, found b hb, (inverts b hb _ (found b hb)).mpr rfl⟩

theorem sendRanks_perm (ha : a < n) :
    ((g.rounds.map (g.pairAt a)).map SchedulePair.sendRank).Perm (range n) := by
  rw [map_map]
  refine map_perm_range g.nodup_rounds (fun d _ => (peers_lt ha d).1)
    (fun b _ => delta_mem (b := b) ha) ?_
  intro b hb d round
  exact sendRank_eq_iff ha hb round

theorem recvRanks_perm (ha : a < n) :
    ((g.rounds.map (g.pairAt a)).map SchedulePair.recvRank).Perm (range n) := by
  rw [map_map]
  refine map_perm_range g.nodup_rounds (fun d _ => (peers_lt ha d).2)
    (fun b hb => delta_mem (b := a) hb) ?_
  intro b hb d round
  exact recvRank_eq_iff ha hb round

theorem send_iff_recv (ha : a < n) (hb : b < n) (round : Nat) :
    ((g.rounds.map (g.pairAt a))[round]?).map SchedulePair.sendRank = some b ↔
      ((g.rounds.map (g.pairAt b))[round]?).map SchedulePair.recvRank = some a := by
  rw [getElem?_map, getElem?_map]
  cases here : g.rounds[round]? with
  | none => simp
  | some d =>
    have mem := mem_of_getElem? here
    simp only [Option.map_some, Option.some.injEq]
    rw [sendRank_eq_iff ha hb mem, recvRank_eq_iff hb ha mem]

end Grid

theorem p2pSchedule_grid (l : Layout) :
    ∃ g : Grid l.nRanks, ∀ rank < l.nRanks, p2pSchedule l rank = g.rounds.map (g.pairAt rank) := by
  have rounds : ∀ (N L : Nat) (f : Nat × Nat → SchedulePair),
      ((deltas N).flatMap fun d1 => (deltas L).map fun d2 => f (d1, d2)) =
        ((deltas N).product (deltas L)).map f := by
    intro N L f
    simp [List.product, map_flatMap, Function.comp_def]
  by_cases his : flat l = true
  · let g : Grid l.nRanks :=
      { nodes := 1
        locals := l.nRanks
        rankAt := fun _ j => j
        nodeOf := fun _ => 0
        localOf := id
        node_lt := fun _ _ => Nat.one_pos
        local_lt := fun _ hin => hin
        rankAt_of := fun _ _ => rfl
        of_rankAt := fun i hi j hj => ⟨hj, by omega, rfl⟩ }
    refine ⟨g, fun rank hin => ?_⟩
    rw [Grid.rounds, ← rounds]
    simp only [p2pSchedule, his]
    rfl
  · have same : ∀ node < l.nNodes, l.localRanks node = l.maxLocalRanks := by
      simpa [flat] using his
    let g : Grid l.nRanks :=
      { nodes := l.nNodes
        locals := l.maxLocalRanks
        rankAt := fun i j => (l.localRankToRank i).getD j 0
        nodeOf := l.rankToNode
        localOf := l.rankToLocalRank
        node_lt := l.onNode
        local_lt := by
          intro r hin
          have here := l.localRankToRank_rankToLocalRank hin
          obtain ⟨hb, -⟩ := List.getElem?_eq_some_iff.mp here
          exact lt_of_lt_of_le hb (l.localRanks_le (l.onNode r hin))
        rankAt_of := by
          intro r hin
          rw [getD_eq_getElem?_getD, l.localRankToRank_rankToLocalRank hin]
          rfl
        of_rankAt := by
          intro i hi j hj
          rw [← same i hi] at hj
          have here : (l.localRankToRank i)[j]? = some ((l.localRankToRank i).getD j 0) := by
            rw [getD_eq_getElem _ _ hj, List.getElem?_eq_getElem hj]
          exact ⟨(l.mem_localRankToRank.mp (mem_of_getElem? here)).1,
            l.rankToLocalRank_localRankToRank here⟩ }
    refine ⟨g, fun rank hin => ?_⟩
    rw [Grid.rounds, ← rounds]
    simp only [p2pSchedule, his]
    rfl

theorem round_unique (l : Layout) {a b round round' : Nat} (ha : a < l.nRanks) (hb : b < l.nRanks)
    (sends : ((p2pSchedule l a)[round]?).map SchedulePair.sendRank = some b)
    (receives : ((p2pSchedule l b)[round']?).map SchedulePair.recvRank = some a) : round = round' := by
  obtain ⟨g, same⟩ := p2pSchedule_grid l
  rw [same a ha] at sends
  rw [same b hb, ← Grid.send_iff_recv ha hb] at receives
  rw [← List.getElem?_map] at sends receives
  have distinct := (Grid.sendRanks_perm (g := g) ha).nodup_iff.mpr nodup_range
  obtain ⟨_, hat⟩ := List.getElem?_eq_some_iff.mp sends
  obtain ⟨_, ha'⟩ := List.getElem?_eq_some_iff.mp receives
  exact distinct.getElem_inj_iff.mp (hat.trans ha'.symm)

/-- Round by round, every rank sends to each rank once and receives from each rank once, and the two
ends of a transfer meet in the same round, hence on the same channels. -/
theorem p2pSchedule_meets (l : Layout) :
    (∀ a < l.nRanks, (p2pSchedule l a).length = l.nRanks ∧
      ((p2pSchedule l a).map SchedulePair.sendRank).Perm (List.range l.nRanks) ∧
      ((p2pSchedule l a).map SchedulePair.recvRank).Perm (List.range l.nRanks)) ∧
    (∀ a < l.nRanks, ∀ b < l.nRanks, ∀ round : Nat,
      ((p2pSchedule l a)[round]?).map SchedulePair.sendRank = some b ↔
        ((p2pSchedule l b)[round]?).map SchedulePair.recvRank = some a) ∧
    ∀ a < l.nRanks, ∀ b < l.nRanks, ∀ round round' : Nat,
      ((p2pSchedule l a)[round]?).map SchedulePair.sendRank = some b →
      ((p2pSchedule l b)[round']?).map SchedulePair.recvRank = some a →
        channelBaseForRound l round = channelBaseForRound l round' := by
  obtain ⟨g, same⟩ := p2pSchedule_grid l
  refine ⟨?_, ?_, ?_⟩
  · intro a ha
    rw [same a ha]
    have sends := Grid.sendRanks_perm (g := g) ha
    refine ⟨?_, sends, Grid.recvRanks_perm ha⟩
    simpa using sends.length_eq
  · intro a ha b hb round
    rw [same a ha, same b hb]
    exact Grid.send_iff_recv ha hb round
  · intro a ha b hb round round' sends hr
    rw [round_unique l ha hb sends hr]

example : (p2pSchedule (layoutOf [0, 0, 2, 2, 2]) 1).map SchedulePair.sendRank = [1, 2, 4, 3, 0] := by
  decide +kernel

end Vccl.P2p
