import Mathlib

/-! Which ranks make up a node: the loops of `initTransportsRank` after the third all-gather. -/
namespace Vccl.Topo

open List

/-- `nodesFirstRank` and `rankToNode` as far as the loop has filled them. -/
structure Nodes where
  firstRank : List Nat
  rankToNode : List Nat
  deriving DecidableEq

/-- Ranks of one node have the same first rank, the start of their ring on channel 0. -/
def Nodes.add (nodes : Nodes) (first : Nat) : Nodes :=
  let node := nodes.firstRank.idxOf first
  ⟨if node = nodes.firstRank.length then nodes.firstRank ++ [first] else nodes.firstRank,
    nodes.rankToNode ++ [node]⟩

def findNodes (firstRanks : List Nat) : Nodes := firstRanks.foldl Nodes.add ⟨[], []⟩

structure Layout where
  nRanks : Nat
  nNodes : Nat
  rankToNode : Nat → Nat
  onNode : ∀ r < nRanks, rankToNode r < nNodes

structure Nodes.Finds (nodes : Nodes) (seen : List Nat) : Prop where
  distinct : nodes.firstRank.Nodup
  reported : ∀ first ∈ nodes.firstRank, first ∈ seen
  located : ∀ (r first : Nat), seen[r]? = some first → nodes.firstRank[nodes.rankToNode.getD r 0]? = some first
  length : nodes.rankToNode.length = seen.length

theorem Nodes.Finds.add {nodes : Nodes} {seen : List Nat} (finds : nodes.Finds seen) (first : Nat) :
    (nodes.add first).Finds (seen ++ [first]) := by
  have stays : ∀ (node first' : Nat), nodes.firstRank[node]? = some first' →
      (nodes.add first).firstRank[node]? = some first' := by
    intro node first' here
    simp only [Nodes.add]
    split
    · rw [List.getElem?_append_left (List.getElem?_eq_some_iff.mp here).1]
      exact here
    · exact here
  have found : (nodes.add first).firstRank[nodes.firstRank.idxOf first]? = some first := by
    simp only [Nodes.add]
    split
    next new =>
      rw [new, List.getElem?_concat_length]
    next old =>
      exact List.getElem?_idxOf (idxOf_lt_length_iff.mp (lt_of_le_of_ne idxOf_le_length old))
  refine ⟨?_, ?_, ?_, ?_⟩
  · simp only [Nodes.add]
    split
    next new =>
      have absent : first ∉ nodes.firstRank := fun mem =>
        absurd new (Nat.ne_of_lt (idxOf_lt_length_iff.mpr mem))
      exact List.Nodup.append finds.distinct (nodup_singleton first) (by simpa using absent)
    · exact finds.distinct
  · intro first' mem
    have either : first' ∈ nodes.firstRank ∨ first' = first := by
      simp only [Nodes.add] at mem
      split at mem
      · simpa using mem
      · exact .inl mem
    rcases either with old | rfl
    · exact mem_append_left _ (finds.reported first' old)
    · simp
  · intro r first' here
    rcases Nat.lt_trichotomy r seen.length with old | rfl | _
    · rw [List.getElem?_append_left old] at here
      have same : (nodes.add first).rankToNode.getD r 0 = nodes.rankToNode.getD r 0 :=
        getD_append _ _ _ _ (finds.length ▸ old)
      rw [same]
      exact stays _ _ (finds.located r first' here)
    · rw [List.getElem?_concat_length] at here
      cases here
      have last : (nodes.add first).rankToNode.getD seen.length 0 = nodes.firstRank.idxOf first := by
        simp [Nodes.add, ← finds.length]
      rw [last]
      exact found
    · rw [List.getElem?_eq_none (by simp; omega)] at here
      cases here
  · simp [Nodes.add, finds.length]

theorem findNodes_finds (firstRanks : List Nat) : (findNodes firstRanks).Finds firstRanks := by
  have all : ∀ (rest seen : List Nat) (nodes : Nodes), nodes.Finds seen →
      (rest.foldl Nodes.add nodes).Finds (seen ++ rest) := by
    intro rest
    induction rest with
    | nil => exact fun seen nodes hf => by simpa using hf
    | cons first rest ih =>
      intro seen nodes hf
      have later := ih _ _ (hf.add first)
      rwa [append_assoc] at later
  exact all firstRanks [] ⟨[], []⟩ ⟨nodup_nil, by simp, by simp, rfl⟩

def layoutOf (firstRanks : List Nat) : Layout where
  nRanks := firstRanks.length
  nNodes := (findNodes firstRanks).firstRank.length
  rankToNode := fun r => (findNodes firstRanks).rankToNode.getD r 0
  onNode := by
    intro r inside
    have located := (findNodes_finds firstRanks).located r _ (List.getElem?_eq_getElem inside)
    exact (List.getElem?_eq_some_iff.mp located).1

namespace Layout

variable (l : Layout)

def fill : Nat → Nat → List Nat
  | 0 => fun _ => []
  | r + 1 => Function.update (fill r) (l.rankToNode r) (fill r (l.rankToNode r) ++ [r])

def localRankToRank (node : Nat) : List Nat := l.fill l.nRanks node

def localRanks (node : Nat) : Nat := (l.localRankToRank node).length

def rankToLocalRank (r : Nat) : Nat := (l.fill r (l.rankToNode r)).length

def maxLocalRanks : Nat := (range l.nNodes).foldl (fun most node => max most (l.localRanks node)) 0

theorem fill_eq (r node : Nat) :
    l.fill r node = (range r).filter fun r => decide (l.rankToNode r = node) := by
  induction r with
  | zero => rfl
  | succ r ih =>
    rw [fill, range_succ]
    by_cases here : node = l.rankToNode r
    · subst here
      simp [ih]
    · have other : l.rankToNode r ≠ node := fun same => here same.symm
      simp [here, other, ih]

theorem mem_localRankToRank {r node : Nat} :
    r ∈ l.localRankToRank node ↔ r < l.nRanks ∧ l.rankToNode r = node := by
  rw [localRankToRank, fill_eq]
  simp

theorem localRankToRank_rankToLocalRank {r : Nat} (inside : r < l.nRanks) :
    (l.localRankToRank (l.rankToNode r))[l.rankToLocalRank r]? = some r := by
  rw [localRankToRank, rankToLocalRank, fill_eq, fill_eq]
  obtain ⟨d, more⟩ := Nat.exists_eq_add_of_le (Nat.succ_le_of_lt inside)
  rw [more, range_add, range_succ]
  simp

theorem nodup_localRankToRank (node : Nat) : (l.localRankToRank node).Nodup := by
  rw [localRankToRank, fill_eq]
  exact nodup_range.filter _

theorem rankToLocalRank_localRankToRank {node j : Nat} {r : Nat}
    (here : (l.localRankToRank node)[j]? = some r) : l.rankToNode r = node ∧ l.rankToLocalRank r = j := by
  obtain ⟨hi, ho⟩ := l.mem_localRankToRank.mp (mem_of_getElem? here)
  refine ⟨ho, ?_⟩
  have again := l.localRankToRank_rankToLocalRank hi
  rw [ho] at again
  obtain ⟨_, at_first⟩ := List.getElem?_eq_some_iff.mp here
  obtain ⟨_, at_second⟩ := List.getElem?_eq_some_iff.mp again
  exact (l.nodup_localRankToRank node).getElem_inj_iff.mp (at_second.trans at_first.symm)

theorem localRanks_le {node : Nat} (inside : node < l.nNodes) : l.localRanks node ≤ l.maxLocalRanks := by
  have all : ∀ (nodes : List Nat) (most : Nat),
      most ≤ nodes.foldl (fun most node => max most (l.localRanks node)) most ∧
        ∀ node ∈ nodes, l.localRanks node ≤
          nodes.foldl (fun most node => max most (l.localRanks node)) most := by
    intro nodes
    induction nodes with
    | nil => simp
    | cons first rest ih =>
      intro most
      obtain ⟨start, each⟩ := ih (max most (l.localRanks first))
      refine ⟨le_trans (le_max_left _ _) start, ?_⟩
      exact forall_mem_cons.mpr ⟨le_trans (le_max_right _ _) start, each⟩
  exact (all _ 0).2 node (mem_range.mpr inside)

end Layout

end Vccl.Topo
