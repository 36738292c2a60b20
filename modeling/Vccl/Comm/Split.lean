import Mathlib

/-! The ranks of a new communicator: commGetSplitInfo sorts the parent's ranks of one color by insertion into an array.
Every rank does it on its own, over the table that the all-gather of the ranks' choices has filled. -/
namespace Vccl.Comm.Split

open List Function

/-- commSplitInfo -/
structure SplitInfo where
  key : Int
  color : Int

def noColor : Int := -1

structure Ranks where
  nRanks : Nat
  myRank : Nat
  parentRanks : Nat → Int

variable (info : Nat → SplitInfo)

/-- The loop that finds where to insert the rank. -/
def findInsert (ranks : Nat → Int) (nRanks : Nat) (key : Int) (insert : Nat) : Nat :=
  if insert < nRanks ∧ (info (ranks insert).toNat).key ≤ key then findInsert ranks nRanks key (insert + 1) else insert
termination_by nRanks - insert

def shift (insert : Nat) : Nat → (Nat → Int) → Nat → Int
  | 0, ranks => ranks
  | r + 1, ranks => if insert < r + 1 then shift insert r (update ranks (r + 1) (ranks r)) else ranks

def addRank (color : Int) (s : Nat × (Nat → Int)) (i : Nat) : Nat × (Nat → Int) :=
  if (info i).color ≠ color then s
  else
    let insert := findInsert info s.2 s.1 (info i).key 0
    (s.1 + 1, update (shift insert s.1 s.2) insert i)

def findRank (ranks : Nat → Int) (rank nRanks : Nat) : Nat :=
  (range nRanks).foldl (fun myRank i => if ranks i = rank then i else myRank) 0

/-- Row i of the table holds the color and the key that rank i asked for. -/
def commGetSplitInfo (parentNRanks rank : Nat) : Option Ranks :=
  let color := (info rank).color
  -- the rank gets no communicator, and nothing is returned
  if color = noColor then none
  else
    let (nRanks, ranks) := (range parentNRanks).foldl (addRank info color) (0, fun _ => -1)
    some ⟨nRanks, findRank ranks rank nRanks, ranks⟩

/-- The array that holds a list of ranks, as memset has left it behind them. -/
def array (l : List Nat) (k : Nat) : Int := (l[k]?.map Nat.cast).getD (-1)

abbrev KeyLt (a b : Nat) : Prop := (info a).key < (info b).key

def Before (a b : Nat) : Prop := KeyLt info a b ∨ (info a).key = (info b).key ∧ a < b

theorem array_eq_cast {l : List Nat} {k rank : Nat} : array l k = rank ↔ l[k]? = some rank := by
  unfold array
  cases l[k]? <;> grind

theorem findInsert_append (i : Nat) (l₁ l₂ : List Nat) :
    findInsert info (array (l₁ ++ l₂)) (l₁ ++ l₂).length (info i).key l₁.length =
      l₁.length + (l₂.takeWhile fun a => ¬ KeyLt info i a).length := by
  induction l₂ generalizing l₁ with
  | nil =>
    rw [findInsert]
    simp
  | cons a l₂ ih =>
    have ha : array (l₁ ++ a :: l₂) l₁.length = a := array_eq_cast.mpr (by simp)
    rw [findInsert, ha, Int.toNat_natCast, takeWhile_cons]
    by_cases le : (info a).key ≤ (info i).key
    · rw [if_pos ⟨by simp, le⟩, if_pos (by simpa using le)]
      have rest := ih (l₁ ++ [a])
      rw [append_assoc, singleton_append, show (l₁ ++ [a]).length = l₁.length + 1 by simp] at rest
      rw [length_cons, rest]
      omega
    · rw [if_neg (le ·.2), if_neg (by simpa using le)]
      rfl

theorem shift_apply (insert r : Nat) (ranks : Nat → Int) (k : Nat) :
    shift insert r ranks k = if insert < k ∧ k ≤ r then ranks (k - 1) else ranks k := by
  fun_induction shift insert r ranks <;> grind

theorem update_shift (l₁ l₂ : List Nat) (i : Nat) :
    update (shift l₁.length (l₁ ++ l₂).length (array (l₁ ++ l₂))) l₁.length i = array (l₁ ++ i :: l₂) := by
  funext k
  rw [update_apply, shift_apply]
  unfold array
  grind

theorem pairwise_insert {l : List Nat} {i : Nat} (sorted : l.Pairwise (Before info)) (below : ∀ a ∈ l, a < i) :
    (l.orderedInsert (KeyLt info) i).Pairwise (Before info) := by
  induction sorted with
  | nil => simp
  | @cons a l first rest ih =>
    rw [orderedInsert_cons]
    split
    next less =>
      simp only [pairwise_cons, mem_cons]
      grind [Before]
    next le =>
      have ha : Before info a i := by grind [Before]
      simp only [pairwise_cons, mem_orderedInsert]
      grind

theorem addRank_eq (color : Int) (l : List Nat) (i : Nat) :
    addRank info color (l.length, array l) i =
      if (info i).color ≠ color then (l.length, array l)
      else ((l.orderedInsert (KeyLt info) i).length, array (l.orderedInsert (KeyLt info) i)) := by
  have found := findInsert_append info i [] l
  have whole := takeWhile_append_dropWhile (p := fun a => decide ¬ KeyLt info i a) (l := l)
  rw [nil_append, length_nil, Nat.zero_add] at found
  simp only [addRank, found, orderedInsert_eq_take_drop]
  generalize l.takeWhile _ = before, l.dropWhile _ = behind at whole ⊢
  subst whole
  rw [update_shift]
  simp only [length_append, length_cons, Nat.add_assoc]

theorem ranks_sorted (color : Int) (n : Nat) :
    ∃ l : List Nat, l.Pairwise (Before info) ∧ (∀ r, r ∈ l ↔ r < n ∧ (info r).color = color) ∧
      (range n).foldl (addRank info color) (0, fun _ => -1) = (l.length, array l) := by
  induction n with
  | zero => exact ⟨[], by simp [array, funext_iff]⟩
  | succ n ih =>
    obtain ⟨l, sorted, mem, h⟩ := ih
    rw [range_succ, foldl_append, h, foldl_cons, foldl_nil, addRank_eq]
    split
    next other => exact ⟨l, sorted, by grind, rfl⟩
    next same =>
      refine ⟨_, pairwise_insert info sorted fun a h => ((mem a).mp h).1, fun r => ?_, rfl⟩
      rw [mem_orderedInsert]
      grind

theorem array_findRank {l : List Nat} {rank k n : Nat} (small : k < n) (h : array l k = rank) :
    array l (findRank (array l) rank n) = rank := by
  unfold findRank
  induction n with
  | zero => omega
  | succ n ih =>
    rw [range_succ, foldl_append, foldl_cons, foldl_nil]
    split
    next last => exact last
    next other => exact ih (by grind)

/-- Each rank of a color gets the ranks of that color in the order of key and parent rank, and its own place there. -/
theorem commGetSplitInfo_sorted (nRanks : Nat) (color : Int) :
    ∃ l : List Nat, l.Pairwise (Before info) ∧ (∀ r, r ∈ l ↔ r < nRanks ∧ (info r).color = color) ∧
      ∀ rank ∈ l, commGetSplitInfo info nRanks rank =
        if color = noColor then none else some ⟨l.length, l.idxOf rank, array l⟩ := by
  obtain ⟨l, sorted, mem, h⟩ := ranks_sorted info color nRanks
  refine ⟨l, sorted, mem, fun rank hr => ?_⟩
  have nodup : l.Nodup := sorted.imp fun {a b} h same => by
    subst same
    exact absurd h (by simp [Before])
  have position : findRank (array l) rank l.length = l.idxOf rank := by
    have found := array_eq_cast.mp (array_findRank (idxOf_lt_length_of_mem hr)
      (array_eq_cast.mpr (getElem?_idxOf hr)))
    obtain ⟨bound, h⟩ := List.getElem?_eq_some_iff.mp found
    rw [← nodup.idxOf_getElem _ bound, h]
  simp only [commGetSplitInfo, ((mem rank).mp hr).2, h, position]

end Vccl.Comm.Split
