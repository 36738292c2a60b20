import Vccl.Bitops

/-! The double binary tree of `ncclGetDtree`. A rank other than 0 is an odd multiple of a power of two;
its parent is an odd multiple of the next power if that is a rank, and the rank without its lowest bit
if it is not. -/
namespace Vccl.Topo

open Option

/-- The parent and children of a rank in a tree, and which child of its parent the rank is. -/
structure Btree where
  up : Option Nat
  down0 : Option Nat
  down1 : Option Nat
  parentChildType : Nat
  deriving DecidableEq

def lowestBit (nranks rank : Nat) : Nat → Nat → Nat
  | 0, bit => bit
  | fuel + 1, bit =>
    if bit < nranks then
      if bit &&& rank ≠ 0 then bit else lowestBit nranks rank fuel (bit <<< 1)
    else bit

def boundDown1 (nranks rank : Nat) : Nat → Nat → Option Nat → Option Nat
  | 0, _, down1 => down1
  | _ + 1, _, none => none
  | fuel + 1, lowbit, some down1 =>
    if nranks ≤ down1 then
      boundDown1 nranks rank fuel (lowbit >>> 1) (if lowbit = 0 then none else some (rank + lowbit))
    else some down1

/-- `ncclGetBtree`. The child type of rank 0 stays unset, which is 0 here. -/
def getBtree (nranks rank : Nat) : Btree :=
  let bit := lowestBit nranks rank nranks 1
  if rank = 0 then ⟨none, none, if 1 < nranks then some (bit >>> 1) else none, 0⟩
  else
    let up := (rank ^^^ bit) ||| (bit <<< 1)
    let up := if nranks ≤ up then rank ^^^ bit else up
    let lowbit := bit >>> 1
    { up := some up
      down0 := if lowbit = 0 then none else some (rank - lowbit)
      down1 := boundDown1 nranks rank (lowbit + 2) lowbit (if lowbit = 0 then none else some (rank + lowbit))
      parentChildType := if rank < up then 0 else 1 }

def Btree.relabel (label : Nat → Nat) (tree : Btree) : Btree :=
  ⟨tree.up.map label, tree.down0.map label, tree.down1.map label, tree.parentChildType⟩

/-- The second tree of `ncclGetDtree`: shifted by one rank, or mirrored. -/
def getDtree1 (nranks rank : Nat) : Btree :=
  if nranks % 2 = 1 then
    (getBtree nranks ((rank + nranks - 1) % nranks)).relabel fun v => (v + 1) % nranks
  else (getBtree nranks (nranks - 1 - rank)).relabel fun v => nranks - 1 - v

variable {nranks k fuel : Nat} {j : Nat}

theorem lowestBit_odd {m : Nat} (inside : 2 ^ k * (2 * m + 1) < nranks) (below : j ≤ k) (enough : k < j + fuel) :
    lowestBit nranks (2 ^ k * (2 * m + 1)) fuel (2 ^ j) = 2 ^ k := by
  have pos := Nat.two_pow_pos k
  have bound : 2 ^ k < nranks := by nlinarith
  induction fuel generalizing j with
  | zero => omega
  | succ fuel ih =>
    have smaller := Nat.pow_le_pow_right (by omega : 0 < 2) below
    have bit : 2 ^ j &&& (2 ^ k * (2 * m + 1)) = if j = k then 2 ^ k else 0 := by
      rw [Nat.and_comm, Nat.and_two_pow, Nat.testBit_two_pow_mul]
      rcases Nat.lt_or_ge j k with less | _
      · simp [Nat.not_le.mpr less, Nat.ne_of_lt less]
      · obtain rfl : j = k := by omega
        simp
    rw [lowestBit, if_pos (by omega), bit]
    by_cases hf : j = k
    · subst hf
      rw [if_pos rfl, if_pos pos.ne']
    · rw [if_neg hf, Nat.shiftLeft_eq, ← pow_succ]
      exact ih (by omega) (by omega)

theorem lowestBit_zero (least : ∀ j < k, 2 ^ j < nranks) (outside : nranks ≤ 2 ^ k) (below : j ≤ k)
    (enough : k ≤ j + fuel) : lowestBit nranks 0 fuel (2 ^ j) = 2 ^ k := by
  induction fuel generalizing j with
  | zero =>
    obtain rfl : j = k := by omega
    rfl
  | succ fuel ih =>
    rw [lowestBit]
    by_cases last : j = k
    · subst last
      rw [if_neg (by omega)]
    · rw [if_pos (least j (by omega)), if_neg (by simp), Nat.shiftLeft_eq, ← pow_succ]
      exact ih (by omega) (by omega)

def down1Of (nranks rank : Nat) : Nat → Option Nat
  | 0 => none
  | j + 1 => if rank + 2 ^ j < nranks then some (rank + 2 ^ j) else down1Of nranks rank j

theorem boundDown1_outside {rank : Nat} (j : Nat) {d : Nat} (outside : nranks ≤ d) (enough : j < fuel) :
    boundDown1 nranks rank fuel (2 ^ j / 2) (some d) = down1Of nranks rank j := by
  induction j generalizing fuel d with
  | zero =>
    obtain ⟨fuel, rfl⟩ : ∃ n, fuel = n + 1 := ⟨fuel - 1, by omega⟩
    rw [boundDown1, if_pos outside]
    cases fuel <;> rfl
  | succ j ih =>
    obtain ⟨fuel, rfl⟩ : ∃ n, fuel = n + 1 := ⟨fuel - 1, by omega⟩
    have half : 2 ^ (j + 1) / 2 = 2 ^ j := by rw [pow_succ]; omega
    rw [boundDown1, if_pos outside, half, if_neg (Nat.two_pow_pos j).ne', down1Of]
    by_cases fits : rank + 2 ^ j < nranks
    · obtain ⟨fuel, rfl⟩ : ∃ n, fuel = n + 1 := ⟨fuel - 1, by omega⟩
      rw [if_pos fits, boundDown1, if_neg (by omega)]
    · rw [if_neg fits]
      exact ih (by omega) (by omega)

theorem boundDown1_eq (nranks rank k : Nat) :
    boundDown1 nranks rank (2 ^ k / 2 + 2) (2 ^ k / 2)
      (if 2 ^ k / 2 = 0 then none else some (rank + 2 ^ k / 2)) = down1Of nranks rank k := by
  cases k with
  | zero => rfl
  | succ k =>
    have half : 2 ^ (k + 1) / 2 = 2 ^ k := by rw [pow_succ]; omega
    rw [half, if_neg (Nat.two_pow_pos k).ne', boundDown1, down1Of]
    by_cases fits : rank + 2 ^ k < nranks
    · rw [if_neg (by omega), if_pos fits]
    · -- the first turn tries the same child again
      rw [if_pos (by omega), if_neg fits, if_neg (Nat.two_pow_pos k).ne']
      have small := Nat.lt_two_pow_self (n := k)
      exact boundDown1_outside k (by omega) (by omega)

theorem down1Of_eq_some {rank v : Nat} (j : Nat) : down1Of nranks rank j = some v ↔
    ∃ i < j, v = rank + 2 ^ i ∧ v < nranks ∧ ∀ i' < j, i < i' → nranks ≤ rank + 2 ^ i' := by
  induction j with
  | zero => simp [down1Of]
  | succ j ih =>
    rw [down1Of]
    split
    next fits =>
      constructor
      · intro hf
        cases hf
        exact ⟨j, by omega, rfl, fits, fun i' less more => by omega⟩
      rintro ⟨i, less, rfl, hi, most⟩
      rcases Nat.lt_or_ge i j with earlier | last
      · have := most j (by omega) earlier
        omega
      · obtain rfl : i = j := by omega
        rfl
    next ho =>
      rw [ih]
      constructor
      · rintro ⟨i, less, same, hi, most⟩
        refine ⟨i, by omega, same, hi, ?_⟩
        intro i' less' more
        rcases Nat.lt_or_ge i' j with earlier | last
        · exact most i' earlier more
        · obtain rfl : i' = j := by omega
          omega
      · rintro ⟨i, less, same, hi, most⟩
        have earlier : i ≠ j := by
          rintro rfl
          omega
        exact ⟨i, by omega, same, hi, fun i' less' => most i' (by omega)⟩

theorem exists_level {v : Nat} (pos : v ≠ 0) : ∃ k m, v = 2 ^ k * (2 * m + 1) := by
  obtain ⟨k, _, ⟨m, rfl⟩, same⟩ := Nat.exists_eq_two_pow_mul_odd pos
  exact ⟨k, m, same⟩

def parentOf (nranks k m : Nat) : Nat :=
  if nranks ≤ 2 ^ (k + 1) * (2 * (m / 2) + 1) then 2 ^ (k + 1) * m else 2 ^ (k + 1) * (2 * (m / 2) + 1)

theorem getBtree_level {m : Nat} (inside : 2 ^ k * (2 * m + 1) < nranks) :
    getBtree nranks (2 ^ k * (2 * m + 1)) =
      { up := some (parentOf nranks k m)
        down0 := if 2 ^ k / 2 = 0 then none else some (2 ^ k * (2 * m + 1) - 2 ^ k / 2)
        down1 := down1Of nranks (2 ^ k * (2 * m + 1)) k
        parentChildType := if 2 ^ k * (2 * m + 1) < parentOf nranks k m then 0 else 1 } := by
  have size : 2 ^ k < nranks := by nlinarith
  have small := Nat.lt_two_pow_self (n := k)
  have bit : lowestBit nranks (2 ^ k * (2 * m + 1)) nranks 1 = 2 ^ k :=
    lowestBit_odd (j := 0) inside (by omega) (by omega)
  have cleared : (2 ^ k * (2 * m + 1)) ^^^ 2 ^ k = 2 ^ (k + 1) * m := by
    have shifted : ((2 * m + 1) ^^^ 1) <<< k = (2 * m) <<< k := by
      rw [Nat.xor_one_of_odd (odd_two_mul_add_one m), Nat.add_sub_cancel]
    rw [Nat.shiftLeft_xor_distrib, Nat.shiftLeft_eq, Nat.shiftLeft_eq, Nat.shiftLeft_eq, Nat.one_mul] at shifted
    rw [Nat.mul_comm, shifted]
    ring
  have raised : (2 ^ (k + 1) * m) ||| (2 ^ k <<< 1) = 2 ^ (k + 1) * (2 * (m / 2) + 1) := by
    have shifted : (m ||| 1) <<< (k + 1) = (2 * (m / 2) + 1) <<< (k + 1) := by
      rw [lor_one, Nat.mul_comm]
    rw [Nat.shiftLeft_or_distrib, Nat.shiftLeft_eq, Nat.shiftLeft_eq, Nat.shiftLeft_eq, Nat.one_mul] at shifted
    rw [Nat.shiftLeft_eq, ← pow_succ, Nat.mul_comm, shifted, Nat.mul_comm]
  have nonzero : 2 ^ k * (2 * m + 1) ≠ 0 := by positivity
  simp only [getBtree, bit, if_neg nonzero, cleared, raised, Nat.shiftRight_one, boundDown1_eq]
  rfl

theorem getBtree_zero (below : 2 ^ k < nranks) (above : nranks ≤ 2 ^ (k + 1)) :
    lowestBit nranks 0 nranks 1 = 2 ^ (k + 1) ∧ getBtree nranks 0 = ⟨none, none, some (2 ^ k), 0⟩ := by
  have small := Nat.lt_two_pow_self (n := k)
  have bit : lowestBit nranks 0 nranks 1 = 2 ^ (k + 1) := by
    refine lowestBit_zero (j := 0) ?_ above (by omega) (by omega)
    intro j less
    exact lt_of_le_of_lt (Nat.pow_le_pow_right (by omega) (by omega)) below
  refine ⟨bit, ?_⟩
  have some' : 1 < nranks := lt_of_le_of_lt (Nat.two_pow_pos k) below
  have half : 2 ^ (k + 1) / 2 = 2 ^ k := by rw [pow_succ]; omega
  simp [getBtree, bit, if_pos some', Nat.shiftRight_one, half]

theorem exists_top (several : 1 < nranks) : ∃ k, 2 ^ k < nranks ∧ nranks ≤ 2 ^ (k + 1) := by
  refine ⟨Nat.log2 (nranks - 1), ?_, ?_⟩
  · have := Nat.log2_self_le (n := nranks - 1) (by omega)
    omega
  · have := Nat.lt_log2_self (n := nranks - 1)
    omega

def Btree.child (tree : Btree) (childType : Nat) : Option Nat := if childType = 0 then tree.down0 else tree.down1

@[simp] theorem Btree.child_zero (tree : Btree) : tree.child 0 = tree.down0 := rfl
@[simp] theorem Btree.child_one (tree : Btree) : tree.child 1 = tree.down1 := rfl

structure NodeTree (n : Nat) (tree : Nat → Btree) : Prop where
  up : ∀ v < n, ∀ u, (tree v).up = some u → u < n ∧ (tree u).child (tree v).parentChildType = some v
  down0 : ∀ u < n, ∀ v, (tree u).down0 = some v → v < n ∧ (tree v).up = some u ∧ (tree v).parentChildType = 0
  down1 : ∀ u < n, ∀ v, (tree u).down1 = some v → v < n ∧ (tree v).up = some u ∧ (tree v).parentChildType = 1
  root : ∃ root < n, ∀ v < n, (tree v).up = none ↔ v = root
  height : ∃ height : Nat → Nat, ∀ v < n, ∀ u, (tree v).up = some u → height u < height v

section

variable {n k m : Nat}

theorem parentOf_lt (inside : 2 ^ k * (2 * m + 1) < n) : parentOf n k m < n := by
  unfold parentOf
  split
  · have rank : 2 ^ k * (2 * m + 1) = 2 ^ (k + 1) * m + 2 ^ k := by rw [pow_succ]; ring
    have pos := Nat.two_pow_pos k
    omega
  · omega

theorem child_parentOf (inside : 2 ^ k * (2 * m + 1) < n) :
    (getBtree n (parentOf n k m)).child (getBtree n (2 ^ k * (2 * m + 1))).parentChildType =
      some (2 ^ k * (2 * m + 1)) := by
  have pos := Nat.two_pow_pos k
  have double : 2 ^ (k + 1) = 2 * 2 ^ k := by rw [pow_succ]; omega
  have half : 2 ^ (k + 1) / 2 = 2 ^ k := by omega
  have type : (getBtree n (2 ^ k * (2 * m + 1))).parentChildType =
      if 2 ^ k * (2 * m + 1) < parentOf n k m then 0 else 1 := by rw [getBtree_level inside]
  rw [type]
  by_cases ho : n ≤ 2 ^ (k + 1) * (2 * (m / 2) + 1)
  · have parent : parentOf n k m = 2 ^ (k + 1) * m := if_pos ho
    have rank : 2 ^ k * (2 * m + 1) = 2 ^ (k + 1) * m + 2 ^ k := by rw [double]; ring
    obtain ⟨q, rfl⟩ : ∃ q, m = 2 * q := by
      refine ⟨m / 2, ?_⟩
      by_contra odd
      have same : 2 * (m / 2) + 1 = m := by omega
      rw [same] at ho
      omega
    have next : n ≤ 2 ^ (k + 1) * (2 * q) + 2 ^ (k + 1) := by
      have same : 2 * q / 2 = q := by omega
      rw [same] at ho
      linarith [ho, mul_add (2 ^ (k + 1)) (2 * q) 1]
    rw [parent, rank, if_neg (by omega), Btree.child_one]
    rw [rank] at inside
    by_cases zero : q = 0
    · subst zero
      simp only [Nat.mul_zero, Nat.zero_add] at inside next ⊢
      rw [(getBtree_zero inside next).2]
    obtain ⟨j, q', rfl⟩ := exists_level zero
    have level : 2 ^ (k + 1) * (2 * (2 ^ j * (2 * q' + 1))) = 2 ^ (k + 1 + 1 + j) * (2 * q' + 1) := by
      ring
    rw [level] at inside next ⊢
    rw [getBtree_level (by omega), down1Of_eq_some]
    refine ⟨k, by omega, rfl, inside, ?_⟩
    intro i less more
    have grows : 2 ^ (k + 1) ≤ 2 ^ i := Nat.pow_le_pow_right (by omega) more
    omega
  · have parent : parentOf n k m = 2 ^ (k + 1) * (2 * (m / 2) + 1) := if_neg ho
    have level := getBtree_level (Nat.not_le.mp ho)
    rw [parent]
    rcases Nat.even_or_odd' m with ⟨q, rfl | rfl⟩
    · have same : 2 * q / 2 = q := by omega
      rw [same] at level ⊢
      have rank : 2 ^ (k + 1) * (2 * q + 1) = 2 ^ k * (2 * (2 * q) + 1) + 2 ^ k := by rw [double]; ring
      rw [if_pos (by omega), level]
      simp [half, rank]
    · have same : (2 * q + 1) / 2 = q := by omega
      rw [same] at level ⊢
      have rank : 2 ^ k * (2 * (2 * q + 1) + 1) = 2 ^ (k + 1) * (2 * q + 1) + 2 ^ k := by rw [double]; ring
      rw [if_neg (by omega), Btree.child_one, level, down1Of_eq_some]
      exact ⟨k, by omega, rank, inside, fun i' less more => by omega⟩

theorem parent_of_down0 (inside : 2 ^ (k + 1) * (2 * m + 1) < n) :
    (getBtree n (2 ^ (k + 1) * (2 * m + 1) - 2 ^ k)).up = some (2 ^ (k + 1) * (2 * m + 1)) ∧
      (getBtree n (2 ^ (k + 1) * (2 * m + 1) - 2 ^ k)).parentChildType = 0 := by
  have pos := Nat.two_pow_pos k
  have rank : 2 ^ (k + 1) * (2 * m + 1) - 2 ^ k = 2 ^ k * (2 * (2 * m) + 1) := by
    have : 2 ^ (k + 1) * (2 * m + 1) = 2 ^ k * (2 * (2 * m) + 1) + 2 ^ k := by rw [pow_succ]; ring
    omega
  have below : 2 ^ (k + 1) * (2 * m + 1) - 2 ^ k < 2 ^ (k + 1) * (2 * m + 1) := by
    have : 0 < 2 ^ (k + 1) * (2 * m + 1) := by positivity
    omega
  have half : 2 * m / 2 = m := by omega
  have parent : parentOf n k (2 * m) = 2 ^ (k + 1) * (2 * m + 1) := by
    rw [parentOf, half, if_neg (by omega)]
  rw [rank] at below ⊢
  rw [getBtree_level (by omega), parent]
  exact ⟨rfl, if_pos below⟩

theorem parent_of_down1 {i : Nat} (less : i < k) (inside : 2 ^ k * (2 * m + 1) + 2 ^ i < n)
    (most : ∀ i' < k, i < i' → n ≤ 2 ^ k * (2 * m + 1) + 2 ^ i') :
    (getBtree n (2 ^ k * (2 * m + 1) + 2 ^ i)).up = some (2 ^ k * (2 * m + 1)) ∧
      (getBtree n (2 ^ k * (2 * m + 1) + 2 ^ i)).parentChildType = 1 := by
  obtain ⟨d, rfl⟩ := Nat.exists_eq_add_of_lt less
  have double : 2 ^ (i + d + 1) = 2 ^ (i + 1) * 2 ^ d := by rw [← pow_add]; congr 1; omega
  have twice : 2 ^ (i + 1) = 2 * 2 ^ i := by rw [pow_succ]; omega
  have rank : 2 ^ (i + d + 1) * (2 * m + 1) + 2 ^ i = 2 ^ i * (2 * (2 ^ d * (2 * m + 1)) + 1) := by
    ring
  have parent : parentOf n i (2 ^ d * (2 * m + 1)) = 2 ^ (i + d + 1) * (2 * m + 1) := by
    unfold parentOf
    cases d with
    | zero =>
      have same : 2 * (2 ^ 0 * (2 * m + 1) / 2) + 1 = 2 * m + 1 := by omega
      rw [same, if_neg (by simp at inside ⊢; omega)]
    | succ d =>
      have same : 2 * (2 ^ (d + 1) * (2 * m + 1) / 2) = 2 ^ (d + 1) * (2 * m + 1) := by
        have : 2 ^ (d + 1) * (2 * m + 1) = 2 * (2 ^ d * (2 * m + 1)) := by rw [pow_succ]; ring
        omega
      have outside := most (i + 1) (by omega) (by omega)
      have value : 2 ^ (i + 1) * (2 ^ (d + 1) * (2 * m + 1) + 1) =
          2 ^ (i + (d + 1) + 1) * (2 * m + 1) + 2 ^ (i + 1) := by
        ring
      rw [same, value, if_pos outside]
      ring
  rw [rank] at inside ⊢
  rw [getBtree_level inside, parent]
  exact ⟨rfl, if_neg (by omega)⟩

end

theorem lowestBit_parentOf {n k m : Nat} (inside : 2 ^ k * (2 * m + 1) < n) :
    n - lowestBit n (parentOf n k m) n 1 < n - lowestBit n (2 ^ k * (2 * m + 1)) n 1 := by
  have bitOf : ∀ {k m : Nat}, 2 ^ k * (2 * m + 1) < n → lowestBit n (2 ^ k * (2 * m + 1)) n 1 = 2 ^ k ∧ 2 ^ k < n := by
    intro k m inside
    have size : 2 ^ k < n := by nlinarith [Nat.two_pow_pos k]
    have small := Nat.lt_two_pow_self (n := k)
    exact ⟨lowestBit_odd (j := 0) inside (by omega) (by omega), size⟩
  have parentInside := parentOf_lt inside
  rw [(bitOf inside).1]
  have size := (bitOf inside).2
  by_cases zero : parentOf n k m = 0
  · obtain ⟨j, hb, ha⟩ := exists_top (lt_of_le_of_lt (Nat.two_pow_pos k) size)
    rw [zero, (getBtree_zero hb ha).1]
    omega
  have higher : ∃ j q, parentOf n k m = 2 ^ (k + 1 + j) * (2 * q + 1) := by
    unfold parentOf at zero ⊢
    split
    next ho =>
      rw [if_pos ho] at zero
      obtain ⟨j, q, rfl⟩ := exists_level (right_ne_zero_of_mul zero)
      exact ⟨j, q, by rw [pow_add]; ring⟩
    · exact ⟨0, m / 2, by simp⟩
  obtain ⟨j, q, same⟩ := higher
  rw [same] at parentInside ⊢
  rw [(bitOf parentInside).1]
  have grows : 2 ^ k < 2 ^ (k + 1 + j) := Nat.pow_lt_pow_right (by omega) (by omega)
  omega

theorem getBtree_nodeTree {n : Nat} (some' : 0 < n) : NodeTree n (getBtree n) where
  up v inside u parent := by
    by_cases zero : v = 0
    · subst zero
      simp [getBtree] at parent
    obtain ⟨k, m, rfl⟩ := exists_level zero
    have same : u = parentOf n k m := by
      rw [getBtree_level inside] at parent
      exact (some.inj parent).symm
    rw [same]
    exact ⟨parentOf_lt inside, child_parentOf inside⟩
  down0 u inside v child := by
    by_cases zero : u = 0
    · subst zero
      simp [getBtree] at child
    obtain ⟨k, m, rfl⟩ := exists_level zero
    rw [getBtree_level inside] at child
    cases k with
    | zero => simp at child
    | succ k =>
      have half : 2 ^ (k + 1) / 2 = 2 ^ k := by rw [pow_succ]; omega
      simp only [half, if_neg (Nat.two_pow_pos k).ne', some.injEq] at child
      subst child
      exact ⟨lt_of_le_of_lt (Nat.sub_le _ _) inside, parent_of_down0 inside⟩
  down1 u inside v child := by
    by_cases zero : u = 0
    · subst zero
      by_cases hs : 1 < n
      · obtain ⟨k, hb, ha⟩ := exists_top hs
        rw [(getBtree_zero hb ha).2] at child
        cases child
        have level : 2 ^ k = 2 ^ k * (2 * 0 + 1) := by simp
        have parent : parentOf n k 0 = 0 := by
          rw [parentOf, if_pos (by simpa using ha), Nat.mul_zero]
        refine ⟨hb, ?_⟩
        rw [level] at hb ⊢
        rw [getBtree_level hb, parent]
        constructor
        · rfl
        · simp
      · simp [getBtree, hs] at child
    · obtain ⟨k, m, rfl⟩ := exists_level zero
      rw [getBtree_level inside, down1Of_eq_some] at child
      obtain ⟨i, less, rfl, hi', most⟩ := child
      exact ⟨hi', parent_of_down1 less hi' most⟩
  root := by
    refine ⟨0, some', ?_⟩
    intro v inside
    by_cases zero : v = 0
    · simp [zero, getBtree]
    · simp [getBtree, zero]
  height := by
    refine ⟨fun v => n - lowestBit n v n 1, ?_⟩
    intro v inside u parent
    by_cases zero : v = 0
    · subst zero
      simp [getBtree] at parent
    · obtain ⟨k, m, rfl⟩ := exists_level zero
      rw [getBtree_level inside] at parent
      cases parent
      exact lowestBit_parentOf inside

section

variable {n : Nat} {tree : Nat → Btree} {label source : Nat → Nat}

theorem NodeTree.relabel (h : NodeTree n tree) (label_lt : ∀ v < n, label v < n)
    (source_lt : ∀ v < n, source v < n) (source_label : ∀ v < n, source (label v) = v)
    (label_source : ∀ v < n, label (source v) = v) :
    NodeTree n fun v => (tree (source v)).relabel label where
  up v inside u parent := by
    obtain ⟨u', hp', rfl⟩ := map_eq_some_iff.mp parent
    obtain ⟨inside', child⟩ := h.up _ (source_lt v inside) u' hp'
    refine ⟨label_lt u' inside', ?_⟩
    have relabelled : ∀ t, ((tree u').relabel label).child t = ((tree u').child t).map label := by
      intro t
      simp only [Btree.child]
      split <;> rfl
    simp only [source_label u' inside', relabelled]
    rw [show ((tree (source v)).relabel label).parentChildType = (tree (source v)).parentChildType from rfl,
      child, map_some, label_source v inside]
  down0 u inside v child := by
    obtain ⟨v', hc', rfl⟩ := map_eq_some_iff.mp child
    obtain ⟨inside', parent, type⟩ := h.down0 _ (source_lt u inside) v' hc'
    refine ⟨label_lt v' inside', ?_, ?_⟩
    · simp [source_label v' inside', Btree.relabel, parent, label_source u inside]
    · simp [source_label v' inside', Btree.relabel, type]
  down1 u inside v child := by
    obtain ⟨v', hc', rfl⟩ := map_eq_some_iff.mp child
    obtain ⟨inside', parent, type⟩ := h.down1 _ (source_lt u inside) v' hc'
    refine ⟨label_lt v' inside', ?_, ?_⟩
    · simp [source_label v' inside', Btree.relabel, parent, label_source u inside]
    · simp [source_label v' inside', Btree.relabel, type]
  root := by
    obtain ⟨root, inside, unique⟩ := h.root
    refine ⟨label root, label_lt root inside, ?_⟩
    intro v inside'
    simp only [Btree.relabel, map_eq_none_iff, unique _ (source_lt v inside')]
    constructor
    · intro same
      rw [← same, label_source v inside']
    · rintro rfl
      exact source_label root inside
  height := by
    obtain ⟨height, falls⟩ := h.height
    refine ⟨fun v => height (source v), ?_⟩
    intro v inside u parent
    obtain ⟨u', hp', rfl⟩ := map_eq_some_iff.mp parent
    have lower := falls _ (source_lt v inside) u' hp'
    have inside' := (h.up _ (source_lt v inside) u' hp').1
    simpa only [source_label u' inside'] using lower

theorem getDtree1_nodeTree (some' : 0 < n) : NodeTree n (getDtree1 n) := by
  unfold getDtree1
  by_cases odd : n % 2 = 1
  · simp only [if_pos odd]
    refine (getBtree_nodeTree some').relabel ?_ ?_ ?_ ?_
    · exact fun v hi => Nat.mod_lt _ some'
    · exact fun v hi => Nat.mod_lt _ some'
    · intro v hi
      rcases Nat.lt_or_ge (v + 1) n with less | _
      · rw [Nat.mod_eq_of_lt less, show v + 1 + n - 1 = v + n by omega, Nat.add_mod_right,
          Nat.mod_eq_of_lt hi]
      · rw [show v + 1 = n by omega, Nat.mod_self, Nat.mod_eq_of_lt (by omega)]
        omega
    · intro v hi
      cases v with
      | zero =>
        rw [Nat.mod_eq_of_lt (by omega : 0 + n - 1 < n), show 0 + n - 1 + 1 = n by omega, Nat.mod_self]
      | succ v =>
        rw [show v + 1 + n - 1 = v + n by omega, Nat.add_mod_right, Nat.mod_eq_of_lt (by omega : v < n),
          Nat.mod_eq_of_lt hi]
  · simp only [if_neg odd]
    refine (getBtree_nodeTree some').relabel ?_ ?_ ?_ ?_ <;> intro v hi <;> omega

def Btree.leaf (tree : Btree) : Prop := tree.down0 = none ∧ tree.down1 = none

theorem getBtree_leaf {rank : Nat} (several : 1 < n) (below : rank < n) : (getBtree n rank).leaf ↔ rank % 2 = 1 := by
  by_cases first : rank = 0
  · obtain ⟨k, less, least⟩ := exists_top several
    simp [first, (getBtree_zero less least).2, Btree.leaf]
  · obtain ⟨k, m, rfl⟩ := exists_level first
    rw [getBtree_level below]
    cases k with
    | zero => simp [Btree.leaf, down1Of]
    | succ k => simp [Btree.leaf, pow_succ, Nat.mul_mod]

/-- A rank is a leaf of exactly one tree, and rank 0 of an odd number of ranks of none. -/
theorem double_tree (several : 1 < n) : NodeTree n (getBtree n) ∧ NodeTree n (getDtree1 n) ∧
    ∀ rank < n, ((getBtree n rank).leaf ↔ rank % 2 = 1) ∧
      ((getDtree1 n rank).leaf ↔ rank % 2 = 0 ∧ (n % 2 = 1 → rank ≠ 0)) := by
  refine ⟨getBtree_nodeTree (by omega), getDtree1_nodeTree (by omega), ?_⟩
  intro rank below
  refine ⟨getBtree_leaf several below, ?_⟩
  have relabel (tree : Btree) label : (tree.relabel label).leaf ↔ tree.leaf := by
    simp [Btree.leaf, Btree.relabel]
  unfold getDtree1
  split
  next odd =>
    rw [relabel, getBtree_leaf several (Nat.mod_lt _ (by omega))]
    cases rank with
    | zero =>
      rw [Nat.mod_eq_of_lt (by omega : 0 + n - 1 < n)]
      omega
    | succ r =>
      rw [show r + 1 + n - 1 = r + n by omega, Nat.add_mod_right, Nat.mod_eq_of_lt (by omega : r < n)]
      omega
  next even =>
    rw [relabel, getBtree_leaf several (by omega)]
    omega

theorem double_tree_three : (getDtree1 3 2).leaf :=
  ((double_tree (by decide)).2.2 2 (by decide)).2.mpr (by decide)

end

end Vccl.Topo
