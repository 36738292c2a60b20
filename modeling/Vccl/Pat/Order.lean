import Vccl.Pat.Setup

/-! The order in which the all-gather algorithm takes its aggregated steps. Each bit of the step number
is a counter of its own; together the counters go down the binary tree of the numbers below `2 ^ asDim`,
a node before the two halves under it. -/
namespace Vccl.Pat

open List
open Function (update)

structure Bits where
  v : Nat
  bitCount : Nat → Nat
  bitZeroStep : Nat → Nat

def nextBit (asDim : Nat) (b : Bits) (d : Nat) : Bits :=
  let p := 1 <<< d
  let n := b.bitCount d - 1
  if n = 0 then
    let v := b.v ^^^ p
    if v &&& p = 0 then
      let n := p + firstBitSet (b.bitZeroStep d) asDim - 1
      if n = 0 then
        ⟨v ^^^ p, update b.bitCount d p,
          update b.bitZeroStep d (b.bitZeroStep d + 1)⟩
      else
        ⟨v, update b.bitCount d n, update b.bitZeroStep d (b.bitZeroStep d + 1)⟩
    else ⟨v, update b.bitCount d p, b.bitZeroStep⟩
  else { b with bitCount := update b.bitCount d n }

def nextAs (asDim : Nat) (b : Bits) : Bits := (range asDim).foldl (nextBit asDim) b

def resetBits (asDim : Nat) : Bits := ⟨0, fun i => asDim - i, fun _ => 1⟩

def asOrder : Nat → List Nat
  | 0 => []
  | d + 1 => 2 ^ d :: ((asOrder d).map (2 ^ d + ·) ++ asOrder d)

def Returns (asDim : Nat) : Bits → List Nat → Prop
  | _, [] => True
  | b, x :: rest => (nextAs asDim b).v = x ∧ Returns asDim (nextAs asDim b) rest

section OneBit

structure Bit where
  on : Bool
  left : Nat
  zeroStep : Nat

variable (asDim d : Nat)

def Bit.next (b : Bit) : Bit :=
  if b.left - 1 = 0 then
    if b.on then
      if 2 ^ d + firstBitSet b.zeroStep asDim - 1 = 0 then ⟨true, 2 ^ d, b.zeroStep + 1⟩
      else ⟨false, 2 ^ d + firstBitSet b.zeroStep asDim - 1, b.zeroStep + 1⟩
    else ⟨true, 2 ^ d, b.zeroStep⟩
  else { b with left := b.left - 1 }

def Bits.bit (b : Bits) : Bit := ⟨b.v.testBit d, b.bitCount d, b.bitZeroStep d⟩

theorem and_two_pow_eq_zero (v : Nat) : v &&& 2 ^ d = 0 ↔ v.testBit d = false := by
  rw [Nat.and_two_pow]
  cases v.testBit d <;> simp

theorem nextBit_bit_self (b : Bits) :
    (nextBit asDim b d).bit d = (b.bit d).next asDim d := by
  simp only [nextBit, Nat.one_shiftLeft, and_two_pow_eq_zero, Bit.next, Bits.bit]
  by_cases hr : b.bitCount d - 1 = 0
  · by_cases on : b.v.testBit d = true
    · by_cases hn : 2 ^ d + firstBitSet (b.bitZeroStep d) asDim - 1 = 0
      all_goals simp [hr, on, hn]
    · simp [hr, on]
  · simp [hr]

theorem nextBit_bit_of_ne (b : Bits) {d' : Nat} (apart : d' ≠ d) :
    (nextBit asDim b d).bit d' = b.bit d' := by
  have kept : (2 ^ d).testBit d' = false := Nat.testBit_two_pow_of_ne (Ne.symm apart)
  simp only [nextBit, Nat.one_shiftLeft, Bits.bit]
  split
  · split
    · split <;> simp [kept, Function.update_of_ne apart]
    · simp [kept, Function.update_of_ne apart]
  · simp [Function.update_of_ne apart]

theorem nextAs_bit (b : Bits) {d : Nat} (inside : d < asDim) :
    (nextAs asDim b).bit d = (b.bit d).next asDim d := by
  have upTo : ∀ k, ((range k).foldl (nextBit asDim) b).bit d =
      if d < k then (b.bit d).next asDim d else b.bit d := by
    intro k
    induction k with
    | zero => simp
    | succ k ih =>
      rw [range_succ, foldl_append, foldl_cons, foldl_nil]
      by_cases same : d = k
      · subst same
        rw [nextBit_bit_self, ih, if_neg (by omega), if_pos (by omega)]
      · rw [nextBit_bit_of_ne asDim k _ same, ih]
        simp [show d < k + 1 ↔ d < k by omega]
  rw [nextAs, upTo, if_pos inside]

theorem nextAs_lt (b : Bits) (low : b.v < 2 ^ asDim) : (nextAs asDim b).v < 2 ^ asDim := by
  apply Nat.lt_pow_two_of_testBit
  intro d ha
  have upTo : ∀ k ≤ asDim, ((range k).foldl (nextBit asDim) b).bit d = b.bit d := by
    intro k hw
    induction k with
    | zero => rfl
    | succ k ih =>
      rw [range_succ, foldl_append, foldl_cons, foldl_nil,
        nextBit_bit_of_ne asDim k _ (by omega), ih (by omega)]
  have kept : (nextAs asDim b).v.testBit d = b.v.testBit d :=
    congrArg Bit.on (upTo asDim (Nat.le_refl _))
  rw [kept]
  exact Nat.testBit_lt_two_pow (Nat.lt_of_lt_of_le low (Nat.pow_le_pow_right (by omega) ha))

inductive Emits : Bit → List Bool → Bit → Prop
  | nil {b} : Emits b [] b
  | cons {b l b'} (later : Emits (b.next asDim d) l b') : Emits b (b.on :: l) b'

variable {asDim d}

theorem Emits.of_cons {b b' : Bit} {x : Bool} {l : List Bool} (emits : Emits asDim d b (x :: l) b') :
    b.on = x ∧ Emits asDim d (b.next asDim d) l b' := by
  generalize hw : x :: l = values at emits
  cases emits with
  | nil => cases hw
  | cons hl =>
    cases hw
    exact ⟨rfl, hl⟩

theorem Emits.append {b b' b'' : Bit} {l l' : List Bool} (first : Emits asDim d b l b')
    (second : Emits asDim d b' l' b'') : Emits asDim d b (l ++ l') b'' := by
  induction first with
  | nil => exact second
  | cons _ ih => exact .cons (ih second)

theorem emits_replicate (on : Bool) (k left zeroStep : Nat) :
    Emits asDim d ⟨on, left + k + 1, zeroStep⟩ (replicate k on) ⟨on, left + 1, zeroStep⟩ := by
  induction k with
  | zero => exact .nil
  | succ k ih =>
    have step : Bit.next asDim d ⟨on, left + (k + 1) + 1, zeroStep⟩ = ⟨on, left + k + 1, zeroStep⟩ := by
      simp [Bit.next, ← Nat.add_assoc]
    apply Emits.cons
    exact ih

def waiting (asDim d zeros zeroStep : Nat) : Bit := Bit.next asDim d ⟨false, zeros + 1, zeroStep⟩

def bitValues (p : Nat) : Nat → List Bool
  | 0 => replicate p true ++ replicate (p - 1) false
  | j + 1 => false :: (bitValues p j ++ bitValues p j)

theorem waiting_zero (zeroStep : Nat) : waiting asDim d 0 zeroStep = ⟨true, 2 ^ d, zeroStep⟩ := by
  simp [waiting, Bit.next]

theorem waiting_succ (zeros zeroStep : Nat) :
    waiting asDim d (zeros + 1) zeroStep = ⟨false, zeros + 1, zeroStep⟩ := by
  simp [waiting, Bit.next]

theorem emits_on (zeroStep : Nat) :
    Emits asDim d (waiting asDim d 0 zeroStep) (bitValues (2 ^ d) 0)
      (waiting asDim d (firstBitSet zeroStep asDim) (zeroStep + 1)) := by
  have pos := Nat.two_pow_pos d
  have ons : Emits asDim d _ _ _ := emits_replicate true (2 ^ d - 1) 0 zeroStep
  rw [show 0 + (2 ^ d - 1) + 1 = 2 ^ d by omega] at ons
  have turn : Emits asDim d ⟨true, 0 + 1, zeroStep⟩ [true]
      (waiting asDim d (2 ^ d - 1 + firstBitSet zeroStep asDim) (zeroStep + 1)) := by
    have step : Bit.next asDim d ⟨true, 0 + 1, zeroStep⟩ =
        waiting asDim d (2 ^ d - 1 + firstBitSet zeroStep asDim) (zeroStep + 1) := by
      rw [show 2 ^ d - 1 + firstBitSet zeroStep asDim = 2 ^ d + firstBitSet zeroStep asDim - 1 by omega]
      cases hz : 2 ^ d + firstBitSet zeroStep asDim - 1 with
      | zero => simp [Bit.next, hz, waiting_zero]
      | succ k => simp [Bit.next, hz, waiting_succ]
    rw [← step]
    exact .cons .nil
  have offs : Emits asDim d
      (waiting asDim d (2 ^ d - 1 + firstBitSet zeroStep asDim) (zeroStep + 1))
      (replicate (2 ^ d - 1) false)
      (waiting asDim d (firstBitSet zeroStep asDim) (zeroStep + 1)) := by
    generalize 2 ^ d - 1 = k
    induction k with
    | zero =>
      rw [Nat.zero_add]
      exact .nil
    | succ k ih =>
      rw [show k + 1 + firstBitSet zeroStep asDim = k + firstBitSet zeroStep asDim + 1 by omega]
      exact .cons ih
  have all := (ons.append turn).append offs
  rw [bitValues, show replicate (2 ^ d) true = replicate (2 ^ d - 1) true ++ [true] by
    rw [← replicate_succ', Nat.sub_add_cancel pos]]
  exact all

theorem emits_bitValues (j zeroStep : Nat) (aligned : 2 ^ j ∣ zeroStep) :
    Emits asDim d (waiting asDim d j (zeroStep + 1)) (bitValues (2 ^ d) j)
      (waiting asDim d (firstBitSet (zeroStep + 2 ^ j) asDim) (zeroStep + 2 ^ j + 1)) := by
  induction j generalizing zeroStep with
  | zero => exact emits_on (zeroStep + 1)
  | succ j ih =>
    obtain ⟨k, rfl⟩ := aligned
    have even : 2 ^ (j + 1) * k = 2 * k * 2 ^ j := by
      ring
    rw [even]
    have first := ih (2 * k * 2 ^ j) (Dvd.intro_left _ rfl)
    rw [show 2 * k * 2 ^ j + 2 ^ j = (2 * k + 1) * 2 ^ j by ring, firstBitSet_odd_mul] at first
    have second := ih ((2 * k + 1) * 2 ^ j) (Dvd.intro_left _ rfl)
    rw [show (2 * k + 1) * 2 ^ j + 2 ^ j = 2 * k * 2 ^ j + 2 ^ (j + 1) by rw [Nat.pow_succ]; ring] at second
    exact .cons (first.append second)

end OneBit

theorem mem_asOrder {d x : Nat} : x ∈ asOrder d ↔ 0 < x ∧ x < 2 ^ d := by
  induction d generalizing x with
  | zero =>
    simp only [asOrder, not_mem_nil, false_iff]
    omega
  | succ d ih =>
    have := Nat.two_pow_pos d
    simp only [asOrder, mem_cons, mem_append, mem_map, ih]
    constructor
    · rintro (rfl | ⟨y, low, rfl⟩ | low) <;> omega
    · rintro ⟨pos, _⟩
      rcases Nat.lt_trichotomy x (2 ^ d) with lt | same | _
      · exact .inr (.inr ⟨pos, lt⟩)
      · exact .inl same
      · exact .inr (.inl ⟨x - 2 ^ d, by omega, by omega⟩)

theorem asOrder_lt (d x : Nat) (mem : x ∈ asOrder d) : x < 2 ^ d := (mem_asOrder.mp mem).2

theorem asOrder_pos (d x : Nat) (mem : x ∈ asOrder d) : 0 < x := (mem_asOrder.mp mem).1

theorem asOrder_nodup (d : Nat) : (asOrder d).Nodup := by
  induction d with
  | zero => exact nodup_nil
  | succ d ih =>
    rw [asOrder, nodup_cons, nodup_append]
    refine ⟨?_, ih.map (fun _ _ => Nat.add_left_cancel), ih, ?_⟩
    · intro mem
      rw [mem_append, mem_map] at mem
      rcases mem with ⟨y, hi, same⟩ | hi
      · have := asOrder_pos d y hi
        omega
      · exact absurd (asOrder_lt d _ hi) (Nat.lt_irrefl _)
    · intro x mem y hi same
      rw [mem_map] at mem
      obtain ⟨z, _, rfl⟩ := mem
      have := asOrder_lt d y hi
      omega

theorem asOrder_tail (d : Nat) : ∀ x ∈ (asOrder (d + 1)).tail, x ≠ 2 ^ d := by
  intro x mem
  rw [asOrder, tail_cons, mem_append, mem_map] at mem
  rcases mem with ⟨y, hi, rfl⟩ | hi
  · have := asOrder_pos d y hi
    omega
  · exact (asOrder_lt d x hi).ne

theorem asOrder_last (d : Nat) : ∃ before, asOrder (d + 1) = before ++ [1] ∧ ∀ x ∈ before, x ≠ 1 := by
  induction d with
  | zero => exact ⟨[], rfl, by simp⟩
  | succ d ih =>
    obtain ⟨before, last, ha⟩ := ih
    have big : 2 ≤ 2 ^ (d + 1) := by
      have := Nat.two_pow_pos d
      omega
    refine ⟨2 ^ (d + 1) :: ((asOrder (d + 1)).map (2 ^ (d + 1) + ·) ++ before), ?_, ?_⟩
    · rw [asOrder, cons_append, append_assoc, ← last]
    intro x mem
    simp only [mem_cons, mem_append, mem_map] at mem
    rcases mem with rfl | ⟨y, _, rfl⟩ | he
    · omega
    · omega
    · exact ha x he

theorem asOrder_length (d : Nat) : (asOrder d).length = 2 ^ d - 1 := by
  induction d with
  | zero => rfl
  | succ d ih =>
    have pos := Nat.two_pow_pos d
    simp only [asOrder, length_cons, length_append, length_map]
    omega

theorem asOrder_bit {d asDim : Nat} (inside : d < asDim) :
    (asOrder asDim).map (·.testBit d) = bitValues (2 ^ d) (asDim - 1 - d) := by
  induction asDim with
  | zero => omega
  | succ k ih =>
    rw [asOrder, map_cons, map_append, map_map]
    by_cases top : d = k
    · subst top
      have above : (asOrder d).map ((·.testBit d) ∘ (2 ^ d + ·)) = replicate (2 ^ d - 1) true := by
        rw [← asOrder_length, eq_replicate_iff]
        refine ⟨by simp, ?_⟩
        simp only [mem_map, Function.comp_apply]
        rintro _ ⟨x, mem, rfl⟩
        rw [Nat.testBit_two_pow_add_eq, Nat.testBit_lt_two_pow (asOrder_lt d x mem)]
        rfl
      have below : (asOrder d).map (·.testBit d) = replicate (2 ^ d - 1) false := by
        rw [← asOrder_length, eq_replicate_iff]
        refine ⟨by simp, ?_⟩
        simp only [mem_map]
        rintro _ ⟨x, mem, rfl⟩
        exact Nat.testBit_lt_two_pow (asOrder_lt d x mem)
      rw [above, below, Nat.testBit_two_pow_self, show d + 1 - 1 - d = 0 by omega, bitValues,
        ← cons_append, ← replicate_succ, Nat.sub_add_cancel (Nat.two_pow_pos d)]
    · have low : d < k := by omega
      have same : (asOrder k).map ((·.testBit d) ∘ (2 ^ k + ·)) = (asOrder k).map (·.testBit d) := by
        apply map_congr_left
        intro x _
        exact Nat.testBit_two_pow_add_gt low x
      rw [same, ih low, Nat.testBit_two_pow_of_ne (by omega), show k + 1 - 1 - d = k - 1 - d + 1 by omega,
        bitValues]

theorem returns_of_bits {asDim : Nat} (l : List Nat) (b : Bits) (low : b.v < 2 ^ asDim)
    (small : ∀ x ∈ l, x < 2 ^ asDim)
    (bits : ∀ d < asDim, ∃ b', Emits asDim d ((b.bit d).next asDim d) (l.map (·.testBit d)) b') :
    Returns asDim b l := by
  induction l generalizing b with
  | nil => trivial
  | cons x rest ih =>
    have low' := nextAs_lt asDim b low
    constructor
    · apply Nat.eq_of_testBit_eq
      intro d
      by_cases hi : d < asDim
      · obtain ⟨b', he⟩ := bits d hi
        have here : (nextAs asDim b).v.testBit d = ((b.bit d).next asDim d).on :=
          congrArg Bit.on (nextAs_bit asDim b hi)
        rw [here]
        exact he.of_cons.1
      · have grown := Nat.pow_le_pow_right (show 0 < 2 by decide) (Nat.le_of_not_lt hi)
        rw [Nat.testBit_lt_two_pow (low'.trans_le grown),
          Nat.testBit_lt_two_pow ((small x (by simp)).trans_le grown)]
    · apply ih _ low' (fun y mem => small y (by simp [mem]))
      intro d hi
      obtain ⟨b', he⟩ := bits d hi
      rw [nextAs_bit asDim b hi]
      exact ⟨b', he.of_cons.2⟩

/-- From a reset on, `nextAs` goes through the order and then returns to its first value. -/
theorem resetBits_returns {asDim : Nat} (pos : 0 < asDim) :
    Returns asDim (resetBits asDim) (asOrder asDim ++ [2 ^ (asDim - 1)]) := by
  apply returns_of_bits
  · exact Nat.two_pow_pos asDim
  · intro x mem
    rcases mem_append.mp mem with inside | top
    · exact asOrder_lt asDim x inside
    · rw [mem_singleton.mp top]
      exact Nat.pow_lt_pow_right (by decide) (by omega)
  · intro d inside
    have first : ((resetBits asDim).bit d).next asDim d = waiting asDim d (asDim - 1 - d) (0 + 1) := by
      simp only [resetBits, Bits.bit, waiting, Nat.zero_testBit]
      rw [show asDim - d = asDim - 1 - d + 1 by omega]
    have emits : Emits asDim d _ _ _ := emits_bitValues (asDim - 1 - d) 0 (Nat.dvd_zero _)
    rw [← first, ← asOrder_bit inside] at emits
    have again : firstBitSet (0 + 2 ^ (asDim - 1 - d)) asDim = asDim - 1 - d := by
      have := firstBitSet_odd_mul 0 (asDim - 1 - d) asDim
      rwa [Nat.mul_zero, Nat.zero_add, Nat.one_mul, ← Nat.zero_add (2 ^ _)] at this
    have value : (2 ^ (asDim - 1)).testBit d =
        (waiting asDim d (asDim - 1 - d) (0 + 2 ^ (asDim - 1 - d) + 1)).on := by
      rw [Nat.testBit_two_pow]
      cases zeros : asDim - 1 - d with
      | zero =>
        rw [waiting_zero]
        simp
        omega
      | succ k =>
        rw [waiting_succ]
        simp
        omega
    rw [again] at emits
    rw [map_append, map_singleton, value]
    exact ⟨_, emits.append (.cons .nil)⟩

end Vccl.Pat
