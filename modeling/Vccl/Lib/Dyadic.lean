import Mathlib

/-! The lowest bit of a number, and the members of an arithmetic progression below a bound. -/
namespace Dyadic

open List

def LowBit (e v : Nat) : Prop := v % 2 ^ (e + 1) = 2 ^ e

instance (e v : Nat) : Decidable (LowBit e v) := inferInstanceAs (Decidable (_ = _))

variable {e v : Nat}

theorem LowBit.eq (low : LowBit e v) : v = (2 * (v / 2 ^ (e + 1)) + 1) * 2 ^ e := by
  have split_v := Nat.div_add_mod v (2 ^ (e + 1))
  rw [low] at split_v
  calc v = 2 ^ e * 2 * (v / (2 ^ e * 2)) + 2 ^ e := split_v.symm
    _ = (2 * (v / 2 ^ (e + 1)) + 1) * 2 ^ e := by
      rw [Nat.pow_succ]
      ring

theorem lowBit_odd_mul (f e : Nat) : LowBit e ((2 * f + 1) * 2 ^ e) := by
  have pow : (2 * f + 1) * 2 ^ e = 2 ^ e + 2 ^ (e + 1) * f := by
    ring
  rw [LowBit, pow, Nat.add_mul_mod_self_left]
  exact Nat.mod_eq_of_lt (Nat.pow_lt_pow_right (by decide) (Nat.lt_succ_self e))

theorem lowBit_two_pow (e : Nat) : LowBit e (2 ^ e) := by
  simpa using lowBit_odd_mul 0 e

theorem not_lowBit_of_dvd (aligned : 2 ^ (e + 1) ∣ v) : ¬ LowBit e v := by
  intro low
  rw [LowBit] at low
  omega

theorem LowBit.dvd (low : LowBit e v) : 2 ^ e ∣ v := by
  rw [low.eq]
  exact Dvd.intro_left _ rfl

theorem LowBit.pos (low : LowBit e v) : 0 < v := by
  rw [low.eq]
  exact Nat.mul_pos (Nat.succ_pos _) (Nat.two_pow_pos e)

variable {d : Nat}

theorem not_lowBit_zero (e : Nat) : ¬ LowBit e 0 := fun low => absurd low.pos (by decide)

theorem LowBit.unique (low : LowBit d v) (low' : LowBit e v) : d = e := by
  rcases Nat.lt_trichotomy d e with lt | same | gt
  · exact absurd low (not_lowBit_of_dvd ((Nat.pow_dvd_pow 2 lt).trans low'.dvd))
  · exact same
  · exact absurd low' (not_lowBit_of_dvd ((Nat.pow_dvd_pow 2 gt).trans low.dvd))

theorem LowBit.iff_eq (low : LowBit d v) : LowBit e v ↔ d = e :=
  ⟨low.unique, fun same => same ▸ low⟩

theorem exists_lowBit (pos : 0 < v) : ∃ e, LowBit e v := by
  induction v using Nat.strongRecOn with
  | ind v ih =>
    rcases Nat.mod_two_eq_zero_or_one v with _ | odd
    · obtain ⟨e, low⟩ := ih (v / 2) (by omega) (by omega)
      refine ⟨e + 1, ?_⟩
      have double : v = (2 * (v / 2 / 2 ^ (e + 1)) + 1) * 2 ^ (e + 1) := by
        rw [Nat.pow_succ, ← Nat.mul_assoc, ← Nat.pow_succ, ← low.eq]
        omega
      rw [double]
      exact lowBit_odd_mul _ _
    · exact ⟨0, by simpa [LowBit] using odd⟩

theorem lowBit_add {base x : Nat} (aligned : 2 ^ (e + 1) ∣ base) : LowBit e (base + x) ↔ LowBit e x := by
  obtain ⟨k, rfl⟩ := aligned
  rw [LowBit, LowBit, Nat.mul_add_mod]

theorem lowBit_mul {j a : Nat} : LowBit (j + d) (a * 2 ^ d) ↔ LowBit j a := by
  rw [LowBit, show j + d + 1 = j + 1 + d by omega, Nat.pow_add 2 (j + 1) d, Nat.pow_add 2 j d,
    Nat.mul_mod_mul_right]
  exact Nat.mul_left_inj (Nat.two_pow_pos d).ne'

theorem LowBit.lt (low : LowBit e v) (small : v < 2 ^ d) : e < d := by
  apply (Nat.pow_lt_pow_iff_right (show 1 < 2 by decide)).mp
  exact (Nat.le_of_dvd low.pos low.dvd).trans_lt small

theorem lowBit_add_of_lt {base x : Nat} (aligned : 2 ^ d ∣ base) (pos : 0 < x) (small : x < 2 ^ d) :
    LowBit e (base + x) ↔ LowBit e x := by
  obtain ⟨e', low⟩ := exists_lowBit pos
  have high : LowBit e' (base + x) :=
    (lowBit_add ((Nat.pow_dvd_pow 2 (low.lt small)).trans aligned)).mpr low
  constructor
  · intro here
    rwa [here.unique high]
  · intro here
    rwa [here.unique low]

/-- How many of `first`, `first + stride`, … are below `n`. -/
def below (first stride n : Nat) : Nat := (n - first + stride - 1) / stride

variable {first stride n : Nat}

theorem lt_below {i : Nat} (pos : 0 < stride) :
    i < below first stride n ↔ first + i * stride < n := by
  rw [below, Nat.lt_iff_add_one_le, Nat.le_div_iff_mul_le pos, Nat.add_mul]
  omega

theorem below_le {k : Nat} (pos : 0 < stride) (bound : n ≤ first + k * stride) :
    below first stride n ≤ k := by
  apply Nat.le_of_not_lt
  rw [lt_below pos]
  omega

theorem below_le_below {first' stride' n' : Nat} (pos : 0 < stride) (pos' : 0 < stride')
    (inside : ∀ i, first + i * stride < n → first' + i * stride' < n') :
    below first stride n ≤ below first' stride' n' := by
  apply le_of_forall_lt
  intro i lt
  rw [lt_below pos] at lt
  rw [lt_below pos']
  exact inside i lt

theorem below_add_mul (pos : 0 < stride) (q : Nat) : below first stride (first + q * stride) = q := by
  apply eq_of_forall_lt_iff
  intro i
  rw [lt_below pos, Nat.add_lt_add_iff_left, Nat.mul_lt_mul_right pos]

theorem below_add_mul_succ (pos : 0 < stride) (q : Nat) : below first stride (first + q * stride + 1) = q + 1 := by
  apply eq_of_forall_lt_iff
  intro i
  rw [lt_below pos, Nat.lt_succ_iff, Nat.lt_succ_iff, Nat.add_le_add_iff_left, Nat.mul_le_mul_right_iff pos]

theorem below_succ (small : first < stride) (other : n % stride ≠ first) :
    below first stride (n + 1) = below first stride n := by
  have pos : 0 < stride := by omega
  apply eq_of_forall_lt_iff
  intro i
  have apart : first + i * stride ≠ n := by
    rintro rfl
    apply other
    rw [Nat.add_mul_mod_self_right, Nat.mod_eq_of_lt small]
  rw [lt_below pos, lt_below pos]
  omega

theorem countP_range_eq (n k : Nat) : (range n).countP (fun i => decide (i = k)) = if k < n then 1 else 0 := by
  change (range n).count k = _
  simp

theorem countP_below {s : Nat} (small : first < stride) (inside : s < n) :
    (range (below first stride n)).countP (fun f => decide (first + f * stride = s)) =
      if s % stride = first then 1 else 0 := by
  have pos : 0 < stride := by omega
  have nodup : ((range (below first stride n)).map fun f => first + f * stride).Nodup :=
    .map (fun a b same => Nat.eq_of_mul_eq_mul_right pos (Nat.add_left_cancel same)) nodup_range
  have mem : s ∈ (range (below first stride n)).map (fun f => first + f * stride) ↔ s % stride = first := by
    simp only [mem_map, mem_range, lt_below pos]
    constructor
    · rintro ⟨f, -, rfl⟩
      rw [Nat.add_mul_mod_self_right, Nat.mod_eq_of_lt small]
    · rintro rfl
      have whole := Nat.mod_add_div' s stride
      exact ⟨s / stride, by omega, whole⟩
  simp only [← mem, ← nodup.count, count, countP_map]
  rfl

theorem filterMap_range_mod {α : Type*} {f : Nat → Option α} {h : Nat → α} (small : first < stride)
    (picks : ∀ a < n, f a = if a % stride = first then some (h (a / stride)) else none) :
    (range n).filterMap f = (range (below first stride n)).map h := by
  have pos : 0 < stride := by omega
  induction n with
  | zero => simp [below, Nat.div_eq_of_lt (show stride - 1 < stride by omega)]
  | succ n ih =>
    rw [range_succ, filterMap_append, ih fun a lt => picks a (by omega)]
    have here := picks n (by omega)
    split at here
    next mem =>
      obtain ⟨q, rfl⟩ : ∃ q, n = first + q * stride := ⟨n / stride, by rw [← mem, Nat.mod_add_div']⟩
      rw [Nat.add_mul_div_right _ _ pos, Nat.div_eq_of_lt small, Nat.zero_add] at here
      rw [below_add_mul pos, below_add_mul_succ pos, range_succ]
      simp [here]
    next other =>
      rw [below_succ small other]
      simp [here]

variable {c : Nat}

theorem filterMap_range_cut {α : Type*} {f : Nat → Option α} (within : c ≤ n) (past : ∀ a < n, c ≤ a → f a = none) :
    (range n).filterMap f = (range c).filterMap f := by
  obtain ⟨more, rfl⟩ := Nat.exists_eq_add_of_le within
  have rest : ((range more).map (c + ·)).filterMap f = [] := by
    rw [filterMap_eq_nil_iff]
    intro a mem
    obtain ⟨i, hi, rfl⟩ := mem_map.mp mem
    rw [mem_range] at hi
    exact past _ (by omega) (by omega)
  rw [range_add, filterMap_append, rest, append_nil]

theorem filterMap_range_lt {α : Type*} {f : Nat → Option α} {h : Nat → α} (within : c ≤ n)
    (picks : ∀ a < n, f a = if a < c then some (h a) else none) :
    (range n).filterMap f = (range c).map h := by
  rw [filterMap_range_cut within, ← filterMap_eq_map]
  · apply filterMap_congr
    intro a hi
    rw [mem_range] at hi
    rw [picks a (by omega), if_pos hi]
    rfl
  · intro a hi past
    rw [picks a hi, if_neg (by omega)]

theorem filterMap_range_lt_mod {α : Type*} {f : Nat → Option α} {h : Nat → α} (within : c ≤ n)
    (small : first < stride)
    (picks : ∀ a < n, f a = if a < c ∧ a % stride = first then some (h (a / stride)) else none) :
    (range n).filterMap f = (range (below first stride c)).map h := by
  rw [filterMap_range_cut within]
  · apply filterMap_range_mod small
    intro a hi
    rw [picks a (by omega)]
    simp [hi]
  · intro a hi past
    rw [picks a hi, if_neg (by omega)]

theorem filterMap_range_lowBit {α : Type*} {q j : Nat} {f : Nat → Option α} {h : Nat → α} (within : c ≤ n)
    (picks : ∀ a < n, f a = if a < c ∧ LowBit (j + q) (a * 2 ^ q) then
      some (h (a * 2 ^ q / 2 ^ (j + q + 1))) else none) :
    (range n).filterMap f = (range (below (2 ^ j) (2 ^ (j + 1)) c)).map h := by
  apply filterMap_range_lt_mod within (Nat.pow_lt_pow_right (by decide) (Nat.lt_succ_self j))
  intro a hi
  have power : 2 ^ (j + q + 1) = 2 ^ (j + 1) * 2 ^ q := by
    rw [← Nat.pow_add]
    congr 1
    omega
  rw [picks a hi, power, Nat.mul_div_mul_right _ _ (Nat.two_pow_pos q)]
  simp only [lowBit_mul]
  rfl

end Dyadic
