import Vccl.Lib.Dyadic
import Vccl.Lib.Rounds
import Vccl.Pat.Gather

/-! What the all-gather steps send and receive on each dimension, as rounds. A block that is `s` ranks
ahead comes on the dimension of the lowest bit of `s`. On a dimension above the aggregated step a chunk is
one round, below it there is a round for each aggregated step with that lowest bit. -/
namespace Vccl.Pat.Gather

open Rounds Dyadic List

section Touches

def recvTouch (e : Nat) (ps : PatStep) : Option (Touch Nat) :=
  if ps.skipped = false ∧ ps.recvDim = some e then
    some ⟨ps.stepOffset, ps.recvOffset.getD 0, ps.nelem, ps.postRecv, ps.outIx⟩
  else none

def sendTouch (e : Nat) (ps : PatStep) : Option (Touch Nat) :=
  if ps.skipped = false ∧ ps.sendDim = some e then
    some ⟨0, ps.sendOffset.getD 0, ps.nelem, ps.postSend, ps.outIx⟩
  else none

def received (e : Nat) (steps : List PatStep) : List (Touch Nat) := steps.filterMap (recvTouch e)

def sent (e : Nat) (steps : List PatStep) : List (Touch Nat) := steps.filterMap (sendTouch e)

variable {α : Type}

theorem filterMap_taken (f : PatStep → Option α) (skips : ∀ ps, ps.skipped = true → f ps = none)
    (steps : List PatStep) : (taken steps).filterMap f = steps.filterMap f := by
  rw [taken, filterMap_filter]
  apply filterMap_congr
  intro ps _
  cases skipped : ps.skipped
  · simp
  · simp [skips ps skipped]

theorem received_range (e n : Nat) (f : Nat → PatStep) :
    received e (taken ((range n).map f)) = (range n).filterMap fun a => recvTouch e (f a) := by
  rw [received, filterMap_taken _ fun ps skipped => by simp [recvTouch, skipped], filterMap_map]
  rfl

theorem sent_range (e n : Nat) (f : Nat → PatStep) :
    sent e (taken ((range n).map f)) = (range n).filterMap fun a => sendTouch e (f a) := by
  rw [sent, filterMap_taken _ fun ps skipped => by simp [sendTouch, skipped], filterMap_map]
  rfl

theorem received_append (e : Nat) (l l' : List PatStep) :
    received e (l ++ l') = received e l ++ received e l' := filterMap_append ..

theorem sent_append (e : Nat) (l l' : List PatStep) : sent e (l ++ l') = sent e l ++ sent e l' :=
  filterMap_append ..

theorem received_flatMap (e : Nat) (xs : List α) (f : α → List PatStep) :
    received e (xs.flatMap f) = xs.flatMap fun x => received e (f x) := filterMap_flatMap ..

theorem sent_flatMap (e : Nat) (xs : List α) (f : α → List PatStep) :
    sent e (xs.flatMap f) = xs.flatMap fun x => sent e (f x) := filterMap_flatMap ..

end Touches

theorem firstBitSet_of_lowBit {e v : Nat} (low : LowBit e v) (max : Nat) : firstBitSet v max = e := by
  rw [low.eq]
  exact firstBitSet_odd_mul _ _ _

theorem two_rest (a d : Nat) : (2 * a + 1) * 2 ^ d - 1 <<< d = a * 2 ^ (d + 1) := by
  rw [Nat.one_shiftLeft, Nat.add_mul, Nat.one_mul, Nat.add_sub_cancel]
  ring

/-- The block `s` ranks ahead is received when it is sent on over dimension `d`; in the last place it is
received in any case. -/
def Reached (c : Args) (d s : Nat) : Prop := s + (if d = 0 then 0 else 2 ^ d) < c.nranks

instance (c : Args) (d s : Nat) : Decidable (Reached c d s) := inferInstanceAs (Decidable (_ < _))

section Steps

variable {c : Args} {g m p : Nat} (powers : Powers c g m p) (rank offset nelem : Nat)
include powers

theorem two_dim (k a : Nat) : (2 * a + 1) * 2 ^ k * c.aggDelta = (2 * a + 1) * 2 ^ (m + k) := by
  rw [powers.delta]
  ring

theorem sendTouch_phase2 (e k a : Nat) :
    sendTouch e (phase2 c rank offset nelem (2 ^ k) a) =
      if (2 * a + 1) * 2 ^ (m + k) < c.nranks ∧ e = m + k then
        some ⟨0, a % c.postFreq * nelem, nelem,
          a % c.postFreq = c.postFreq - 1 ∨ c.nranks ≤ (2 * (a + 1) + 1) * 2 ^ (m + k),
          (rank + c.nranks + a * 2 ^ (m + k + 1)) % c.nranks * c.count + offset⟩
      else none := by
  simp only [phase2, two_dim powers, firstBitSet_odd_mul, two_rest]
  split <;> simp [sendTouch, eq_comm]

theorem recvTouch_phase2 (e k a : Nat) :
    recvTouch e (phase2 c rank offset nelem (2 ^ k) a) =
      if (2 * a + 1) * 2 ^ (m + k) < c.nranks ∧ LowBit e (a * 2 ^ (m + k + 1)) then
        some ⟨a * 2 ^ (m + k + 1) / 2 ^ (e + 1) / c.postFreq,
          a * 2 ^ (m + k + 1) / 2 ^ (e + 1) % c.postFreq * nelem, nelem, false,
          (rank + c.nranks + a * 2 ^ (m + k + 1)) % c.nranks * c.count + offset⟩
      else none := by
  have twice : a * 2 * 2 ^ k * c.aggDelta = a * 2 ^ (m + k + 1) := by
    rw [powers.delta]
    ring
  simp only [phase2, two_dim powers, firstBitSet_odd_mul, two_rest, twice]
  rcases Nat.eq_zero_or_pos (a * 2 ^ (m + k + 1)) with zero | pos
  · simp [zero, recvTouch, not_lowBit_zero]
  obtain ⟨e', low⟩ := exists_lowBit pos
  rw [firstBitSet_of_lowBit low]
  simp only [pos.ne', ne_eq, recvTouch, low.iff_eq, Nat.shiftRight_eq_div_pow]
  by_cases hit : e' = e
  · subst hit
    simp
  · simp [hit]

section One

variable {d t : Nat} (aligned : 2 ^ (d + 1) ∣ t) (small : t + 2 ^ d < 2 ^ m)
include aligned small

theorem one_lowBit (a : Nat) : LowBit d (a * c.aggDelta + (t + 2 ^ d)) := by
  have room : d + 1 ≤ m := by
    apply (Nat.pow_lt_pow_iff_right (show 1 < 2 by decide)).mp
    omega
  rw [powers.delta, ← Nat.add_assoc, lowBit_add]
  · exact lowBit_two_pow d
  · exact Nat.dvd_add ((Nat.pow_dvd_pow 2 room).mul_left a) aligned

theorem sendTouch_phase1 (e a : Nat) :
    sendTouch e (phase1 c rank offset nelem (t + 2 ^ d) a) =
      if a * c.aggDelta + (t + 2 ^ d) < c.nranks ∧ e = d then
        some ⟨0, a % c.postFreq * nelem, nelem,
          a % c.postFreq = c.postFreq - 1 ∨ c.nranks ≤ (a + 1) * c.aggDelta + (t + 2 ^ d),
          (rank + c.nranks + (a * c.aggDelta + t)) % c.nranks * c.count + offset⟩
      else none := by
  have rest : a * c.aggDelta + (t + 2 ^ d) - 1 <<< d = a * c.aggDelta + t := by
    omega
  simp only [phase1, firstBitSet_of_lowBit (one_lowBit powers aligned small a), rest]
  split
  next hu =>
    have not_sent : ¬ (a * c.aggDelta + (t + 2 ^ d) < c.nranks ∧ e = d) := by omega
    rw [if_neg not_sent]
    simp [sendTouch]
  · split
    · simp [sendTouch, eq_comm]
    · split <;> simp [sendTouch, eq_comm]

theorem recvTouch_phase1_inner (inner : t ≠ 0) (e a : Nat) :
    recvTouch e (phase1 c rank offset nelem (t + 2 ^ d) a) =
      if Reached c d (a * c.aggDelta + t) ∧ LowBit e (a * c.aggDelta + t) then
        some ⟨if d = 0 then 0 else a / c.postFreq, a % c.postFreq * nelem, nelem,
          d = 0 ∧ (a % c.postFreq = c.postFreq - 1 ∨ c.nranks ≤ (a + 1) * c.aggDelta + t),
          (rank + c.nranks + (a * c.aggDelta + t)) % c.nranks * c.count + offset⟩
      else none := by
  have rest : a * c.aggDelta + (t + 2 ^ d) - 1 <<< d = a * c.aggDelta + t := by
    omega
  have apart : t + 2 ^ d ≠ 1 <<< d := by
    omega
  obtain ⟨_, low⟩ := exists_lowBit (show 0 < a * c.aggDelta + t by omega)
  simp only [phase1, firstBitSet_of_lowBit (one_lowBit powers aligned small a), rest,
    firstBitSet_of_lowBit low, apart, low.iff_eq, Reached]
  have pos : a * c.aggDelta + t ≠ 0 := by omega
  simp only [pos, ne_eq]
  by_cases hb : d = 0
  · subst hb
    have back : (a + 1) * c.aggDelta + (t + 2 ^ 0) - 1 = (a + 1) * c.aggDelta + t := by omega
    simp only [true_and, back]
    split
    next hu =>
      simp [recvTouch, hu.1]
    next sent_on =>
      have whole : a * c.aggDelta + (t + 1) < c.nranks ↔ a * c.aggDelta + t < c.nranks := by omega
      simp [recvTouch, whole]
  · have skip : (c.nranks ≤ a * c.aggDelta + (t + 2 ^ d)) ↔ ¬ a * c.aggDelta + t + 2 ^ d < c.nranks := by
      omega
    simp [recvTouch, hb, skip]

theorem recvTouch_phase1_first (first : t = 0) (e a : Nat) :
    recvTouch e (phase1 c rank offset nelem (t + 2 ^ d) a) =
      if Reached c d (a * c.aggDelta) ∧ LowBit e (a * c.aggDelta) then
        some ⟨if d = 0 then 0 else a * c.aggDelta / 2 ^ (e + 1) / c.postFreq,
          a * c.aggDelta / 2 ^ (e + 1) % c.postFreq * nelem, nelem,
          d = 0 ∧ (a * c.aggDelta / 2 ^ (e + 1) % c.postFreq = c.postFreq - 1 ∨
            c.nranks ≤ ((a * c.aggDelta / 2 ^ (e + 1) + 1) * 2 + 1) * 2 ^ e),
          (rank + c.nranks + a * c.aggDelta) % c.nranks * c.count + offset⟩
      else none := by
  have lowest := firstBitSet_of_lowBit (one_lowBit powers aligned small a)
  subst first
  rw [Nat.zero_add] at lowest ⊢
  have rest : a * c.aggDelta + 2 ^ d - 2 ^ d = a * c.aggDelta := Nat.add_sub_cancel ..
  simp only [phase1, lowest, Nat.one_shiftLeft, rest]
  rcases Nat.eq_zero_or_pos (a * c.aggDelta) with zero | pos
  · simp only [zero, not_lowBit_zero]
    split <;> simp [recvTouch]
  obtain ⟨e', low⟩ := exists_lowBit pos
  simp only [pos.ne', ne_eq, if_true, firstBitSet_of_lowBit low, low.iff_eq, Reached,
    Nat.shiftLeft_eq, Nat.shiftRight_eq_div_pow]
  rcases ne_or_eq e' e with other | rfl
  · split <;> simp [recvTouch, other]
  by_cases hb : d = 0
  · subst hb
    split
    next hu => simp [recvTouch, hu.1]
    next sent_on =>
      have whole : a * c.aggDelta + 1 < c.nranks ↔ a * c.aggDelta < c.nranks := by omega
      simp [recvTouch, whole]
  · simp [recvTouch, hb]

end One

end Steps

def blockRound (c : Args) (rank offset first stride : Nat) : Round Nat :=
  ⟨below first stride c.nranks, c.postFreq, c.getNelem offset,
    fun f => (rank + (first + f * stride)) % c.nranks * c.count + offset⟩

section Groups

theorem peer_block (n rank x y : Nat) : ((rank + x) % n + n + y) % n = (rank + (x + y)) % n := by
  rw [Nat.add_right_comm, Nat.add_mod_right, Nat.mod_add_mod, Nat.add_assoc]

theorem own_block (n rank x : Nat) : (rank + n + x) % n = (rank + x) % n := by
  rw [Nat.add_right_comm, Nat.add_mod_right]

theorem post_eq {n freq first stride a : Nat} (freq_pos : 0 < freq) (pos : 0 < stride)
    (inside : a < below first stride n) :
    decide (a % freq = freq - 1 ∨ n ≤ first + (a + 1) * stride) =
      (decide (a % freq + 1 = freq) || decide (a + 1 = below first stride n)) := by
  have next := @lt_below first stride n (a + 1) pos
  rw [← Bool.decide_or, decide_eq_decide]
  omega

theorem odd_mul (a e : Nat) : (2 * a + 1) * 2 ^ e = 2 ^ e + a * 2 ^ (e + 1) := by
  ring

variable {c : Args} {g m p : Nat} (powers : Powers c g m p) (rank offset : Nat)
include powers

theorem postFreq_pos : 0 < c.postFreq := by
  rw [powers.freq]
  exact Nat.two_pow_pos p

variable {k : Nat}

theorem two_width (inside : k < g) : c.aggFactor / (2 * 2 ^ k) = 2 ^ (g - 1 - k) := by
  rw [powers.factor, ← Nat.pow_succ', Nat.pow_div inside (by decide)]
  congr 1
  omega

theorem two_below_le (inside : k < g) :
    below (2 ^ (m + k)) (2 ^ (m + k + 1)) c.nranks ≤ 2 ^ (g - 1 - k) := by
  apply below_le (Nat.two_pow_pos _)
  calc c.nranks ≤ 2 ^ (g + m) := powers.ranks_le
    _ = 2 ^ (g - 1 - k) * 2 ^ (m + k + 1) := by
      rw [← Nat.pow_add]
      congr 1
      omega
    _ ≤ 2 ^ (m + k) + 2 ^ (g - 1 - k) * 2 ^ (m + k + 1) := Nat.le_add_left _ _

theorem sent_twoGroup (inside : k < g) :
    sent (m + k) (twoGroup c ((rank + 2 ^ (m + k)) % c.nranks) offset (2 ^ k)) =
      (blockRound c rank offset (2 ^ (m + k)) (2 ^ (m + k + 1))).last := by
  have pos := Nat.two_pow_pos (m + k + 1)
  rw [twoGroup, sent_range, blockRound, Round.last_mk, two_width powers inside]
  apply filterMap_range_lt (two_below_le powers inside)
  · intro a _
    have used := @lt_below (2 ^ (m + k)) (2 ^ (m + k + 1)) c.nranks a pos
    rw [sendTouch_phase2 powers, odd_mul, odd_mul]
    simp only [and_true, peer_block, ← used]
    split
    next mem =>
      rw [post_eq (postFreq_pos powers) pos mem]
    · rfl

theorem sent_twoGroup_other {e k : Nat} (other : e ≠ m + k) :
    sent e (twoGroup c rank offset (2 ^ k)) = [] := by
  rw [twoGroup, sent_range, filterMap_eq_nil_iff]
  intro a _
  rw [sendTouch_phase2 powers, if_neg (fun h => other h.2)]

theorem received_twoGroup_low {e k : Nat} (low : e < m + k + 1) :
    received e (twoGroup c rank offset (2 ^ k)) = [] := by
  rw [twoGroup, received_range, filterMap_eq_nil_iff]
  intro a _
  have aligned : 2 ^ (e + 1) ∣ a * 2 ^ (m + k + 1) := (Nat.pow_dvd_pow 2 low).mul_left a
  rw [recvTouch_phase2 powers, if_neg (fun h => not_lowBit_of_dvd aligned h.2)]

theorem received_twoGroup (e : Nat) (inside : k < g) :
    Passes (blockRound c rank offset (2 ^ e) (2 ^ (e + 1)))
      (received e (twoGroup c rank offset (2 ^ k))) := by
  by_cases low : e < m + k + 1
  · rw [received_twoGroup_low powers rank offset low]
    exact .nil
  have pos := Nat.two_pow_pos (m + k + 1)
  obtain ⟨j, rfl⟩ : ∃ j, e = j + (m + k + 1) := ⟨e - (m + k + 1), by omega⟩
  have cut : below (2 ^ j) (2 ^ (j + 1)) (below (2 ^ (m + k)) (2 ^ (m + k + 1)) c.nranks) ≤
      below (2 ^ (j + (m + k + 1))) (2 ^ (j + (m + k + 1) + 1)) c.nranks := by
    apply below_le_below (Nat.two_pow_pos _) (Nat.two_pow_pos _)
    intro i lt
    rw [lt_below pos, ← odd_mul i j, Nat.mul_assoc, ← Nat.pow_add] at lt
    rw [← odd_mul]
    omega
  have whole : received (j + (m + k + 1)) (twoGroup c rank offset (2 ^ k)) =
      (blockRound c rank offset (2 ^ (j + (m + k + 1))) (2 ^ (j + (m + k + 1) + 1))).pass
        (below (2 ^ j) (2 ^ (j + 1)) (below (2 ^ (m + k)) (2 ^ (m + k + 1)) c.nranks)) := by
    rw [twoGroup, received_range, two_width powers inside, blockRound]
    apply filterMap_range_lowBit (two_below_le powers inside)
    intro a _
    have used := @lt_below (2 ^ (m + k)) (2 ^ (m + k + 1)) c.nranks a pos
    rw [recvTouch_phase2 powers, odd_mul, own_block]
    simp only [← used]
    by_cases hit : a < below (2 ^ (m + k)) (2 ^ (m + k + 1)) c.nranks ∧
        LowBit (j + (m + k + 1)) (a * 2 ^ (m + k + 1))
    · rw [if_pos hit, if_pos hit, ← odd_mul, ← hit.2.eq]
    · rw [if_neg hit, if_neg hit]
  rw [whole]
  exact .single cut

theorem aggDelta_pos : 0 < c.aggDelta := by
  rw [powers.delta]
  exact Nat.two_pow_pos m

theorem one_below_le (first : Nat) : below first c.aggDelta c.nranks ≤ c.aggFactor := by
  apply below_le (aggDelta_pos powers)
  rw [powers.factor, powers.delta, ← Nat.pow_add]
  exact powers.ranks_le.trans (Nat.le_add_left _ _)

theorem one_used (first a : Nat) :
    a < below first c.aggDelta c.nranks ↔ a * c.aggDelta + first < c.nranks := by
  rw [lt_below (aggDelta_pos powers), Nat.add_comm]

theorem received_zeroGroup (as : Nat) :
    received 0 (zeroGroup c rank offset as) = (blockRound c rank offset as c.aggDelta).last := by
  rw [zeroGroup, received_range, blockRound, Round.last_mk]
  apply filterMap_range_lt (one_below_le powers as)
  intro a _
  have used := one_used powers as a
  by_cases mem : a < below as c.aggDelta c.nranks
  · rw [if_pos mem, ← post_eq (postFreq_pos powers) (aggDelta_pos powers) mem, Nat.add_comm as,
      Nat.add_comm as]
    simp [recvTouch, phase0, used.mp mem]
  · rw [if_neg mem]
    rw [used] at mem
    simp [recvTouch, phase0, mem]

omit powers in
theorem received_zeroGroup_other {e : Nat} (other : e ≠ 0) (as : Nat) :
    received e (zeroGroup c rank offset as) = [] := by
  rw [zeroGroup, received_range, filterMap_eq_nil_iff]
  intro a _
  simp [recvTouch, phase0, other.symm]

omit powers in
theorem sent_zeroGroup (e as : Nat) : sent e (zeroGroup c rank offset as) = [] := by
  rw [zeroGroup, sent_range, filterMap_eq_nil_iff]
  intro a _
  simp [sendTouch, phase0]

theorem one_base {e t : Nat} (low : LowBit e t) (small : t < 2 ^ m) (a : Nat) :
    LowBit e (a * c.aggDelta + t) := by
  rw [powers.delta, lowBit_add]
  · exact low
  · exact (Nat.pow_dvd_pow 2 (low.lt small)).mul_left a

section One

variable {d t : Nat} (aligned : 2 ^ (d + 1) ∣ t) (small : t + 2 ^ d < 2 ^ m)
include aligned small

theorem sent_oneGroup :
    sent d (oneGroup c ((rank + 2 ^ d) % c.nranks) offset (t + 2 ^ d)) =
      (blockRound c rank offset (t + 2 ^ d) c.aggDelta).last := by
  rw [oneGroup, sent_range, blockRound, Round.last_mk]
  apply filterMap_range_lt (one_below_le powers _)
  intro a _
  have block : 2 ^ d + (a * c.aggDelta + t) = t + 2 ^ d + a * c.aggDelta := by omega
  rw [sendTouch_phase1 powers _ _ _ aligned small, peer_block, block]
  simp only [and_true, ← one_used powers]
  split
  next mem =>
    rw [← post_eq (postFreq_pos powers) (aggDelta_pos powers) mem, Nat.add_comm ((a + 1) * c.aggDelta)]
  · rfl

variable {e : Nat}

theorem sent_oneGroup_other (other : e ≠ d) :
    sent e (oneGroup c rank offset (t + 2 ^ d)) = [] := by
  rw [oneGroup, sent_range, filterMap_eq_nil_iff]
  intro a _
  rw [sendTouch_phase1 powers _ _ _ aligned small, if_neg (fun h => other h.2)]

theorem received_oneGroup (low : LowBit e t) (not_last : d ≠ 0) :
    Passes (blockRound c rank offset t c.aggDelta) (received e (oneGroup c rank offset (t + 2 ^ d))) := by
  have cut : below (t + 2 ^ d) c.aggDelta c.nranks ≤ below t c.aggDelta c.nranks := by
    apply below_le_below (aggDelta_pos powers) (aggDelta_pos powers)
    intro i lt
    omega
  have base := one_base powers low (show t < 2 ^ m by omega)
  have whole : received e (oneGroup c rank offset (t + 2 ^ d)) =
      (blockRound c rank offset t c.aggDelta).pass (below (t + 2 ^ d) c.aggDelta c.nranks) := by
    rw [oneGroup, received_range, blockRound, Round.pass_mk]
    apply filterMap_range_lt (one_below_le powers _)
    intro a _
    rw [recvTouch_phase1_inner powers _ _ _ aligned small low.pos.ne', own_block,
      Nat.add_comm t (a * c.aggDelta)]
    simp [base a, Reached, not_last, Nat.add_assoc, ← one_used powers]
  rw [whole]
  exact .single cut

theorem received_oneGroup_last (low : LowBit e t) (last : d = 0) :
    received e (oneGroup c rank offset (t + 2 ^ d)) = (blockRound c rank offset t c.aggDelta).last := by
  have base := one_base powers low (show t < 2 ^ m by omega)
  rw [oneGroup, received_range, blockRound, Round.last_mk]
  apply filterMap_range_lt (one_below_le powers _)
  intro a _
  rw [recvTouch_phase1_inner powers _ _ _ aligned small low.pos.ne', own_block,
    Nat.add_comm t]
  simp only [base a, and_true, Reached, last, if_true, Nat.add_zero, ← one_used powers, true_and]
  split
  next mem =>
    rw [← post_eq (postFreq_pos powers) (aggDelta_pos powers) mem, Nat.add_comm ((a + 1) * c.aggDelta)]
  · rfl

theorem received_oneGroup_other (inner : t ≠ 0) (other : ¬ LowBit e t) :
    received e (oneGroup c rank offset (t + 2 ^ d)) = [] := by
  obtain ⟨_, low⟩ := exists_lowBit (Nat.pos_of_ne_zero inner)
  have elsewhere : ∀ a, ¬ LowBit e (a * c.aggDelta + t) := by
    intro a here
    rw [here.unique (one_base powers low (show t < 2 ^ m by omega) a)] at other
    exact other low
  rw [oneGroup, received_range, filterMap_eq_nil_iff]
  intro a _
  rw [recvTouch_phase1_inner powers _ _ _ aligned small inner,
    if_neg (fun h => elsewhere a h.2)]

end One

section First

variable {d : Nat} (inside : d < m)
include inside

theorem recvTouch_first (e a : Nat) :
    recvTouch e (phase1 c rank offset (c.getNelem offset) (2 ^ d) a) =
      if a < below (if d = 0 then 0 else 2 ^ d) c.aggDelta c.nranks ∧ LowBit e (a * 2 ^ m) then
        some ⟨if d = 0 then 0 else a * 2 ^ m / 2 ^ (e + 1) / c.postFreq,
          a * 2 ^ m / 2 ^ (e + 1) % c.postFreq * c.getNelem offset, c.getNelem offset,
          d = 0 ∧ (a * 2 ^ m / 2 ^ (e + 1) % c.postFreq = c.postFreq - 1 ∨
            c.nranks ≤ 2 ^ e + (a * 2 ^ m / 2 ^ (e + 1) + 1) * 2 ^ (e + 1)),
          (rank + (2 ^ e + a * 2 ^ m / 2 ^ (e + 1) * 2 ^ (e + 1))) % c.nranks * c.count + offset⟩
      else none := by
  have step := recvTouch_phase1_first powers rank offset (c.getNelem offset) (Nat.dvd_zero (2 ^ (d + 1)))
    (show 0 + 2 ^ d < 2 ^ m by rw [Nat.zero_add]; exact Nat.pow_lt_pow_right (by decide) inside) rfl e a
  rw [Nat.zero_add, own_block] at step
  have same : (Reached c d (a * c.aggDelta) ∧ LowBit e (a * c.aggDelta)) ↔
      a < below (if d = 0 then 0 else 2 ^ d) c.aggDelta c.nranks ∧ LowBit e (a * 2 ^ m) := by
    rw [Reached, one_used powers, powers.delta]
  by_cases hit : a < below (if d = 0 then 0 else 2 ^ d) c.aggDelta c.nranks ∧ LowBit e (a * 2 ^ m)
  · rw [step, if_pos (same.mpr hit), if_pos hit, ← odd_mul, ← odd_mul, ← hit.2.eq, Nat.mul_comm _ 2,
      powers.delta]
  · rw [step, if_neg (same.not.mpr hit), if_neg hit]

theorem received_first_below {e : Nat} (low : e < m) :
    received e (oneGroup c rank offset (2 ^ d)) = [] := by
  rw [oneGroup, received_range, filterMap_eq_nil_iff]
  intro a _
  have aligned : 2 ^ (e + 1) ∣ a * 2 ^ m := (Nat.pow_dvd_pow 2 low).mul_left a
  rw [recvTouch_first powers rank offset inside,
    if_neg (fun h => not_lowBit_of_dvd aligned h.2)]

omit inside in
theorem first_cut (j x i : Nat) :
    2 ^ j + i * 2 ^ (j + 1) < below x c.aggDelta c.nranks ↔
      2 ^ (j + m) + i * 2 ^ (j + m + 1) + x < c.nranks := by
  rw [one_used powers, powers.delta, ← odd_mul, ← odd_mul, Nat.mul_assoc, ← Nat.pow_add]

theorem received_first (j : Nat) (not_last : d ≠ 0) :
    Passes (blockRound c rank offset (2 ^ (j + m)) (2 ^ (j + m + 1)))
      (received (j + m) (oneGroup c rank offset (2 ^ d))) := by
  have cut : below (2 ^ j) (2 ^ (j + 1)) (below (2 ^ d) c.aggDelta c.nranks) ≤
      below (2 ^ (j + m)) (2 ^ (j + m + 1)) c.nranks := by
    apply below_le_below (Nat.two_pow_pos _) (Nat.two_pow_pos _)
    intro i lt
    rw [first_cut powers] at lt
    exact Nat.lt_of_le_of_lt (Nat.le_add_right _ _) lt
  have whole : received (j + m) (oneGroup c rank offset (2 ^ d)) =
      (blockRound c rank offset (2 ^ (j + m)) (2 ^ (j + m + 1))).pass
        (below (2 ^ j) (2 ^ (j + 1)) (below (2 ^ d) c.aggDelta c.nranks)) := by
    rw [oneGroup, received_range, blockRound]
    apply filterMap_range_lowBit (q := m) (one_below_le powers (2 ^ d))
    intro a _
    rw [recvTouch_first powers rank offset inside]
    simp [not_last]
  rw [whole]
  exact .single cut

theorem received_first_last (j : Nat) (last : d = 0) :
    received (j + m) (oneGroup c rank offset (2 ^ d)) =
      (blockRound c rank offset (2 ^ (j + m)) (2 ^ (j + m + 1))).last := by
  have all : below (2 ^ j) (2 ^ (j + 1)) (below 0 c.aggDelta c.nranks) =
      below (2 ^ (j + m)) (2 ^ (j + m + 1)) c.nranks := by
    apply eq_of_forall_lt_iff
    intro i
    rw [lt_below (Nat.two_pow_pos _), lt_below (Nat.two_pow_pos _), first_cut powers, Nat.add_zero]
  rw [oneGroup, received_range, blockRound, Round.last_mk, ← all]
  apply filterMap_range_lowBit (q := m) (one_below_le powers 0)
  intro a _
  rw [recvTouch_first powers rank offset inside]
  simp only [last, if_true, true_and]
  by_cases hit : a < below 0 c.aggDelta c.nranks ∧ LowBit (j + m) (a * 2 ^ m)
  · rw [if_pos hit, if_pos hit, all]
    have mem : a * 2 ^ m / 2 ^ (j + m + 1) < below (2 ^ (j + m)) (2 ^ (j + m + 1)) c.nranks := by
      rw [lt_below (Nat.two_pow_pos _), ← odd_mul, ← hit.2.eq]
      have := (one_used powers 0 a).mp hit.1
      rwa [powers.delta] at this
    rw [post_eq (postFreq_pos powers) (Nat.two_pow_pos _) mem]
  · rw [if_neg hit, if_neg hit]

end First

end Groups

end Vccl.Pat.Gather
