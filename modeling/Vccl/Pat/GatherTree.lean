import Vccl.Pat.GatherRounds

/-! The rounds of a run of the all-gather algorithm. In the order of the aggregated steps a value with
lowest bit `e` is followed by the values that go on from it, the last of which is the next one; so the
touches of a dimension are its rounds one after the other. -/
namespace Vccl.Pat.Gather

open Rounds Dyadic List Function

theorem exists_parent {x : Nat} (pos : 0 < x) :
    ∃ d y, x = y + 2 ^ d ∧ 2 ^ (d + 1) ∣ y ∧ LowBit d x := by
  obtain ⟨d, low⟩ := exists_lowBit pos
  refine ⟨d, x / 2 ^ (d + 1) * 2 ^ (d + 1), ?_, Dvd.intro_left _ rfl, low⟩
  rw [Nat.add_comm, ← odd_mul, ← low.eq]

section Aggregated

variable {c : Args} {g m p : Nat} (powers : Powers c g m p) (rank offset : Nat)
  {d t : Nat} (aligned : 2 ^ (d + 1) ∣ t) (small : t + 2 ^ d < 2 ^ m)

include aligned in
theorem odd_iff : (t + 2 ^ d) % 2 = 1 ↔ d = 0 := by
  obtain ⟨k, rfl⟩ := aligned
  cases d with
  | zero => omega
  | succ d =>
    rw [Nat.pow_succ, Nat.pow_succ]
    have : 2 ^ d * 2 * 2 * k = 2 * (2 ^ d * 2 * k) := by ring
    omega

include powers aligned small

variable {e : Nat}

theorem asSteps_pass (low : LowBit e t) (not_last : d ≠ 0) :
    Passes (blockRound c rank offset t c.aggDelta) (received e (asSteps c rank offset (t + 2 ^ d))) := by
  rw [asSteps, if_neg ((odd_iff aligned).not.mpr not_last), append_nil]
  exact received_oneGroup powers rank offset aligned small low not_last

theorem asSteps_last (low : LowBit e t) (last : d = 0) :
    received e (asSteps c rank offset (t + 2 ^ d)) = (blockRound c rank offset t c.aggDelta).last := by
  have upper : e ≠ 0 := by
    rintro rfl
    subst last
    exact not_lowBit_of_dvd aligned low
  rw [asSteps, if_pos ((odd_iff aligned).mpr last), received_append,
    received_zeroGroup_other rank offset upper, append_nil]
  exact received_oneGroup_last powers rank offset aligned small low last

theorem asSteps_zero (last : d = 0) :
    received 0 (asSteps c rank offset (t + 2 ^ d)) =
      (blockRound c rank offset (t + 2 ^ d) c.aggDelta).last := by
  have one : received 0 (oneGroup c rank offset (t + 2 ^ d)) = [] := by
    by_cases first : t = 0
    · subst first last
      exact received_first_below powers rank offset powers.some_left powers.some_left
    · apply received_oneGroup_other powers rank offset aligned small first
      subst last
      exact not_lowBit_of_dvd aligned
  rw [asSteps, if_pos ((odd_iff aligned).mpr last), received_append, one, nil_append,
    received_zeroGroup powers]

theorem asSteps_other (low : e < m) (other : ¬ LowBit e t) (not_zero : ¬ (d = 0 ∧ e = 0)) :
    received e (asSteps c rank offset (t + 2 ^ d)) = [] := by
  have one : received e (oneGroup c rank offset (t + 2 ^ d)) = [] := by
    by_cases first : t = 0
    · subst first
      rw [Nat.zero_add] at small ⊢
      exact received_first_below powers rank offset
        ((Nat.pow_lt_pow_iff_right (by decide)).mp small) low
    · exact received_oneGroup_other powers rank offset aligned small first other
  rw [asSteps, received_append, one]
  split
  next odd =>
    rw [odd_iff aligned] at odd
    exact received_zeroGroup_other rank offset (fun zero => not_zero ⟨odd, zero⟩) _
  · rfl

theorem asSteps_sent (e : Nat) :
    sent e (asSteps c ((rank + 2 ^ e) % c.nranks) offset (t + 2 ^ d)) =
      if e = d then (blockRound c rank offset (t + 2 ^ d) c.aggDelta).last else [] := by
  have none_zero : sent e (if (t + 2 ^ d) % 2 = 1 then
      zeroGroup c ((rank + 2 ^ e) % c.nranks) offset (t + 2 ^ d) else []) = [] := by
    split
    · exact sent_zeroGroup _ _ _ _
    · rfl
  rw [asSteps, sent_append, none_zero, append_nil]
  split
  next same =>
    subst same
    exact sent_oneGroup powers rank offset aligned small
  next other =>
    exact sent_oneGroup_other powers _ offset aligned small other

end Aggregated

section Order

variable {c : Args} {g m p : Nat} (powers : Powers c g m p) (rank offset : Nat)

def orderRounds (c : Args) (rank offset e base d : Nat) : List (Round Nat) :=
  ((asOrder d).filter (LowBit e ·)).map fun x => blockRound c rank offset (base + x) c.aggDelta

def orderReceived (c : Args) (rank offset e base d : Nat) : List (Touch Nat) :=
  (asOrder d).flatMap fun x => received e (asSteps c rank offset (base + x))

theorem orderReceived_succ (e base d : Nat) :
    orderReceived c rank offset e base (d + 1) =
      received e (asSteps c rank offset (base + 2 ^ d)) ++
        (orderReceived c rank offset e (base + 2 ^ d) d ++ orderReceived c rank offset e base d) := by
  simp [orderReceived, asOrder, flatMap_map, Nat.add_assoc]

theorem orderRounds_succ (e base d : Nat) :
    orderRounds c rank offset e base (d + 1) =
      (if e = d then [blockRound c rank offset (base + 2 ^ d) c.aggDelta] else []) ++
        (orderRounds c rank offset e (base + 2 ^ d) d ++ orderRounds c rank offset e base d) := by
  have top : LowBit e (2 ^ d) ↔ e = d :=
    ⟨fun low => low.unique (lowBit_two_pow d), fun same => same ▸ lowBit_two_pow d⟩
  have upper : ((asOrder d).map (2 ^ d + ·)).filter (LowBit e ·) =
      ((asOrder d).filter (LowBit e ·)).map (2 ^ d + ·) := by
    rw [filter_map]
    apply congrArg
    apply filter_congr
    intro x mem
    simp only [comp_apply, decide_eq_decide]
    exact lowBit_add_of_lt (dvd_refl _) (asOrder_pos d x mem) (asOrder_lt d x mem)
  simp only [orderRounds, asOrder, filter_cons, filter_append, upper, top]
  by_cases same : e = d
  · simp [same, Nat.add_assoc]
  · simp [same, Nat.add_assoc]

theorem orderRounds_high {e d : Nat} (high : d ≤ e) (base : Nat) :
    orderRounds c rank offset e base d = [] := by
  have none_low : (asOrder d).filter (LowBit e ·) = [] := by
    rw [filter_eq_nil_iff]
    intro x mem
    rw [decide_eq_true_eq]
    intro low
    have := low.lt (asOrder_lt d x mem)
    omega
  rw [orderRounds, none_low, map_nil]

include powers

theorem asSteps_above {d e base x : Nat} (aligned : 2 ^ d ∣ base) (pos : 0 < x) (below_d : x < 2 ^ d)
    (small : base + 2 ^ d ≤ 2 ^ m) (low : e < m) (other : ¬ LowBit e base ∨ ¬ ∃ k, x = 2 ^ k)
    (high : d ≤ e) : received e (asSteps c rank offset (base + x)) = [] := by
  obtain ⟨k, y, rfl, hb, low_x⟩ := exists_parent pos
  have room : k + 1 ≤ d := low_x.lt below_d
  rw [← Nat.add_assoc]
  apply asSteps_other powers rank offset
  · exact Nat.dvd_add ((Nat.pow_dvd_pow 2 room).trans aligned) hb
  · omega
  · exact low
  · intro here
    rcases Nat.eq_zero_or_pos y with rfl | hy
    · rcases other with hno | hn
      · exact hno here
      · exact hn ⟨k, Nat.zero_add _⟩
    · rw [lowBit_add_of_lt aligned hy (by omega)] at here
      have := here.lt (show y < 2 ^ d by omega)
      omega
  · omega

theorem orderReceived_other {d e base : Nat} (aligned : 2 ^ d ∣ base) (small : base + 2 ^ d ≤ 2 ^ m)
    (low : e < m) (other : ¬ LowBit e base) (high : d ≤ e) :
    orderReceived c rank offset e base d = [] := by
  rw [orderReceived, flatMap_eq_nil_iff]
  intro x mem
  exact asSteps_above powers rank offset aligned (asOrder_pos d x mem) (asOrder_lt d x mem) small low
    (.inl other) high

theorem orderReceived_children {e base : Nat} (low : LowBit e base) (upper : e ≠ 0)
    (small : base + 2 ^ e ≤ 2 ^ m) :
    Repeats [blockRound c rank offset base c.aggDelta] (orderReceived c rank offset e base e) := by
  have pos := Nat.two_pow_pos e
  have inside : e < m := low.lt (by omega)
  obtain ⟨k, rfl⟩ := Nat.exists_eq_succ_of_ne_zero upper
  obtain ⟨before, ho, ha⟩ := asOrder_last k
  have early : Passes (blockRound c rank offset base c.aggDelta)
      (before.flatMap fun x => received (k + 1) (asSteps c rank offset (base + x))) := by
    apply Passes.flatMap
    intro x mem
    have in_order : x ∈ asOrder (k + 1) := by simp [ho, mem]
    by_cases hp : ∃ j, x = 2 ^ j
    · obtain ⟨j, rfl⟩ := hp
      have above : j < k + 1 := (Nat.pow_lt_pow_iff_right (by decide)).mp (asOrder_lt _ _ in_order)
      apply asSteps_pass powers rank offset _ _ low
      · rintro rfl
        exact ha _ mem rfl
      · exact (Nat.pow_dvd_pow 2 above).trans low.dvd
      · have := Nat.pow_lt_pow_right (show 1 < 2 by decide) above
        omega
    · rw [asSteps_above powers rank offset low.dvd (asOrder_pos _ _ in_order) (asOrder_lt _ _ in_order) small
        inside (.inr hp) (Nat.le_refl _)]
      exact .nil
  have final : received (k + 1) (asSteps c rank offset (base + 1)) =
      (blockRound c rank offset base c.aggDelta).last := by
    apply asSteps_last powers rank offset (d := 0) _ _ low rfl
    · exact (Nat.pow_dvd_pow 2 (by omega)).trans low.dvd
    · omega
  rw [orderReceived, ho, flatMap_append, flatMap_singleton, final]
  apply Repeats.passes early
  simpa using Repeats.last Repeats.nil

theorem orderReceived_repeats {d e base : Nat} (low : e < d) (aligned : 2 ^ d ∣ base)
    (small : base + 2 ^ d ≤ 2 ^ m) (within : d ≤ m) :
    Repeats (orderRounds c rank offset e base d) (orderReceived c rank offset e base d) := by
  induction d generalizing base with
  | zero => omega
  | succ d ih =>
    have half : 2 ^ d ∣ base := (Nat.pow_dvd_pow 2 (Nat.le_succ d)).trans aligned
    have top : LowBit d (base + 2 ^ d) := (lowBit_add aligned).mpr (lowBit_two_pow d)
    rw [orderReceived_succ, orderRounds_succ]
    by_cases same : e = d
    · subst same
      have lower : orderReceived c rank offset e base e = [] :=
        orderReceived_other powers rank offset half (by omega) (by omega) (not_lowBit_of_dvd aligned)
          (Nat.le_refl _)
      rw [if_pos rfl, orderRounds_high rank offset (Nat.le_refl _), orderRounds_high rank offset (Nat.le_refl _),
        lower, append_nil, append_nil, append_nil]
      by_cases hb : e = 0
      · subst hb
        have zero := asSteps_zero powers rank offset (d := 0) aligned (by omega) rfl
        rw [zero]
        exact .last .nil
      · rw [asSteps_other powers rank offset aligned (by omega) (by omega) (not_lowBit_of_dvd aligned)
          (fun h => hb h.2)]
        exact orderReceived_children powers rank offset top hb (by omega)
    · have below_top : e < d := by omega
      rw [if_neg same, asSteps_other powers rank offset aligned (by omega) (by omega)
        (not_lowBit_of_dvd ((Nat.pow_dvd_pow 2 (by omega)).trans aligned)) (fun h => by omega)]
      exact (ih below_top (Nat.dvd_add half (dvd_refl _)) (by omega) (by omega)).append
        (ih below_top half (by omega) (by omega))

end Order

section Chunk

variable {c : Args} {g m p : Nat} (powers : Powers c g m p) (rank offset : Nat)

def chunkRounds (c : Args) (rank offset m e : Nat) : List (Round Nat) :=
  if e < m then orderRounds c rank offset e 0 m
  else [blockRound c rank offset (2 ^ e) (2 ^ (e + 1))]

theorem flatMap_ite {α β : Type} (q : α → Prop) [DecidablePred q] (f : α → List β) (l : List α) :
    (l.flatMap fun x => if q x then f x else []) = (l.filter q).flatMap f := by
  induction l with
  | nil => rfl
  | cons x rest ih =>
    rw [flatMap_cons, ih]
    by_cases hit : q x <;> simp [hit]

theorem filter_range_eq (e m g : Nat) :
    (range g).filter (fun k => decide (e = m + k)) =
      if m ≤ e ∧ e < m + g then [e - m] else [] := by
  induction g with
  | zero => simp
  | succ g ih =>
    rw [range_succ, filter_append, ih]
    by_cases last : e = m + g
    · simp [last]
    · have same : (m ≤ e ∧ e < m + (g + 1)) ↔ (m ≤ e ∧ e < m + g) := by omega
      simp [last, same]

include powers

theorem below_beyond {e : Nat} (beyond : g + m ≤ e) : below (2 ^ e) (2 ^ (e + 1)) c.nranks = 0 := by
  apply Nat.le_zero.mp
  apply below_le (Nat.two_pow_pos _)
  have := Nat.pow_le_pow_right (show 0 < 2 by decide) beyond
  have := powers.ranks_le
  omega

theorem order_sent (e : Nat) :
    ((asOrder m).flatMap fun x => sent e (asSteps c ((rank + 2 ^ e) % c.nranks) offset x)) =
      (orderRounds c rank offset e 0 m).flatMap Round.last := by
  have each : ∀ x ∈ asOrder m, sent e (asSteps c ((rank + 2 ^ e) % c.nranks) offset x) =
      if LowBit e x then (blockRound c rank offset x c.aggDelta).last else [] := by
    intro x mem
    obtain ⟨d, y, rfl, aligned, low⟩ := exists_parent (asOrder_pos m x mem)
    have same : LowBit e (y + 2 ^ d) ↔ e = d :=
      ⟨fun here => here.unique low, fun same => same ▸ low⟩
    rw [asSteps_sent powers rank offset aligned (asOrder_lt m _ mem)]
    simp [same]
  rw [flatMap_congr each, flatMap_ite, orderRounds, flatMap_map]
  simp

theorem two_sent (e : Nat) :
    ((range g).reverse.flatMap fun k =>
        sent e (twoGroup c ((rank + 2 ^ e) % c.nranks) offset (2 ^ k))) =
      if e < m then [] else (blockRound c rank offset (2 ^ e) (2 ^ (e + 1))).last := by
  have each : ∀ k ∈ (range g).reverse,
      sent e (twoGroup c ((rank + 2 ^ e) % c.nranks) offset (2 ^ k)) =
        if e = m + k then (blockRound c rank offset (2 ^ e) (2 ^ (e + 1))).last else [] := by
    intro k mem
    split
    next same =>
      subst same
      exact sent_twoGroup powers rank offset (by simpa using mem)
    next other =>
      exact sent_twoGroup_other powers _ offset other
  rw [flatMap_congr each, flatMap_ite, filter_reverse, filter_range_eq]
  by_cases low : e < m
  · rw [if_neg (by omega), if_pos low]
    rfl
  · split
    · simp
    · rw [blockRound, below_beyond powers (by omega)]
      rfl

theorem chunk_sent (e : Nat) :
    sent e (chunkSteps c ((rank + 2 ^ e) % c.nranks) offset g m) =
      (chunkRounds c rank offset m e).flatMap Round.last := by
  rw [chunkSteps, sent_append, sent_flatMap, sent_flatMap, two_sent powers, order_sent powers, chunkRounds]
  split
  · rfl
  next high =>
    rw [orderRounds_high rank offset (by omega), flatMap_nil, append_nil, flatMap_singleton]

theorem order_received_high {e : Nat} (high : m ≤ e) :
    Repeats [blockRound c rank offset (2 ^ e) (2 ^ (e + 1))]
      ((asOrder m).flatMap fun x => received e (asSteps c rank offset x)) := by
  obtain ⟨j, rfl⟩ : ∃ j, e = j + m := ⟨e - m, by omega⟩
  have bottom := powers.some_left
  obtain ⟨k, rfl⟩ : ∃ k, m = k + 1 := ⟨m - 1, by omega⟩
  obtain ⟨before, ho, ha⟩ := asOrder_last k
  have early : Passes (blockRound c rank offset (2 ^ (j + (k + 1))) (2 ^ (j + (k + 1) + 1)))
      (before.flatMap fun x => received (j + (k + 1)) (asSteps c rank offset x)) := by
    apply Passes.flatMap
    intro x mem
    have in_order : x ∈ asOrder (k + 1) := by simp [ho, mem]
    obtain ⟨d, y, rfl, aligned, _⟩ := exists_parent (asOrder_pos _ x in_order)
    have small := asOrder_lt _ _ in_order
    rw [asSteps, received_append]
    apply Passes.append
    · by_cases first : y = 0
      · subst first
        rw [Nat.zero_add] at small ⊢
        apply received_first powers rank offset
        · exact (Nat.pow_lt_pow_iff_right (by decide)).mp small
        · rintro rfl
          exact ha _ mem rfl
      · rw [received_oneGroup_other powers rank offset aligned small first]
        · exact .nil
        · intro here
          have := here.lt (show y < 2 ^ (k + 1) by omega)
          omega
    · split
      · rw [received_zeroGroup_other rank offset (by omega)]
        exact .nil
      · exact .nil
  have final : received (j + (k + 1)) (asSteps c rank offset 1) =
      (blockRound c rank offset (2 ^ (j + (k + 1))) (2 ^ (j + (k + 1) + 1))).last := by
    rw [asSteps, received_append, if_pos (by decide), received_zeroGroup_other rank offset (by omega),
      append_nil]
    exact received_first_last powers rank offset bottom j rfl
  rw [ho, flatMap_append, flatMap_singleton, final]
  apply Repeats.passes early
  simpa using Repeats.last Repeats.nil

theorem chunk_received (e : Nat) :
    Repeats (chunkRounds c rank offset m e) (received e (chunkSteps c rank offset g m)) := by
  rw [chunkSteps, received_append, received_flatMap, received_flatMap, chunkRounds]
  split
  next low =>
    have none_above : ((range g).reverse.flatMap fun k =>
        received e (twoGroup c rank offset (2 ^ k))) = [] := by
      rw [flatMap_eq_nil_iff]
      intro k _
      exact received_twoGroup_low powers rank offset (by omega)
    have order := orderReceived_repeats powers rank offset low (Nat.dvd_zero _) (by omega) (Nat.le_refl m)
    simp only [orderReceived, Nat.zero_add] at order
    rwa [none_above, nil_append]
  next high =>
    apply Repeats.passes
    · apply Passes.flatMap
      intro k mem
      exact received_twoGroup powers rank offset e (by simpa using mem)
    · exact order_received_high powers rank offset (by omega)

end Chunk

section Program

variable {c : Args} {g m p : Nat} (powers : Powers c g m p) (rank : Nat)

def programRounds (c : Args) (rank m e : Nat) : List (Round Nat) :=
  (range c.chunks).flatMap fun i => chunkRounds c rank (c.chunkOffset i) m e

include powers

theorem program_sent (e : Nat) :
    sent e (program c ((rank + 2 ^ e) % c.nranks) g m) =
      (programRounds c rank m e).flatMap Round.last := by
  rw [program, sent_flatMap, programRounds, flatMap_assoc]
  apply flatMap_congr
  intro i _
  exact chunk_sent powers rank _ e

theorem program_received (e : Nat) :
    Repeats (programRounds c rank m e) (received e (program c rank g m)) := by
  rw [program, received_flatMap, programRounds]
  induction range c.chunks with
  | nil => exact .nil
  | cons i rest ih =>
    exact (chunk_received powers rank _ e).append ih

theorem mem_programRounds {e : Nat} {r : Round Nat} (mem : r ∈ programRounds c rank m e) :
    ∃ i < c.chunks, ∃ first stride, r = blockRound c rank (c.chunkOffset i) first stride ∧
      (g + m ≤ e → r.count = 0) := by
  rw [programRounds, mem_flatMap] at mem
  obtain ⟨i, hi, mem⟩ := mem
  refine ⟨i, mem_range.mp hi, ?_⟩
  unfold chunkRounds at mem
  split at mem
  next low =>
    rw [orderRounds, mem_map] at mem
    obtain ⟨y, -, rfl⟩ := mem
    exact ⟨_, _, rfl, by omega⟩
  · rw [mem_singleton] at mem
    subst mem
    exact ⟨_, _, rfl, below_beyond powers⟩

theorem program_solid {slot : Nat} (fits : ∀ i, c.postFreq * c.getNelem (c.chunkOffset i) ≤ slot) (e : Nat) :
    ∀ r ∈ programRounds c rank m e, r.Solid slot := by
  intro r mem
  obtain ⟨i, hi, _, _, rfl, -⟩ := mem_programRounds powers rank mem
  exact ⟨postFreq_pos powers, c.getNelem_pos hi, fits i⟩

theorem program_received_beyond {e : Nat} (beyond : g + m ≤ e) : received e (program c rank g m) = [] := by
  apply (program_received powers rank e).eq_nil
  intro r mem
  obtain ⟨_, _, _, _, _, he⟩ := mem_programRounds powers rank mem
  exact he beyond

end Program

end Vccl.Pat.Gather
