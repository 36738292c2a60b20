import Vccl.Psm.Subs

/-! The passes over groups of receives. -/
namespace Vccl.Psm

open List
open Chunks (slice_le slice_pos Tally)

/-- The subs of a group post, receive and flush together; `P`, `R` and `T` are their counters. -/
structure LockStep (slice P R T : Nat) (g : List Sub) : Prop where
  slices : slice ∣ P ∧ slice ∣ R ∧ slice ∣ T
  received : R ≤ P
  flushed : T ≤ R
  subs : ∀ sub ∈ g, (sub.posted = P ∧ sub.received = R ∧ sub.transmitted = T) ∧
    slice ∣ sub.done ∧ sub.done ≤ T ∧ (slice ∣ sub.nsteps → sub.done ≤ sub.nsteps)
  bound : (∀ sub ∈ g, slice ∣ sub.nsteps) → P = 0 ∨ ∃ sub ∈ g, P ≤ sub.nsteps

def GroupInv (slice : Nat) (g : List Sub) : Prop := ∃ P R T, LockStep slice P R T g

def totals (subs : List Sub) : Nat := (subs.map Sub.total).sum

variable {depth : Nat}

theorem countPosts_eq_zero (g : List Sub) (subCount : Nat) (zero : countPosts depth g subCount = 0) :
    (subCount = 0 ∧ ∀ sub ∈ g, sub.nsteps ≤ sub.posted) ∨
      ∃ sub ∈ g, sub.posted < sub.nsteps ∧ sub.done + depth ≤ sub.posted := by
  induction g generalizing subCount with
  | nil => exact .inl ⟨zero, by simp⟩
  | cons sub rest ih =>
    simp only [countPosts] at zero
    split at zero
    next more =>
      split at zero
      next hb =>
        exact .inr ⟨sub, by simp, more, hb⟩
      · rcases ih _ zero with ⟨none, -⟩ | ⟨other, mem, hf⟩
        · omega
        · exact .inr ⟨other, by simp [mem], hf⟩
    next full =>
      rcases ih _ zero with ⟨none, all⟩ | ⟨other, mem, hf⟩
      · refine .inl ⟨none, ?_⟩
        refine forall_mem_cons.mpr ⟨?_, all⟩
        omega
      · exact .inr ⟨other, by simp [mem], hf⟩

theorem countPosts_ne_zero (g : List Sub) (subCount : Nat) (some' : countPosts depth g subCount ≠ 0) :
    subCount ≠ 0 ∨ ∃ sub ∈ g, sub.posted < sub.nsteps := by
  induction g generalizing subCount with
  | nil => exact .inl some'
  | cons sub rest ih =>
    by_cases more : sub.posted < sub.nsteps
    · exact .inr ⟨sub, by simp, more⟩
    · simp only [countPosts, if_neg more] at some'
      rcases ih _ some' with hb | ⟨other, mem, hf⟩
      · exact .inl hb
      · exact .inr ⟨other, by simp [mem], hf⟩

structure Advances (slice : Nat) (g g' : List Sub) : Prop where
  inv : GroupInv slice g → GroupInv slice g'
  steps : g'.map Sub.nsteps = g.map Sub.nsteps
  counts : g'.countP (Sub.counted slice) = g.countP (Sub.counted slice)
  grows : 0 < slice → g ≠ [] → totals g < totals g'

variable {slice T : Nat} {g : List Sub}

theorem advances_by (p r t : Nat) (slices : slice ∣ p ∧ slice ∣ r ∧ slice ∣ t) (one : p + r + t = slice)
    (room : ∀ P R T, LockStep slice P R T g → R + r ≤ P + p ∧ T + t ≤ R + r ∧
      ((∀ sub ∈ g, slice ∣ sub.nsteps) → P + p = 0 ∨ ∃ sub ∈ g, P + p ≤ sub.nsteps)) :
    Advances slice g (g.map fun sub => { sub with
      posted := sub.posted + p, received := sub.received + r, transmitted := sub.transmitted + t }) := by
  refine ⟨?_, ?_, ?_, ?_⟩
  · rintro ⟨P, R, T, h⟩
    obtain ⟨received, hf, hbo⟩ := room P R T h
    obtain ⟨dvdP, dvdR, dvdT⟩ := h.slices
    refine ⟨P + p, R + r, T + t, ⟨Nat.dvd_add dvdP slices.1, Nat.dvd_add dvdR slices.2.1, Nat.dvd_add dvdT slices.2.2⟩,
      received, hf, ?_, ?_⟩
    · rw [forall_mem_map]
      intro sub mem
      obtain ⟨⟨rfl, rfl, rfl⟩, hd, hb, most⟩ := h.subs sub mem
      exact ⟨⟨rfl, rfl, rfl⟩, hd, le_trans hb (Nat.le_add_right _ _), most⟩
    · intro hw
      rw [forall_mem_map] at hw
      rcases hbo hw with zero | ⟨sub, mem, most⟩
      · exact .inl zero
      · exact .inr ⟨_, mem_map_of_mem mem, most⟩
  · rw [map_map]
    rfl
  · rw [countP_map]
    rfl
  · intro pos hn
    rw [totals, totals, map_map]
    apply sum_lt_sum_of_ne_nil hn
    intro sub _
    simp only [Function.comp_apply, Sub.total]
    omega

variable {answers : Answers} {s : Nat} {g' : List Sub}

theorem postGroup_advances (posted : postGroup slice depth answers s g = some g') : Advances slice g g' := by
  obtain ⟨hc, ⟨⟩⟩ := Option.ite_none_right_eq_some.mp posted
  refine advances_by slice 0 0 (by simp) rfl fun P R T h => ?_
  refine ⟨le_trans h.received (Nat.le_add_right _ _), h.flushed, fun hw => ?_⟩
  obtain ⟨sub, mem, more⟩ := (countPosts_ne_zero g 0 hc.1).resolve_left (by simp)
  obtain ⟨⟨rfl, -⟩, -⟩ := h.subs sub mem
  exact .inr ⟨sub, mem, slice_le h.slices.1 (hw sub mem) more⟩

theorem testGroup_advances (tested : testGroup slice answers s g = some g') : Advances slice g g' := by
  cases g with
  | nil => contradiction
  | cons first rest =>
    obtain ⟨hb, ⟨⟩⟩ := Option.ite_none_right_eq_some.mp tested
    refine advances_by 0 slice 0 (by simp) (by simp) fun P R T h => ?_
    obtain ⟨⟨rfl, rfl, -⟩, -⟩ := h.subs first (by simp)
    exact ⟨slice_le h.slices.2.1 h.slices.1 hb.1, le_trans h.flushed (Nat.le_add_right _ _), h.bound⟩

theorem flushGroup_advances (flushed : flushGroup slice answers s g = some g') : Advances slice g g' := by
  cases g with
  | nil => contradiction
  | cons first rest =>
    obtain ⟨hb, ⟨⟩⟩ := Option.ite_none_right_eq_some.mp flushed
    refine advances_by 0 0 slice (by simp) (by simp) fun P R T h => ?_
    obtain ⟨⟨-, rfl, rfl⟩, -⟩ := h.subs first (by simp)
    exact ⟨h.received, slice_le h.slices.2.2 h.slices.2.1 hb.1, h.bound⟩

theorem phase_spec (act : Nat → List Sub → Option (List Sub))
    (advances : ∀ s g g', act s g = some g' → Advances slice g g') (groups : List (List Sub)) (s : Nat)
    (h : ∀ g ∈ groups, GroupInv slice g) :
    (∀ g ∈ (phase act s groups).1, GroupInv slice g) ∧
      Tally (Sub.counted slice) Sub.nsteps groups.flatten (phase act s groups).1.flatten 0 := by
  induction groups generalizing s with
  | nil => exact ⟨by simp [phase], rfl, rfl⟩
  | cons g rest ih =>
    obtain ⟨here, later⟩ := forall_mem_cons.mp h
    obtain ⟨inv, ht⟩ := ih (s + 1) later
    simp only [phase]
    cases ha : act s g with
    | none => exact ⟨forall_mem_cons.mpr ⟨here, inv⟩, ht.behind g⟩
    | some g' =>
      have advance := advances s g g' ha
      exact ⟨forall_mem_cons.mpr ⟨advance.inv here, inv⟩, .append ⟨advance.steps, advance.counts⟩ ht⟩

theorem totals_append (xs ys : List Sub) : totals (xs ++ ys) = totals xs + totals ys := by
  simp [totals]

theorem phase_moves (act : Nat → List Sub → Option (List Sub))
    (advances : ∀ s g g', act s g = some g' → Advances slice g g') (blank : ∀ s, act s [] = none)
    (pos : 0 < slice) (groups : List (List Sub)) (s : Nat) :
    ((phase act s groups).2 = true ∧ totals groups.flatten < totals (phase act s groups).1.flatten) ∨
      ((phase act s groups).2 = false ∧ (phase act s groups).1 = groups ∧ ∀ g ∈ groups, ∃ i, act i g = none) := by
  induction groups generalizing s with
  | nil => simp [phase]
  | cons g rest ih =>
    have others := ih (s + 1)
    simp only [phase]
    cases ha : act s g with
    | none =>
      rcases others with ⟨hm, hg⟩ | ⟨idle, same, each⟩
      · refine .inl ⟨hm, ?_⟩
        simp only [flatten_cons, totals_append]
        omega
      · exact .inr ⟨idle, by simp [same], forall_mem_cons.mpr ⟨⟨s, ha⟩, each⟩⟩
    | some g' =>
      have nonempty : g ≠ [] := by
        rintro rfl
        rw [blank] at ha
        contradiction
      have first := (advances s g g' ha).grows pos nonempty
      refine .inl ⟨rfl, ?_⟩
      simp only [flatten_cons, totals_append]
      rcases others with ⟨-, hg⟩ | ⟨-, same, -⟩
      · omega
      · rw [same]
        omega

theorem LockStep.congr {P R : Nat} (h : LockStep slice P R T g) (steps : g'.map Sub.nsteps = g.map Sub.nsteps)
    (subs : ∀ sub ∈ g', (sub.posted = P ∧ sub.received = R ∧ sub.transmitted = T) ∧
      slice ∣ sub.done ∧ sub.done ≤ T ∧ (slice ∣ sub.nsteps → sub.done ≤ sub.nsteps)) :
    LockStep slice P R T g' := by
  refine ⟨h.slices, h.received, h.flushed, subs, ?_⟩
  have same : ∀ n, (∃ sub ∈ g, sub.nsteps = n) ↔ ∃ sub ∈ g', sub.nsteps = n := by
    intro n
    rw [← mem_map, ← mem_map, steps]
  intro hw
  have before : ∀ sub ∈ g, slice ∣ sub.nsteps := by
    intro sub mem
    obtain ⟨other, ht, he⟩ := (same sub.nsteps).mp ⟨sub, mem, rfl⟩
    exact he ▸ hw other ht
  rcases h.bound before with zero | ⟨sub, mem, most⟩
  · exact .inl zero
  · obtain ⟨other, ht, he⟩ := (same sub.nsteps).mp ⟨sub, mem, rfl⟩
    exact .inr ⟨other, ht, he ▸ most⟩

theorem doneGroup_spec (copied : Nat → Bool) (inv : Sub → Prop) (slices : slice ∣ T)
    (reads : ∀ sub, inv sub → sub.transmitted = T ∧ slice ∣ sub.done)
    (keeps : ∀ sub, inv sub → sub.done ≠ sub.nsteps → sub.done < sub.transmitted →
      inv { sub with done := sub.done + slice }) (g : List Sub) (i : Nat) (h : ∀ sub ∈ g, inv sub) :
    (∀ sub ∈ (doneGroup slice copied i g).1, inv sub) ∧
      Tally (Sub.counted slice) Sub.nsteps g (doneGroup slice copied i g).1 (doneGroup slice copied i g).2 := by
  induction g generalizing i with
  | nil => exact ⟨by simp [doneGroup], rfl, rfl⟩
  | cons sub rest ih =>
    obtain ⟨here, others⟩ := forall_mem_cons.mp h
    obtain ⟨inv', ht⟩ := ih (i + 1) others
    simp only [doneGroup]
    split
    · exact ⟨forall_mem_cons.mpr ⟨here, inv'⟩, ht.behind [sub]⟩
    rename_i hm
    simp only [not_or, not_le] at hm
    obtain ⟨sent, hd⟩ := reads sub here
    have next := keeps sub here hm.1 hm.2.1
    have one : Tally (Sub.counted slice) Sub.nsteps [sub] [{ sub with done := sub.done + slice }] _ :=
      .single rfl (counted_advance hd (slice_pos hd slices (sent ▸ hm.2.1)) hm.1)
    have moved := one.append (n := 0) (c := rest) ⟨rfl, rfl⟩
    split
    next last =>
      rw [if_pos last] at moved
      exact ⟨forall_mem_cons.mpr ⟨next, others⟩, moved⟩
    next last =>
      rw [if_neg last] at moved
      exact ⟨forall_mem_cons.mpr ⟨next, inv'⟩, moved.trans (ht.behind [_])⟩

theorem doneGroup_inv (copied : Nat → Bool) (h : GroupInv slice g) :
    GroupInv slice (doneGroup slice copied 0 g).1 ∧
      Tally (Sub.counted slice) Sub.nsteps g (doneGroup slice copied 0 g).1 (doneGroup slice copied 0 g).2 := by
  obtain ⟨P, R, T, h⟩ := h
  have slices := h.slices.2.2
  obtain ⟨subs, ht⟩ := doneGroup_spec copied
    (fun sub => (sub.posted = P ∧ sub.received = R ∧ sub.transmitted = T) ∧
      slice ∣ sub.done ∧ sub.done ≤ T ∧ (slice ∣ sub.nsteps → sub.done ≤ sub.nsteps)) slices
    (fun sub here => ⟨here.1.2.2, here.2.1⟩)
    (by
      rintro sub ⟨hc, hd, _, most⟩ hu ahead
      refine ⟨hc, Nat.dvd_add_self_right.mpr hd, ?_, ?_⟩
      · exact slice_le hd slices (hc.2.2 ▸ ahead)
      · intro hw
        exact slice_le hd hw (lt_of_le_of_ne (most hw) hu))
    g 0 h.subs
  exact ⟨⟨P, R, T, h.congr ht.keys subs⟩, ht⟩

theorem doneGroups_inv (copied : Nat → Nat → Bool) (groups : List (List Sub)) (s : Nat)
    (h : ∀ g ∈ groups, GroupInv slice g) :
    (∀ g ∈ (doneGroups slice copied s groups).1, GroupInv slice g) ∧
      Tally (Sub.counted slice) Sub.nsteps groups.flatten (doneGroups slice copied s groups).1.flatten (doneGroups slice copied s groups).2 := by
  induction groups generalizing s with
  | nil => exact ⟨by simp [doneGroups], rfl, rfl⟩
  | cons g rest ih =>
    obtain ⟨first, later⟩ := forall_mem_cons.mp h
    obtain ⟨inv, ht⟩ := ih (s + 1) later
    obtain ⟨here, ht'⟩ := doneGroup_inv (copied s) first
    exact ⟨forall_mem_cons.mpr ⟨here, inv⟩, ht'.append ht⟩

theorem netRecvPass_inv (depth : Nat) (answers : Answers) (groups : List (List Sub))
    (h : ∀ g ∈ groups, GroupInv slice g) :
    (∀ g ∈ (netRecvPass slice depth answers groups).1, GroupInv slice g) ∧
      Tally (Sub.counted slice) Sub.nsteps groups.flatten (netRecvPass slice depth answers groups).1.flatten
        (netRecvPass slice depth answers groups).2 := by
  obtain ⟨hp, tally₁⟩ := phase_spec (postGroup slice depth answers) (fun _ _ _ => postGroup_advances) groups 0 h
  obtain ⟨tested, ht₂⟩ := phase_spec (testGroup slice answers) (fun _ _ _ => testGroup_advances) _ 0 hp
  obtain ⟨flushed, tally₃⟩ := phase_spec (flushGroup slice answers) (fun _ _ _ => flushGroup_advances) _ 0 tested
  obtain ⟨hf, tally₄⟩ := doneGroups_inv answers.copied _ 0 flushed
  simp only [netRecvPass]
  split
  · exact ⟨hp, tally₁⟩
  · split
    · exact ⟨tested, tally₁.trans ht₂⟩
    · split
      · exact ⟨flushed, (tally₁.trans ht₂).trans tally₃⟩
      · exact ⟨hf, ((tally₁.trans ht₂).trans tally₃).trans tally₄⟩

theorem doneGroup_grows (slice : Nat) (copied : Nat → Bool) (g : List Sub) (i : Nat) :
    totals g ≤ totals (doneGroup slice copied i g).1 := by
  induction g generalizing i with
  | nil => simp [doneGroup]
  | cons sub rest ih =>
    have others := ih (i + 1)
    simp only [totals] at others
    simp only [doneGroup]
    split
    · simp only [totals, map_cons, sum_cons]
      omega
    · split
      all_goals simp only [totals, map_cons, sum_cons, Sub.total] at others ⊢; omega

theorem doneGroup_moves (pos : 0 < slice) {copied : Nat → Bool} (yes : ∀ i, copied i = true) (g : List Sub)
    (i : Nat) (some' : ∃ sub ∈ g, sub.done ≠ sub.nsteps ∧ sub.done < sub.transmitted) :
    totals g < totals (doneGroup slice copied i g).1 := by
  induction g generalizing i with
  | nil => simp at some'
  | cons sub rest ih =>
    have grows := doneGroup_grows slice copied rest (i + 1)
    simp only [doneGroup]
    split
    next hs =>
      obtain ⟨late, mem, hu, ahead⟩ := some'
      rcases mem_cons.mp mem with rfl | mem
      · simp only [yes, or_true, not_true, or_false] at hs
        omega
      · have moved := ih (i + 1) ⟨late, mem, hu, ahead⟩
        simp only [totals, map_cons, sum_cons] at moved ⊢
        omega
    · split
      all_goals simp only [totals, map_cons, sum_cons, Sub.total] at grows ⊢; omega

theorem doneGroups_grows (slice : Nat) (copied : Nat → Nat → Bool) (groups : List (List Sub)) (s : Nat) :
    totals groups.flatten ≤ totals (doneGroups slice copied s groups).1.flatten := by
  induction groups generalizing s with
  | nil => simp [doneGroups]
  | cons g rest ih =>
    have first := doneGroup_grows slice (copied s) g 0
    have others := ih (s + 1)
    simp only [doneGroups, flatten_cons, totals_append]
    omega

theorem doneGroups_moves (pos : 0 < slice) (groups : List (List Sub)) (s : Nat)
    (some' : ∃ g ∈ groups, ∃ sub ∈ g, sub.done ≠ sub.nsteps ∧ sub.done < sub.transmitted) :
    totals groups.flatten < totals (doneGroups slice Answers.yes.copied s groups).1.flatten := by
  induction groups generalizing s with
  | nil => simp at some'
  | cons g rest ih =>
    have first := doneGroup_grows slice (Answers.yes.copied s) g 0
    have others := doneGroups_grows slice Answers.yes.copied rest (s + 1)
    simp only [doneGroups, flatten_cons, totals_append]
    obtain ⟨here, mem, hf⟩ := some'
    rcases mem_cons.mp mem with rfl | mem
    · have yes : ∀ i, Answers.yes.copied s i = true := fun _ => rfl
      have moved := doneGroup_moves pos yes here 0 hf
      omega
    · have moved := ih (s + 1) ⟨here, mem, hf⟩
      omega

theorem idle_group_has_step (h : GroupInv slice g) (deep : 0 < depth) (sound : ∀ sub ∈ g, sub.sound slice = true)
    (waiting : ∃ sub ∈ g, sub.counted slice = false) (posted : ∃ s, postGroup slice depth .yes s g = none)
    (tested : ∃ s, testGroup slice .yes s g = none) (flushed : ∃ s, flushGroup slice .yes s g = none) :
    ∃ sub ∈ g, sub.done ≠ sub.nsteps ∧ sub.done < sub.transmitted := by
  obtain ⟨P, R, T, h⟩ := h
  obtain ⟨late, mem, hun⟩ := waiting
  obtain ⟨hu, _, -⟩ := sound_unfinished (sound late mem) hun
  obtain ⟨⟨_, -, _⟩, -, _, _⟩ := h.subs late mem
  have caughtUp : P = T := by
    obtain ⟨s, tested⟩ := tested
    obtain ⟨_, flushed⟩ := flushed
    cases g with
    | nil => simp at mem
    | cons first rest =>
      obtain ⟨⟨_, _, _⟩, -⟩ := h.subs first (by simp)
      simp only [testGroup, flushGroup, Answers.yes, and_true, ite_eq_right_iff, reduceCtorEq, imp_false] at tested flushed
      have := h.received
      have := h.flushed
      omega
  by_cases ha : late.done < late.transmitted
  · exact ⟨late, mem, hu, ha⟩
  obtain ⟨s, posted⟩ := posted
  have none : countPosts depth g 0 = 0 := by
    by_contra some'
    simp [postGroup, Answers.yes, some'] at posted
  rcases countPosts_eq_zero g 0 none with ⟨-, all⟩ | ⟨sub, ht, _, _⟩
  · have := all late mem
    omega
  · obtain ⟨⟨_, -, _⟩, -, -, -⟩ := h.subs sub ht
    exact ⟨sub, ht, by omega, by omega⟩

theorem netRecvPass_moves (groups : List (List Sub)) (deep : 0 < depth) (h : ∀ g ∈ groups, GroupInv slice g)
    (sound : ∀ sub ∈ groups.flatten, sub.sound slice = true)
    (waiting : ∃ sub ∈ groups.flatten, sub.counted slice = false) :
    totals groups.flatten < totals (netRecvPass slice depth .yes groups).1.flatten := by
  obtain ⟨late, mem, hu⟩ := waiting
  obtain ⟨-, -, pos⟩ := sound_unfinished (sound late mem) hu
  obtain ⟨g, here, mem⟩ := mem_flatten.mp mem
  simp only [netRecvPass]
  rcases phase_moves (postGroup slice depth .yes) (fun _ _ _ => postGroup_advances)
    (fun _ => by simp [postGroup, countPosts]) pos groups 0 with ⟨hm, grows⟩ | ⟨idle, same, posted⟩
  · simpa only [hm, if_true] using grows
  simp only [idle, same, Bool.false_eq_true, if_false]
  rcases phase_moves (testGroup slice .yes) (fun _ _ _ => testGroup_advances) (fun _ => rfl) pos groups 0 with
    ⟨hm, grows⟩ | ⟨idle, same, tested⟩
  · simpa only [hm, if_true] using grows
  simp only [idle, same, Bool.false_eq_true, if_false]
  rcases phase_moves (flushGroup slice .yes) (fun _ _ _ => flushGroup_advances) (fun _ => rfl) pos groups 0 with
    ⟨hm, grows⟩ | ⟨idle, same, flushed⟩
  · simpa only [hm, if_true] using grows
  simp only [idle, same]
  apply doneGroups_moves pos
  refine ⟨g, here, idle_group_has_step (h g here) deep ?_ ⟨late, mem, hu⟩
    (posted g here) (tested g here) (flushed g here)⟩
  exact fun sub ht => sound sub (mem_flatten.mpr ⟨g, here, ht⟩)

end Vccl.Psm
