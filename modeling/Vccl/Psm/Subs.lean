import Vccl.Psm.Progress
import Vccl.Lib.Chunks

/-! Which args finish. A sub counts towards `args->done` when its counter meets the step count
after at least one slice, so a step count of zero, or one that is not a whole number of slices,
is never counted. -/
namespace Vccl.Psm

open List
open Chunks (slice_le slice_pos Tally)

def Sub.sound (slice : Nat) (sub : Sub) : Bool := decide (sub.nsteps ≠ 0 ∧ slice ∣ sub.nsteps)

def Sub.counted (slice : Nat) (sub : Sub) : Bool :=
  sub.sound slice && decide (sub.done = sub.nsteps)

def Sub.total (sub : Sub) : Nat := sub.posted + sub.received + sub.transmitted + sub.done

variable {slice : Nat}

theorem sound_congr {a b : Sub} (same : a.nsteps = b.nsteps) :
    a.sound slice = b.sound slice := by
  simp [Sub.sound, same]

variable {sub : Sub}

theorem counted_advance (slices : slice ∣ sub.done) (some' : 0 < slice) (unfinished : sub.done ≠ sub.nsteps) :
    ({ sub with done := sub.done + slice }.counted slice).toNat =
      (sub.counted slice).toNat + if sub.done + slice = sub.nsteps then 1 else 0 := by
  have before : sub.counted slice = false := by simp [Sub.counted, unfinished]
  rw [before]
  by_cases last : sub.done + slice = sub.nsteps
  · have whole : slice ∣ sub.nsteps := last ▸ Nat.dvd_add_self_right.mpr slices
    have nonzero : sub.nsteps ≠ 0 := by omega
    simp [Sub.counted, Sub.sound, last, whole, nonzero]
  · simp [Sub.counted, last]

theorem sound_unfinished (sound : sub.sound slice = true) (uncounted : sub.counted slice = false) :
    sub.done ≠ sub.nsteps ∧ slice ∣ sub.nsteps ∧ 0 < slice := by
  have parts : sub.nsteps ≠ 0 ∧ slice ∣ sub.nsteps := by simpa [Sub.sound] using sound
  refine ⟨?_, parts.2, Nat.pos_of_dvd_of_pos parts.2 (Nat.pos_of_ne_zero parts.1)⟩
  simpa [Sub.counted, sound] using uncounted

structure TurnSpec (slice : Nat) (inv : Sub → Prop) (turn : Nat → Sub → Sub × Nat) : Prop where
  keeps : ∀ s sub, inv sub → inv (turn s sub).1
  steps : ∀ s sub, (turn s sub).1.nsteps = sub.nsteps
  counts : ∀ s sub, inv sub →
    ((turn s sub).1.counted slice).toNat = (sub.counted slice).toNat + (turn s sub).2

variable {inv : Sub → Prop} {turn : Nat → Sub → Sub × Nat}

theorem subLoop_spec (spec : TurnSpec slice inv turn) (subs : List Sub) (s : Nat) (h : ∀ sub ∈ subs, inv sub) :
    (∀ sub ∈ (subLoop turn s subs).1, inv sub) ∧
      Tally (Sub.counted slice) Sub.nsteps subs (subLoop turn s subs).1 (subLoop turn s subs).2 := by
  induction subs generalizing s with
  | nil => exact ⟨by simp [subLoop], rfl, rfl⟩
  | cons sub rest ih =>
    obtain ⟨here, later⟩ := forall_mem_cons.mp h
    obtain ⟨hk, ht⟩ := ih (s + 1) later
    have one := Tally.single (spec.steps s sub) (spec.counts s sub here)
    exact ⟨forall_mem_cons.mpr ⟨spec.keeps s sub here, hk⟩, one.append ht⟩

structure TurnMoves (slice : Nat) (inv : Sub → Prop) (turn : Nat → Sub → Sub × Nat) : Prop where
  grows : ∀ s sub, sub.total ≤ (turn s sub).1.total
  moves : ∀ s sub, inv sub → sub.sound slice = true → sub.counted slice = false →
    sub.total < (turn s sub).1.total

theorem subLoop_grows (spec : TurnMoves slice inv turn) (subs : List Sub) (s : Nat) :
    (subs.map Sub.total).sum ≤ ((subLoop turn s subs).1.map Sub.total).sum := by
  induction subs generalizing s with
  | nil => simp
  | cons sub rest ih =>
    have others := ih (s + 1)
    have first := spec.grows s sub
    simp only [subLoop, map_cons, sum_cons]
    omega

theorem subLoop_moves (spec : TurnMoves slice inv turn) (subs : List Sub) (s : Nat) (h : ∀ sub ∈ subs, inv sub)
    (sound : ∀ sub ∈ subs, sub.sound slice = true) (waiting : ∃ sub ∈ subs, sub.counted slice = false) :
    (subs.map Sub.total).sum < ((subLoop turn s subs).1.map Sub.total).sum := by
  induction subs generalizing s with
  | nil => simp at waiting
  | cons sub rest ih =>
    have first := spec.grows s sub
    have others := subLoop_grows spec rest (s + 1)
    simp only [subLoop, map_cons, sum_cons]
    obtain ⟨late, mem, hu⟩ := waiting
    rcases mem_cons.mp mem with rfl | mem
    · have moved := spec.moves s late (h _ (by simp)) (sound _ (by simp)) hu
      omega
    · have moved := ih (s + 1) (fun sub m => h sub (by simp [m])) (fun sub m => sound sub (by simp [m]))
        ⟨late, mem, hu⟩
      omega

def Answers.yes : Answers where
  receiverReady := true
  credit _ := true
  copied _ _ := true
  sent _ := true
  tested _ := true
  posted _ := true
  flushed _ := true
  finished := true

structure StagedInv (slice : Nat) (sub : Sub) : Prop where
  unused : sub.posted = 0 ∧ sub.received = 0
  doneSlices : slice ∣ sub.done
  copiedSlices : slice ∣ sub.transmitted
  order : sub.done ≤ sub.transmitted
  bound : slice ∣ sub.nsteps → sub.transmitted ≤ sub.nsteps

theorem unfinished_of_behind (slices : slice ∣ sub.done) (behind : slice ∣ sub.nsteps → sub.done < sub.nsteps) :
    sub.done ≠ sub.nsteps := by
  intro same
  have := behind (same ▸ slices)
  omega

theorem startCopy_inv (answers : Answers) (s : Nat) (h : StagedInv slice sub) :
    StagedInv slice (startCopy slice answers s sub) := by
  unfold startCopy
  split
  next room =>
    refine ⟨h.unused, h.doneSlices, Nat.dvd_add_self_right.mpr h.copiedSlices, ?_, ?_⟩
    · exact le_trans h.order (Nat.le_add_right _ _)
    · exact fun hw => slice_le h.copiedSlices hw room.2.1
  · exact h

theorem queryCopy_inv (answers : Answers) (s : Nat) (h : StagedInv slice sub) :
    StagedInv slice (queryCopy slice answers s sub).1 := by
  unfold queryCopy
  split
  next hb =>
    cases answers.copied 0 s with
    | false => exact h
    | true =>
      exact ⟨h.unused, Nat.dvd_add_self_right.mpr h.doneSlices, h.copiedSlices,
        slice_le h.doneSlices h.copiedSlices hb, h.bound⟩
  · exact h

theorem queryCopy_counts (answers : Answers) (s : Nat) (h : StagedInv slice sub) :
    ((queryCopy slice answers s sub).1.counted slice).toNat =
      (sub.counted slice).toNat + (queryCopy slice answers s sub).2 := by
  unfold queryCopy
  split
  next hb =>
    have unfinished := unfinished_of_behind h.doneSlices fun hw =>
      lt_of_lt_of_le hb (h.bound hw)
    cases answers.copied 0 s with
    | false => simp [unfinished]
    | true =>
      exact counted_advance h.doneSlices (slice_pos h.doneSlices h.copiedSlices hb) unfinished
  · rfl

theorem stagedTurn_spec (slice : Nat) (answers : Answers) :
    TurnSpec slice (StagedInv slice) (stagedTurn slice answers) := by
  refine ⟨?_, ?_, ?_⟩
  · intro s sub h
    exact queryCopy_inv answers s (startCopy_inv answers s h)
  · intro s sub
    unfold stagedTurn queryCopy startCopy
    repeat' split
    all_goals rfl
  · intro s sub h
    have same : (startCopy slice answers s sub).counted slice = sub.counted slice := by
      unfold startCopy
      split <;> rfl
    rw [← same]
    exact queryCopy_counts answers s (startCopy_inv answers s h)

theorem stagedTurn_moves (slice : Nat) :
    TurnMoves slice (StagedInv slice) (stagedTurn slice .yes) := by
  constructor
  · intro s sub
    unfold stagedTurn queryCopy startCopy
    repeat' split
    all_goals simp only [Sub.total]; omega
  · intro s sub h hs hu
    obtain ⟨_, hw, _⟩ := sound_unfinished hs hu
    have bound := h.bound hw
    have order := h.order
    by_cases hb : sub.done < sub.transmitted
    · have full : ¬ sub.transmitted < sub.done + 1 := by omega
      simp only [stagedTurn, startCopy, queryCopy, Answers.yes, psmSteps, full, false_and, if_false,
        hb, if_true, Sub.total]
      omega
    · have room : sub.transmitted < sub.done + 1 := by omega
      have more : sub.transmitted < sub.nsteps := by omega
      have copied : sub.done < sub.transmitted + slice := by omega
      simp only [stagedTurn, startCopy, queryCopy, Answers.yes, psmSteps, room, more, and_self,
        if_true, copied, Sub.total]
      omega

structure ZeroCopyInv (sub : Sub) : Prop where
  unused : sub.posted = 0 ∧ sub.received = 0 ∧ sub.transmitted = 0
  one : sub.nsteps = 1
  most : sub.done ≤ 1

theorem zeroCopyTurn_spec (answers : Answers) :
    TurnSpec 1 ZeroCopyInv (zeroCopyTurn answers) := by
  refine ⟨?_, ?_, ?_⟩
  · intro s sub h
    unfold zeroCopyTurn
    split
    · exact ⟨h.unused, h.one, le_refl 1⟩
    · exact h
  · intro s sub
    unfold zeroCopyTurn
    split <;> rfl
  · intro s sub h
    unfold zeroCopyTurn
    split
    next copied =>
      simp [Sub.counted, Sub.sound, h.one, copied.2]
    · rfl

theorem zeroCopyTurn_moves : TurnMoves 1 ZeroCopyInv (zeroCopyTurn .yes) := by
  constructor
  · intro s sub
    unfold zeroCopyTurn
    split
    · simp only [Sub.total]
      omega
    · exact le_refl _
  · intro s sub h hs hu
    obtain ⟨_, -, -⟩ := sound_unfinished hs hu
    have one := h.one
    have most := h.most
    have first : sub.done = 0 := by omega
    simp [zeroCopyTurn, Answers.yes, first, Sub.total]

structure NetSendInv (slice : Nat) (sub : Sub) : Prop where
  unused : sub.received = 0
  doneSlices : slice ∣ sub.done
  sentSlices : slice ∣ sub.transmitted
  postedSlices : slice ∣ sub.posted
  completed : sub.done ≤ sub.transmitted
  sent : sub.transmitted ≤ sub.posted
  bound : slice ∣ sub.nsteps → sub.posted ≤ sub.nsteps

theorem netSendTurn_spec (slice depth : Nat) (answers : Answers) :
    TurnSpec slice (NetSendInv slice) (netSendTurn slice depth answers) := by
  refine ⟨?_, ?_, ?_⟩
  · intro s sub h
    obtain ⟨hu, hd, sentSlices, postedSlices, hc, sent, hb⟩ := h
    unfold netSendTurn
    split
    · exact ⟨hu, hd, sentSlices, postedSlices, hc, sent, hb⟩
    split
    next room =>
      refine ⟨hu, hd, sentSlices, Nat.dvd_add_self_right.mpr postedSlices, hc, ?_, ?_⟩
      · exact le_trans sent (Nat.le_add_right _ _)
      · exact fun hw => slice_le postedSlices hw room.1
    · split
      next ready =>
        refine ⟨hu, hd, Nat.dvd_add_self_right.mpr sentSlices, postedSlices, ?_, ?_, hb⟩
        · exact le_trans hc (Nat.le_add_right _ _)
        · exact slice_le sentSlices postedSlices ready.1
      · split
        next tested =>
          exact ⟨hu, Nat.dvd_add_self_right.mpr hd, sentSlices, postedSlices,
            slice_le hd sentSlices tested.1, sent, hb⟩
        · exact ⟨hu, hd, sentSlices, postedSlices, hc, sent, hb⟩
  · intro s sub
    unfold netSendTurn
    repeat' split
    all_goals rfl
  · intro s sub h
    unfold netSendTurn
    split
    · rfl
    rename_i hun
    split
    · rfl
    split
    · rfl
    · split
      next tested =>
        exact counted_advance h.doneSlices (slice_pos h.doneSlices h.sentSlices tested.1) hun
      · rfl

theorem netSendTurn_moves (slice depth : Nat) (deep : 0 < depth) :
    TurnMoves slice (NetSendInv slice) (netSendTurn slice depth .yes) := by
  constructor
  · intro s sub
    unfold netSendTurn
    repeat' split
    all_goals simp only [Sub.total]; omega
  · intro s sub h hs hun
    obtain ⟨hu, hwh, _⟩ := sound_unfinished hs hun
    have bound := h.bound hwh
    have completed := h.completed
    have sent := h.sent
    unfold netSendTurn
    rw [if_neg hu]
    split
    · simp only [Sub.total]
      omega
    rename_i posted
    split
    · simp only [Sub.total]
      omega
    rename_i hw
    -- nothing to post or to send: the oldest send is complete
    have tested : sub.done < sub.transmitted ∧ Answers.yes.tested s = true := by
      refine ⟨?_, rfl⟩
      simp only [Answers.yes, or_true, and_true, psmNetSteps] at hw
      omega
    rw [if_pos tested]
    simp only [Sub.total]
    omega

end Vccl.Psm
