import Vccl.Rollback.Model

/-! The steps that `ncclIbRollBackSendProxyProgress` completes itself, against what `sendProxyProgress` does when
their requests complete. -/
namespace Vccl.Rollback.CatchUp

open List Function
open Net (ncclSteps)

/-- What the last step of a sub ends: its hold on the ring plan and the count of subs that are done. -/
structure Ending where
  ringAlgo : Bool
  refCount : Nat
  argsDone : Nat
  deriving DecidableEq

def Ending.finish (e : Ending) : Ending :=
  ⟨false, if e.ringAlgo then e.refCount - 1 else e.refCount, e.argsDone + 1⟩

/-- `requests` has the sizes of the requests in use by slot, `connFifo` the sizes that are not -1. -/
structure SendSub where
  base : Nat
  nsteps : Nat
  transmitted : Nat
  done : Nat
  reg : Bool
  shared : Bool
  nbytes : Nat
  recvbuff : Nat
  requests : Nat → Option Nat
  connFifo : Nat → Option Nat
  sendHead : Nat
  ending : Ending

def complete (sliceSteps : Nat) (s : SendSub) : SendSub :=
  let buffSlot := slotOf s.base s.done
  let done := s.done + sliceSteps
  { s with
    requests := update s.requests buffSlot none
    connFifo := update s.connFifo buffSlot none
    done
    sendHead := if s.shared then s.sendHead else s.base + done
    ending := if done = s.nsteps then s.ending.finish else s.ending }

def finishStep (sliceSteps : Nat) (s : SendSub) (step : Nat) : SendSub :=
  let size := (s.requests (slotOf s.base step)).getD 0
  let s :=
    if s.reg then
      if size < s.nbytes then
        { s with recvbuff := s.recvbuff + size, nbytes := s.nbytes - size, nsteps := s.nsteps + 1 }
      else { s with connFifo := update s.connFifo (slotOf s.base 0) none }
    else { s with connFifo := update s.connFifo (slotOf s.base step) none }
  { s with
    sendHead :=
      if s.shared then s.sendHead
      else if s.reg then if step = s.nsteps then s.base + sliceSteps else s.sendHead
      else s.base + step
    ending := if step = s.nsteps then s.ending.finish else s.ending }

def stepsFrom (sliceSteps first last : Nat) : List Nat :=
  (range ((last - first + (sliceSteps - 1)) / sliceSteps)).map (first + sliceSteps * ·)

def clear (sizes : Nat → Option Nat) (base : Nat) (steps : List Nat) : Nat → Option Nat :=
  steps.foldl (fun sizes step => update sizes (slotOf base step) none) sizes

def rollBack (sliceSteps restartPos : Nat) (s : SendSub) : SendSub :=
  let ended := (stepsFrom sliceSteps s.done restartPos).foldl (finishStep sliceSteps) s
  { ended with
    requests := clear ended.requests s.base (stepsFrom sliceSteps s.done s.transmitted)
    transmitted := restartPos
    done := restartPos }

def forget (sliceSteps restartPos : Nat) (s : SendSub) : SendSub :=
  { s with
    requests := clear s.requests s.base (stepsFrom sliceSteps restartPos s.transmitted)
    transmitted := restartPos }

variable {sliceSteps restartPos : Nat} {s : SendSub}

theorem stepsFrom_append (pos : 0 < sliceSteps) (first n last : Nat) (later : first + sliceSteps * n ≤ last) :
    stepsFrom sliceSteps first last = (range n).map (first + sliceSteps * ·) ++
      stepsFrom sliceSteps (first + sliceSteps * n) last := by
  have count : (last - first + (sliceSteps - 1)) / sliceSteps =
      n + (last - (first + sliceSteps * n) + (sliceSteps - 1)) / sliceSteps := by
    rw [← Nat.mul_add_div pos]
    congr 1
    omega
  rw [stepsFrom, count, range_add, map_append, map_map]
  congr 2
  funext k
  simp only [comp_apply, Nat.mul_add]
  omega

theorem stepsFrom_self (pos : 0 < sliceSteps) (first : Nat) : stepsFrom sliceSteps first first = [] := by
  rw [stepsFrom, Nat.sub_self, Nat.zero_add, Nat.div_eq_of_lt (Nat.sub_lt pos Nat.one_pos)]
  rfl

theorem clear_apply (sizes : Nat → Option Nat) (base : Nat) (steps : List Nat) (slot : Nat) :
    clear sizes base steps slot = if ∃ step ∈ steps, slotOf base step = slot then none else sizes slot := by
  induction steps generalizing sizes with
  | nil => simp [clear]
  | cons step rest ih =>
    have tail := ih (update sizes (slotOf base step) none)
    rw [clear] at tail ⊢
    rw [foldl_cons, tail]
    by_cases here : slotOf base step = slot
    · simp [here]
    · simp [here, update_of_ne (Ne.symm here)]

theorem clear_eq_iff (sizes : Nat → Option Nat) (base : Nat) (steps others : List Nat) :
    clear sizes base steps = clear sizes base others ↔ ∀ slot, sizes slot ≠ none →
      ((∃ step ∈ steps, slotOf base step = slot) ↔ ∃ step ∈ others, slotOf base step = slot) := by
  simp only [funext_iff, clear_apply]
  refine forall_congr' fun slot => ?_
  by_cases here : ∃ step ∈ steps, slotOf base step = slot
  all_goals by_cases ht : ∃ step ∈ others, slotOf base step = slot
  all_goals simp only [here, ht]
  all_goals simp [eq_comm]

theorem finish_inj {m n : Nat} {e : Ending} (same : Ending.finish^[m] e = Ending.finish^[n] e) : m = n := by
  have count (n : Nat) : (Ending.finish^[n] e).argsDone = e.argsDone + n := by
    induction n with
    | zero => rfl
    | succ n ih =>
      rw [iterate_succ_apply', Ending.finish, ih]
      rfl
  have counts := congrArg Ending.argsDone same
  rw [count, count] at counts
  omega

def SendSub.upTo (s : SendSub) (sliceSteps n : Nat) : List Nat := (range n).map (s.done + sliceSteps * ·)

theorem upTo_succ (n : Nat) : s.upTo sliceSteps (n + 1) = s.upTo sliceSteps n ++ [s.done + sliceSteps * n] := by
  simp [SendSub.upTo, range_succ]

theorem clear_append (sizes : Nat → Option Nat) (base : Nat) (steps rest : List Nat) :
    clear sizes base (steps ++ rest) = clear (clear sizes base steps) base rest := foldl_append ..

theorem completed (n : Nat) : (complete sliceSteps)^[n] s =
    { s with
      requests := clear s.requests s.base (s.upTo sliceSteps n)
      connFifo := clear s.connFifo s.base (s.upTo sliceSteps n)
      done := s.done + sliceSteps * n
      sendHead := if s.shared ∨ n = 0 then s.sendHead else s.base + (s.done + sliceSteps * n)
      ending := Ending.finish^[(s.upTo sliceSteps n).countP (· + sliceSteps = s.nsteps)] s.ending } := by
  induction n with
  | zero => simp [SendSub.upTo, clear]
  | succ n ih =>
    rw [iterate_succ_apply', ih, complete, upTo_succ]
    by_cases last : s.done + sliceSteps * n + sliceSteps = s.nsteps
    all_goals by_cases shared : s.shared
    all_goals simp [last, shared, clear, Nat.mul_succ, ← Nat.add_assoc, iterate_succ_apply']

def SendSub.Carried (s : SendSub) (steps : List Nat) : Prop :=
  s.reg = true → ∀ step ∈ steps, s.nbytes ≤ (s.requests (slotOf s.base step)).getD 0

theorem finished (n : Nat) (carried : s.Carried (s.upTo sliceSteps n)) :
    (s.upTo sliceSteps n).foldl (finishStep sliceSteps) s =
      { s with
        connFifo := clear s.connFifo s.base (if s.reg then replicate n 0 else s.upTo sliceSteps n)
        sendHead :=
          if s.shared then s.sendHead
          else if s.reg then if s.nsteps ∈ s.upTo sliceSteps n then s.base + sliceSteps else s.sendHead
          else if n = 0 then s.sendHead else s.base + (s.done + sliceSteps * (n - 1))
        ending := Ending.finish^[(s.upTo sliceSteps n).count s.nsteps] s.ending } := by
  induction n with
  | zero => simp [SendSub.upTo, clear]
  | succ n ih =>
    simp only [upTo_succ] at carried ⊢
    rw [foldl_append, ih fun reg t mem => carried reg t (mem_append_left _ mem)]
    simp only [foldl_cons, finishStep, replicate_succ']
    cases reg : s.reg with
    | false =>
      by_cases last : s.done + sliceSteps * n = s.nsteps
      all_goals by_cases shared : s.shared
      all_goals simp [last, shared, clear, iterate_succ_apply']
    | true =>
      have whole := carried reg _ (mem_append_right _ mem_cons_self)
      simp only [Nat.not_lt.mpr whole]
      by_cases last : s.done + sliceSteps * n = s.nsteps
      all_goals by_cases shared : s.shared
      all_goals simp [last, Ne.symm, shared, clear, iterate_succ_apply']

theorem carried_of_nsteps (n : Nat) :
    s.nsteps ≤ ((s.upTo sliceSteps n).foldl (finishStep sliceSteps) s).nsteps ∧
      (((s.upTo sliceSteps n).foldl (finishStep sliceSteps) s).nsteps = s.nsteps → s.Carried (s.upTo sliceSteps n)) := by
  induction n with
  | zero => exact ⟨Nat.le_refl _, fun _ _ => by simp [SendSub.upTo]⟩
  | succ n ih =>
    have grows (s : SendSub) (step : Nat) : s.nsteps ≤ (finishStep sliceSteps s step).nsteps := by
      simp only [finishStep]
      repeat' split
      all_goals simp
    have grown := Nat.le_trans ih.1 (grows _ (s.done + sliceSteps * n))
    rw [upTo_succ, foldl_append]
    refine ⟨grown, fun same reg => ?_⟩
    have carried := ih.2 (Nat.le_antisymm (Nat.le_trans (grows _ _) (Nat.le_of_eq same)) ih.1)
    rw [finished n carried] at same
    refine forall_mem_append.mpr ⟨carried reg, forall_mem_singleton.mpr (Nat.not_lt.mp fun hs => ?_)⟩
    simp [finishStep, reg, hs] at same

theorem ends_twice (n : Nat) :
    (s.upTo sliceSteps n).countP (· + sliceSteps = s.nsteps) + (if s.done = s.nsteps then 1 else 0) =
      (s.upTo sliceSteps n).count s.nsteps + if s.done + sliceSteps * n = s.nsteps then 1 else 0 := by
  induction n with
  | zero => simp [SendSub.upTo]
  | succ n ih =>
    rw [upTo_succ, countP_append, count_append, countP_singleton, count_singleton, Nat.mul_succ,
      ← Nat.add_assoc s.done]
    simp only [beq_iff_eq, decide_eq_true_eq]
    omega

/-- The two agree with a restart at the first step that is not done, and beyond it only for a connection without a
head of its own, short of the op's end, where a registered buffer is announced in the slot of these steps. -/
structure SendSub.Agrees (s : SendSub) (sliceSteps restartPos : Nat) : Prop where
  inside : restartPos ≠ s.nsteps ∧ s.done ≠ s.nsteps
  head : s.shared = true ∨ s.reg = true ∧ s.sendHead = s.base + restartPos ∧
    s.nsteps ∉ stepsFrom sliceSteps s.done restartPos
  carried : s.Carried (stepsFrom sliceSteps s.done restartPos)
  slots : s.reg = true → ∀ slot, s.connFifo slot ≠ none →
    (slotOf s.base 0 = slot ↔ ∃ step ∈ stepsFrom sliceSteps s.done restartPos, slotOf s.base step = slot)

theorem rollBack_eq_iff (positive : 0 < sliceSteps) (low : s.done ≤ restartPos) (high : restartPos ≤ s.transmitted) :
    rollBack sliceSteps restartPos s =
        forget sliceSteps restartPos ((complete sliceSteps)^[(restartPos - s.done) / sliceSteps] s) ↔
      sliceSteps ∣ restartPos - s.done ∧ (restartPos = s.done ∨ s.Agrees sliceSteps restartPos) := by
  by_cases hw : sliceSteps ∣ restartPos - s.done
  · obtain ⟨n, _⟩ := hw
    obtain rfl : restartPos = s.done + sliceSteps * n := by omega
    have steps : stepsFrom sliceSteps s.done (s.done + sliceSteps * n) = s.upTo sliceSteps n := by
      rw [stepsFrom_append positive s.done n _ (Nat.le_refl _), stepsFrom_self positive, append_nil, SendSub.upTo]
    have count : (s.done + sliceSteps * n - s.done) / sliceSteps = n := by
      rw [Nat.add_sub_cancel_left, Nat.mul_div_cancel_left n positive]
    have freed := stepsFrom_append positive s.done n s.transmitted high
    rw [count, completed]
    cases n with
    | zero =>
      simp [rollBack, forget, stepsFrom_self positive, SendSub.upTo, clear]
    | succ m =>
      have twice := @ends_twice sliceSteps s (m + 1)
      have beyond : s.done + sliceSteps * (m + 1) ≠ s.done := by
        rw [Nat.mul_succ]
        omega
      simp only [Nat.add_sub_cancel_left, Nat.dvd_mul_right, beyond, true_and, false_or]
      constructor
      · intro same
        have ended := congrArg SendSub.nsteps same
        rw [rollBack, steps] at ended
        have carried := (carried_of_nsteps _).2 ended
        rw [rollBack, steps, finished _ carried] at same
        simp only [forget, SendSub.mk.injEq, true_and] at same
        obtain ⟨-, fifo, head, ending⟩ := same
        rw [finish_inj ending] at twice
        have inside : s.done + sliceSteps * (m + 1) ≠ s.nsteps ∧ s.done ≠ s.nsteps := by
          split at twice <;> split at twice <;> omega
        refine ⟨inside, ?_, steps ▸ carried, fun reg => ?_⟩
        · by_cases hs : s.shared = true
          · exact .inl hs
          have other : ¬ (s.shared = true ∨ m + 1 = 0) := by simp [hs]
          rw [if_neg hs, if_neg m.succ_ne_zero, Nat.mul_succ, Nat.add_sub_cancel] at head
          rw [steps]
          split at head
          next reg =>
            split at head
            next ht =>
              obtain ⟨k, hsm, _⟩ := mem_map.mp ht
              have before := Nat.mul_le_mul_left sliceSteps (Nat.le_of_lt_succ (mem_range.mp hsm))
              omega
            next he => exact .inr ⟨reg, head, he⟩
          · omega
        · rw [if_pos reg, clear_eq_iff] at fifo
          simpa [steps] using fifo
      · intro ha
        have carried := ha.carried
        rw [steps] at carried
        have counts : (s.upTo sliceSteps (m + 1)).countP (· + sliceSteps = s.nsteps) =
            (s.upTo sliceSteps (m + 1)).count s.nsteps := by
          simpa [ha.inside] using twice
        have fifo : clear s.connFifo s.base (if s.reg then replicate (m + 1) 0 else s.upTo sliceSteps (m + 1)) =
            clear s.connFifo s.base (s.upTo sliceSteps (m + 1)) := by
          split
          next reg =>
            have slots := ha.slots reg
            rw [clear_eq_iff]
            simpa [steps] using slots
          · rfl
        rw [rollBack, steps, finished _ carried]
        simp only [freed, clear_append, fifo, counts]
        rcases ha.head with hs | ⟨reg, head, he⟩
        · simp [hs]
          rfl
        · rw [steps] at he
          simp [reg, head, he]
          rfl
  · constructor
    · intro same
      have done := congrArg SendSub.done same
      rw [completed] at done
      simp only [rollBack, forget] at done
      exact absurd ⟨(restartPos - s.done) / sliceSteps, by omega⟩ hw
    · exact fun right => absurd right.1 hw

def sharedSteps : SendSub :=
  ⟨0, 2, 2, 0, false, true, 0, 0, fun _ => some 64, fun _ => some 64, 0, ⟨true, 1, 0⟩⟩

theorem shared_restart_agrees :
    rollBack 1 1 sharedSteps = forget 1 1 ((complete 1)^[(1 - 0) / 1] sharedSteps) :=
  (rollBack_eq_iff (by decide) (by decide) (by decide)).mpr
    ⟨by decide, .inr ⟨by decide, .inl rfl, nofun, nofun⟩⟩

/-- With a head of its own, and at the end of the op. -/
theorem restart_one_slice_behind :
    let s := { sharedSteps with shared := false }
    let right := forget 1 2 ((complete 1)^[(2 - 0) / 1] s)
    rollBack 1 2 s ≠ right ∧ (rollBack 1 2 s).sendHead = 1 ∧ right.sendHead = 2 ∧
      (rollBack 1 2 s).ending = ⟨true, 1, 0⟩ ∧ right.ending = ⟨false, 0, 1⟩ := by
  refine ⟨fun same => ?_, by decide⟩
  have heads := congrArg SendSub.sendHead same
  revert heads
  decide

end Vccl.Rollback.CatchUp
