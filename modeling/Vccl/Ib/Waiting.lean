import Vccl.Ib.Runs

/-! The requests that wait in `fifoReqs`. A run is observed together with the head for which each
request was handed out. -/
namespace Vccl.Ib

open Transition
open Function (update)

variable {cfg : Config} {s t : State}

def State.fifo (s : State) : (Nat → Nat → Option Nat) × Nat := (s.fifoReqs, s.fifoHead)

theorem fifo_decrementSends (i : Dev) (wrId n j : Nat) (s : State) :
    (decrementSends i wrId n j s).1.fifo = s.fifo := by
  induction n generalizing j s with
  | zero => rfl
  | succ n ih =>
    unfold decrementSends
    split
    · rfl
    · exact ih _ _

theorem fifo_handle (i : Dev) (wr : WorkRequest) (s : State) : (handle i wr s).1.fifo = s.fifo := by
  unfold handle
  simp only
  split
  · exact fifo_decrementSends ..
  · split <;> rfl

theorem fifo_process (k : Nat) (i : Dev) (batch : List Completion) (s : State) :
    (process k i batch s).1.fifo = s.fifo := by
  induction batch generalizing s with
  | nil => rfl
  | cons c rest ih =>
    have handled := fifo_handle i c.wr s
    unfold process
    split
    · split
      next hg =>
        rw [hg] at handled
        exact (ih _).trans handled
      · exact handled
    · rfl

theorem fifo_turns (k : Nat) (devs : List Dev) (s : State) (p : Poll) : (turns k devs s p).1.fifo = s.fifo := by
  induction devs generalizing s p with
  | nil => rfl
  | cons i rest ih =>
    have turned : (turn k i s p).1.1.fifo = s.fifo := by
      unfold turn
      split
      · rfl
      · exact (fifo_process ..).trans (by split <;> rfl)
    unfold turns
    split
    next hg =>
      rw [hg] at turned
      exact (ih _ _).trans turned
    next stopped =>
      rw [stopped] at turned
      exact turned

theorem fifo_testRound (k : Nat) (wcs : Nat → Completion) (s : State) : (testRound k wcs s).fifo = s.fifo := by
  unfold testRound
  split
  · rfl
  · exact fifo_turns ..

theorem fifo_postSends (wr : WorkRequest) (n : Nat) (s : State) : (postSends cfg wr n s).fifo = s.fifo := by
  induction n generalizing s with
  | zero => rfl
  | succ n ih => exact ih _

theorem fifo_multiSend (s : State) : (multiSend cfg s).fifo =
    (update s.fifoReqs (s.fifoHead % maxRequests) fun _ => none, s.fifoHead + 1) := by
  have kept := fun wr => @fifo_postSends cfg wr cfg.perMessage s
  simp only [State.fifo, Prod.mk.injEq] at kept
  simp [State.fifo, multiSend, kept]

theorem isend_fifo {r : Nat} (posted : isend cfg s r = some t) : ∃ k u,
    getRequest (followEntry cfg s) .send (fun _ => (cfg.entry s.fifoHead).nreqs) = some (k, u) ∧
      (t.fifo = (s.setMatched r k).fifo ∨
        t.fifo = (update s.fifoReqs (s.fifoHead % maxRequests) fun _ => none, s.fifoHead + 1)) := by
  unfold isend at posted
  obtain ⟨-, posted⟩ := Option.ite_none_right_eq_some.mp posted
  obtain ⟨⟨k, u⟩, got, rfl⟩ := Option.map_eq_some_iff.mp posted
  obtain ⟨-, -, same⟩ := getRequest_some got
  obtain ⟨-, reqs, head⟩ := followEntry_same cfg s
  obtain ⟨_, hc, -⟩ := addEvents_spec cfg k cfg.perMessage u.qpIndex u
  have kept : (addEvents cfg k cfg.perMessage u.qpIndex u).fifoReqs = s.fifoReqs ∧
      (addEvents cfg k cfg.perMessage u.qpIndex u).fifoHead = s.fifoHead := by
    rw [hc, same]
    exact ⟨reqs, head⟩
  refine ⟨k, u, got, ?_⟩
  simp only
  split
  · right
    simp [fifo_multiSend, State.setMatched, kept]
  · left
    simp [State.fifo, State.setMatched, kept]

def recordHead (cfg : Config) (s : State) (headOf : Nat → Nat) : Action → Nat → Nat
  | .isend _ =>
    match getRequest (followEntry cfg s) .send fun _ => (cfg.entry s.fifoHead).nreqs with
    | some (k, _) => update headOf k s.fifoHead
    | none => headOf
  | _ => headOf

def stepHeads (cfg : Config) (s : State × (Nat → Nat)) (a : Action) : Option (State × (Nat → Nat)) :=
  (step cfg s.1 a).map (·, recordHead cfg s.1 s.2 a)

/-- Only the slot of the head holds requests: distinct ones, in use and handed out for this head. -/
structure Waiting (s : State) (headOf : Nat → Nat) : Prop where
  elsewhere : ∀ slot r, slot ≠ s.fifoHead % maxRequests → s.fifoReqs slot r = none
  current : ∀ r k, s.fifoReqs (s.fifoHead % maxRequests) r = some k →
    k < maxRequests ∧ (s.reqs k).type = .send ∧ headOf k = s.fifoHead
  distinct : ∀ r r' k, s.fifoReqs (s.fifoHead % maxRequests) r = some k →
    s.fifoReqs (s.fifoHead % maxRequests) r' = some k → r = r'

def OfHead (s : State) (headOf : Nat → Nat) : Prop := ∀ slot r k, s.fifoReqs slot r = some k → headOf k = s.fifoHead

variable {headOf : Nat → Nat}

theorem OfHead.of_fifo (h : OfHead s headOf) (same : t.fifo = s.fifo) : OfHead t headOf := by
  obtain ⟨reqs, head⟩ := Prod.mk.inj same
  intro slot r k waits
  rw [head]
  exact h slot r k (reqs ▸ waits)

theorem OfHead.isend {r : Nat} (h : OfHead s headOf) (inv : Inv cfg s) (posted : isend cfg s r = some t) :
    OfHead t (recordHead cfg s headOf (.isend r)) := by
  obtain ⟨k, u, got, fifo⟩ := isend_fifo posted
  have waiting := (inv (cfg.dev 0)).waiting
  have recorded : recordHead cfg s headOf (.isend r) = Function.update headOf k s.fifoHead := by
    simp [recordHead, got]
  rcases fifo with hm | sent
  · refine OfHead.of_fifo ?_ hm
    rw [recorded]
    intro slot r' j waits
    by_cases new : j = k
    · simp [new, State.setMatched]
    · have before : s.fifoReqs slot r' = some j := by
        simp only [State.setMatched, Function.update_apply] at waits
        grind
      simpa [new, State.setMatched] using h slot r' j before
  · -- nothing waited in another slot, so nothing is left
    obtain ⟨reqs, -⟩ := Prod.mk.inj sent
    intro slot r' j waits
    rw [reqs, Function.update_apply] at waits
    split at waits
    · contradiction
    next other =>
      exact absurd (waiting slot r' j waits).1 other

theorem ofHead_step (s : State × (Nat → Nat)) (a : Action) (t : State × (Nat → Nat))
    (h : (Inv cfg s.1 ∧ Exact s.1) ∧ OfHead s.1 s.2) (orderly : Orderly cfg s.1 a)
    (stepped : stepHeads cfg s a = some t) : (Inv cfg t.1 ∧ Exact t.1) ∧ OfHead t.1 t.2 := by
  obtain ⟨next, ht, rfl⟩ := Option.map_eq_some_iff.mp stepped
  obtain ⟨kept, ofHead⟩ := h
  have inv := inv_step s.1 a next kept orderly ht
  have idle : (∀ slot r, next.fifoReqs slot r = none) → OfHead next (recordHead cfg s.1 s.2 a) := by
    intro none slot r k waits
    simp [none] at waits
  have receiver : cfg.isSend = false → OfHead next (recordHead cfg s.1 s.2 a) :=
    fun hr => idle ((inv.1 (cfg.dev 0)).role hr)
  refine ⟨inv, ?_⟩
  cases a with
  | irecv n =>
    apply receiver
    by_contra hs
    simp [step, irecv, hs] at ht
  | iflush =>
    apply receiver
    by_contra hs
    simp [step, iflush, hs] at ht
  | isend r => exact ofHead.isend kept.1 ht
  | test k wcs =>
    cases ht
    exact ofHead.of_fifo (fifo_testRound k wcs _)
  | complete q position ok =>
    obtain ⟨wr, -, rfl⟩ := Option.map_eq_some_iff.mp ht
    exact ofHead
  | fail q wr => cases ht; exact ofHead
  | setWarn d flag => cases ht; exact ofHead
  | free slots => cases ht; exact ofHead
  | rollBack slots head portUp =>
    cases ht
    exact idle orderly.2

/- Every entry asks for two requests. -/
def pairs : Config := { twoQueuePairs with
  isSend := true
  entry := fun _ => ⟨2, false⟩
  entries := fun _ => by decide }

end Vccl.Ib
