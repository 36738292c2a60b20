import Vccl.Psm.Flush

/-! The slots of `connFifo` over the ops of a connection of `psm_net`. The steps of an op are numbered on from those of the
ops before it, and a slot has a size as long as its step is in flight. -/
namespace Vccl.Psm.ConnFifo

open Transition
open Function (update update_self update_of_ne)
open P2p (ncclMaxNetSize)
open Flush (Phase)

/-- The plan gives a registered part the steps that start inside it; those of a staged one are counted when the op
starts. -/
structure Op where
  reg : Bool
  nbytes : Nat
  planned : Nat
  nsubs : Nat
  fits : reg = true → ∀ k < planned, k * ncclMaxNetSize ≤ nbytes

/-- `step` is `resources->step`; `connFifo` has the sizes. -/
structure Connection where
  step : Nat
  op : Op
  base : Nat
  posted : Nat
  received : Nat
  transmitted : Nat
  done : Nat
  connFifo : Nat → Int

/-- An op without steps stands for those that came before. -/
def initial : Connection := ⟨0, ⟨true, 0, 0, 1, by simp⟩, 0, 0, 0, 0, 0, fun _ => -1⟩

section Machine

variable (chunk : Nat)

def Op.nsteps (op : Op) : Nat := if op.reg then op.planned else storedSteps (divUp op.nbytes chunk)

/-- The bytes left of a staged part are a `size_t`. -/
def Op.size (op : Op) (step : Nat) : Int :=
  if op.reg then min ncclMaxNetSize (op.nbytes - step * ncclMaxNetSize)
  else min chunk ((op.nbytes - step * chunk) % 2 ^ 64)

variable (s : Connection)

def slot (k : Nat) : Nat := (s.base + k) % psmNetSteps

def fill (k : Nat) : Nat → Int := update s.connFifo (slot s k) (s.op.size chunk k)

def complete : Connection := { s with connFifo := update s.connFifo (slot s s.done) (-1), done := s.done + 1 }

/-- The ready state of the next args, which come to the front when the subs of these are done. -/
def start (op : Op) : Connection :=
  if s.done = s.op.nsteps chunk then ⟨s.step + op.nsteps chunk, op, s.step, 0, 0, 0, 0, s.connFifo⟩ else s

def testSend (tested : Bool) : Connection := if s.done < s.transmitted ∧ tested then complete s else s

/-- The turn of the sub in `sendProxyProgress`; `sent` says whether the copy is there and `isend` gives a request. An
error is `none`. -/
def sendTurn (sent tested : Bool) : Option Connection :=
  if s.done = s.op.nsteps chunk then some s
  else if s.posted < s.op.nsteps chunk ∧ s.posted < s.done + maxDepth s.op.nsubs then
    if s.connFifo (slot s s.posted) ≠ -1 then none
    else some { s with connFifo := fill chunk s s.posted, posted := s.posted + 1 }
  else if s.transmitted < s.posted ∧ s.transmitted < s.done + psmNetSteps then
    if s.connFifo (slot s s.transmitted) = -1 then none
    else some (if sent then { s with transmitted := s.transmitted + 1 } else testSend s tested)
  else some (testSend s tested)

/-- A phase of `recvProxyProgress` for the sub. A group goes on together, also past the steps of its shorter subs. -/
def recvPhase : Phase → Option Connection
  | .post => some <|
    if s.posted < s.op.nsteps chunk → s.posted < s.done + maxDepth s.op.nsubs then
      { s with posted := s.posted + 1 }
    else s
  | .test => some (if s.received < s.posted then { s with received := s.received + 1 } else s)
  | .transmit =>
    if s.transmitted < s.received then
      if s.transmitted < s.op.nsteps chunk then
        if s.connFifo (slot s s.transmitted) ≠ -1 then none
        else some { s with connFifo := fill chunk s s.transmitted, transmitted := s.transmitted + 1 }
      else some { s with transmitted := s.transmitted + 1 }
    else some s
  | .done => some (if s.done ≠ s.op.nsteps chunk ∧ s.done < s.transmitted then complete s else s)

def sendStep : Op ⊕ (Bool × Bool) → Option Connection
  | .inl op => some (start chunk s op)
  | .inr (sent, tested) => sendTurn chunk s sent tested

def recvStep : Op ⊕ Phase → Option Connection
  | .inl op => some (start chunk s op)
  | .inr phase => recvPhase chunk s phase

/-- The steps from `done` up to `hi` have a size in their slot, the other slots are free. -/
structure Window (hi : Nat) : Prop where
  order : s.done ≤ min hi (s.op.nsteps chunk) ∧ min hi (s.op.nsteps chunk) ≤ s.done + psmNetSteps
  slots : ∀ k, s.done ≤ k → k < s.done + psmNetSteps →
    (s.connFifo (slot s k) = -1 ↔ min hi (s.op.nsteps chunk) ≤ k)

structure SendInv : Prop where
  window : Window chunk s s.posted
  order : s.transmitted ≤ s.posted ∧ s.done ≤ s.transmitted ∧ s.posted ≤ s.op.nsteps chunk

structure RecvInv : Prop where
  window : Window chunk s s.transmitted
  order : s.transmitted ≤ s.received ∧ s.received ≤ s.posted ∧
    min s.posted (s.op.nsteps chunk) ≤ s.done + psmNetSteps

end Machine

variable {chunk hi : Nat} {s : Connection}

theorem size_nonneg {op : Op} {k : Nat} (inside : k < op.nsteps chunk) : 0 ≤ op.size chunk k := by
  unfold Op.nsteps at inside
  unfold Op.size
  split
  next hr =>
    have := op.fits hr k (by rwa [if_pos hr] at inside)
    omega
  · omega

theorem Window.free (h : Window chunk s hi) (more : hi < s.op.nsteps chunk) (room : hi < s.done + psmNetSteps) :
    ¬ s.connFifo (slot s hi) ≠ -1 := by
  have := h.order
  rw [not_not, h.slots hi (by omega) room]
  omega

theorem Window.fill (h : Window chunk s hi) (more : hi < s.op.nsteps chunk) (room : hi < s.done + psmNetSteps)
    (posted transmitted : Nat) :
    Window chunk { s with connFifo := fill chunk s hi, posted, transmitted } (hi + 1) := by
  obtain ⟨ho, slots⟩ := h
  refine ⟨by simp only; omega, ?_⟩
  intro k low high
  change update s.connFifo (slot s hi) (s.op.size chunk hi) (slot s k) = -1 ↔ min _ (s.op.nsteps chunk) ≤ k
  by_cases last : k = hi
  · have := size_nonneg more
    rw [last, update_self]
    omega
  · rw [update_of_ne (by simp only [slot, psmNetSteps] at *; omega), slots k low high]
    omega

theorem Window.complete (h : Window chunk s hi) (less : s.done < min hi (s.op.nsteps chunk)) :
    Window chunk (complete s) hi := by
  obtain ⟨ho, slots⟩ := h
  refine ⟨by simp only [ConnFifo.complete]; omega, ?_⟩
  intro k (low : _ + 1 ≤ k) (high : k < _ + 1 + _)
  change update s.connFifo (slot s s.done) (-1) (slot s k) = -1 ↔ min _ (s.op.nsteps chunk) ≤ k
  by_cases last : k = s.done + psmNetSteps
  · rw [last, slot, slot, ← Nat.add_assoc, Nat.add_mod_right, update_self]
    omega
  · rw [update_of_ne (by simp only [slot, psmNetSteps] at *; omega), slots k (by omega) (by omega)]

theorem Window.next (h : Window chunk s hi) (ended : s.done = s.op.nsteps chunk) (op : Op) :
    Window chunk ⟨s.step + op.nsteps chunk, op, s.step, 0, 0, 0, 0, s.connFifo⟩ 0 := by
  refine ⟨by simp, ?_⟩
  intro k _ _
  have free := h.slots (s.done + (s.step + k + 7 * (s.base + s.done)) % psmNetSteps)
  simp only [slot, psmNetSteps] at free ⊢
  rw [show (s.base + (s.done + (s.step + k + 7 * (s.base + s.done)) % 8)) % 8 = (s.step + k) % 8 by omega] at free
  have := free (by omega) (by omega)
  omega

theorem testSend_inv (h : SendInv chunk s) (tested : Bool) : SendInv chunk (testSend s tested) := by
  unfold testSend
  split
  next ready =>
    have := h.order
    exact ⟨h.window.complete (by omega), by simp only [complete]; omega⟩
  · exact h

theorem sendStep_inv (s : Connection) (e : Op ⊕ (Bool × Bool)) (h : SendInv chunk s) :
    ∃ t, sendStep chunk s e = some t ∧ SendInv chunk t := by
  have depth : maxDepth s.op.nsubs ≤ psmNetSteps := Nat.min_le_left _ _
  have order := h.order
  rcases e with op | ⟨sent, tested⟩
  · refine ⟨_, rfl, ?_⟩
    unfold start
    split
    next he => exact ⟨h.window.next he op, by simp⟩
    · exact h
  · simp only [sendStep, sendTurn]
    split
    · exact ⟨s, rfl, h⟩
    · split
      next room =>
        rw [if_neg (h.window.free room.1 (by omega))]
        exact ⟨_, rfl, h.window.fill room.1 (by omega) _ _, by simp only; omega⟩
      · split
        next hb =>
          rw [if_neg ((h.window.slots _ order.2.1 hb.2).not.mpr (by omega))]
          refine ⟨_, rfl, ?_⟩
          split
          · exact ⟨{ h.window with }, by simp only; omega⟩
          · exact testSend_inv h tested
        · exact ⟨_, rfl, testSend_inv h tested⟩

theorem recvStep_inv (s : Connection) (e : Op ⊕ Phase) (h : RecvInv chunk s) :
    ∃ t, recvStep chunk s e = some t ∧ RecvInv chunk t := by
  have depth : maxDepth s.op.nsubs ≤ psmNetSteps := Nat.min_le_left _ _
  have order := h.order
  have counts := h.window.order
  rcases e with op | _ | _ | _ | _
  · refine ⟨_, rfl, ?_⟩
    unfold start
    split
    next he => exact ⟨h.window.next he op, by simp⟩
    · exact h
  case inr.transmit =>
    simp only [recvStep, recvPhase]
    split
    · split
      next more =>
        rw [if_neg (h.window.free more (by omega))]
        exact ⟨_, rfl, h.window.fill more (by omega) _ _, by simp only; omega⟩
      · refine ⟨_, rfl, ⟨by simp only; omega, ?_⟩, by simp only; omega⟩
        intro k low high
        exact (h.window.slots k low high).trans (by simp only; omega)
    · exact ⟨s, rfl, h⟩
  all_goals
    refine ⟨_, rfl, ?_⟩
    split
  · exact ⟨{ h.window with }, by simp only; omega⟩
  · exact h
  · exact ⟨{ h.window with }, by simp only; omega⟩
  · exact h
  · exact ⟨h.window.complete (by omega), by simp only [complete]; omega⟩
  · exact h

/-- Whatever ops a connection has and however their steps complete, the branches that should never happen do not. -/
theorem fifo_errors_unreachable (chunk : Nat) :
    (∀ s, Reachable (sendStep chunk) initial s → ∀ e, sendStep chunk s e ≠ none) ∧
      ∀ s, Reachable (recvStep chunk) initial s → ∀ e, recvStep chunk s e ≠ none := by
  have unreachable {E : Type} {step : Connection → E → Option Connection} {inv : Connection → Prop}
      (first : inv initial) (kept : ∀ s e, inv s → ∃ t, step s e = some t ∧ inv t) (s : Connection)
      (reached : Reachable step initial s) (e : E) : step s e ≠ none := by
    have h : inv s := by
      apply reachable_invariant inv first _ reached
      intro s e t h next
      obtain ⟨t', same, later⟩ := kept s e h
      rw [same] at next
      cases next
      exact later
    obtain ⟨t, next, -⟩ := kept s e h
    simp [next]
  have window : Window chunk initial 0 := by
    constructor <;> simp [initial]
  constructor
  · exact unreachable ⟨window, by simp [initial]⟩ sendStep_inv
  · exact unreachable ⟨window, by simp [initial]⟩ recvStep_inv

end Vccl.Psm.ConnFifo
