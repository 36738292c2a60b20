import Vccl.Lib.Transition
import Vccl.P2p.Split
import Vccl.Psm.Progress

/-! The addresses that a sub of `recvProxyProgress` in `psm_net` gives to `irecv` and `iflush`. Signed overflow in an
address is left out. -/
namespace Vccl.Psm.Flush

open Transition
open P2p (ncclMaxNetSize)

/-- The sub at `index` of the args; the subs of its group have up to `rounds` steps. -/
structure Config where
  shared : Bool
  reg : Bool
  nsubs : Nat
  index : Nat
  channelId : Nat
  base : Nat
  nsteps : Nat
  rounds : Nat
  psmP2pNetChunkSize : Nat
  localBuff : Int
  recvbuff : Int

variable (cfg : Config)

def Config.buffSlot (step : Nat) : Nat := (cfg.base + step) % psmNetSteps

def sharedBuffersGet (chunkSize channel slot : Nat) : Int := toInt32 (chunkSize * (channel * psmNetSharedSteps + slot))

/-- The `int` that `transmit` keeps in `connFifo`. -/
def Config.offset (step : Nat) : Int :=
  if cfg.shared then
    sharedBuffersGet cfg.psmP2pNetChunkSize cfg.channelId (step % maxDepth cfg.nsubs * cfg.nsubs + cfg.index)
  else toInt32 (cfg.buffSlot step * cfg.psmP2pNetChunkSize)

/-- `buffSizes[p] / PSM_NET_STEPS`, the size of a dedicated buffer being kept in an `int`. -/
def Config.flushStepSize : Int := (toInt32 (cfg.psmP2pNetChunkSize * psmNetSteps)).tdiv psmNetSteps

structure State where
  posted : Nat
  received : Nat
  transmitted : Nat
  done : Nat
  connFifo : Nat → Int

/-- The earlier ops of the connection have left their offsets. -/
def initial (left : Nat → Int) : State := ⟨0, 0, 0, 0, left⟩

def irecvPtr (step : Nat) : Int :=
  if cfg.reg then cfg.recvbuff + step * ncclMaxNetSize
  else if cfg.shared then cfg.localBuff + cfg.offset step
  else cfg.localBuff + cfg.buffSlot step * toInt32 cfg.psmP2pNetChunkSize

/-- For the step `s.received`, when its message has come in. -/
def iflushPtr (s : State) : Int :=
  if cfg.reg then cfg.recvbuff + s.received * ncclMaxNetSize
  else if cfg.shared then cfg.localBuff + s.connFifo (cfg.buffSlot s.received)
  else cfg.localBuff + cfg.buffSlot s.received * cfg.flushStepSize

inductive Phase where
  | post
  | test
  | transmit
  | done

def step (s : State) : Phase → Option State
  | .post =>
    if s.posted < cfg.rounds ∧ (s.posted < cfg.nsteps → s.posted < s.done + maxDepth cfg.nsubs) then
      some { s with posted := s.posted + 1 }
    else none
  | .test => if s.received < s.posted then some { s with received := s.received + 1 } else none
  | .transmit =>
    if s.transmitted < s.received then
      some { s with
        transmitted := s.transmitted + 1
        connFifo := if s.transmitted < cfg.nsteps ∧ cfg.reg = false then
          Function.update s.connFifo (cfg.buffSlot s.transmitted) (cfg.offset s.transmitted) else s.connFifo }
    else none
  | .done => if s.done ≠ cfg.nsteps ∧ s.done < s.transmitted then some { s with done := s.done + 1 } else none

/-- What `connFifo` has for a step that is not transmitted: the offset of the last step in the same slot. -/
def Config.before (left : Nat → Int) (step : Nat) : Int :=
  if step < psmNetSteps then left (cfg.buffSlot step) else cfg.offset (step - psmNetSteps)

structure Inv (left : Nat → Int) (s : State) : Prop where
  order : s.done ≤ s.transmitted ∧ s.transmitted ≤ s.received ∧ s.received ≤ s.posted
  window : min s.posted cfg.nsteps ≤ s.done + psmNetSteps
  offsets : cfg.reg = false → ∀ k < cfg.nsteps, s.transmitted ≤ k → k < s.transmitted + psmNetSteps →
    s.connFifo (cfg.buffSlot k) = cfg.before left k

variable {cfg} {left : Nat → Int} {s s' : State}

theorem step_inv (a : Phase) (h : Inv cfg left s) (next : step cfg s a = some s') : Inv cfg left s' := by
  obtain ⟨_, hw, offsets⟩ := h
  cases a with
  | post =>
    obtain ⟨hg, ⟨⟩⟩ := Option.ite_none_right_eq_some.mp next
    have : maxDepth cfg.nsubs ≤ psmNetSteps := Nat.min_le_left _ _
    exact ⟨by grind, by grind, offsets⟩
  | test =>
    obtain ⟨hg, ⟨⟩⟩ := Option.ite_none_right_eq_some.mp next
    exact ⟨by grind, hw, offsets⟩
  | transmit =>
    obtain ⟨hg, ⟨⟩⟩ := Option.ite_none_right_eq_some.mp next
    constructor
    · grind
    · exact hw
    intro hs k hi (hb : _ + 1 ≤ k) (inWindow : k < _ + 1 + _)
    rw [if_pos ⟨by grind, hs⟩]
    by_cases last : k = s.transmitted + psmNetSteps
    · subst last
      simp [Config.buffSlot, ← Nat.add_assoc, Config.before]
    · have other : cfg.buffSlot k ≠ cfg.buffSlot s.transmitted := by
        simp only [Config.buffSlot, psmNetSteps] at inWindow last ⊢
        omega
      exact (Function.update_of_ne other _ _).trans (offsets hs k hi (by grind) (by grind))
  | done =>
    obtain ⟨hg, ⟨⟩⟩ := Option.ite_none_right_eq_some.mp next
    exact ⟨by grind, by grind, offsets⟩

/-- At a flush, the address is that of the receive unless the slot has the offset of another step or, with dedicated
buffers, the step size is not the one of the receive. -/
theorem flush_address_iff (reached : Reachable (step cfg) (initial left) s) (posted : s.received < s.posted)
    (inSteps : s.received < cfg.nsteps) :
    iflushPtr cfg s = irecvPtr cfg s.received ↔ cfg.reg = true ∨
      if cfg.shared then cfg.before left s.received = cfg.offset s.received
      else cfg.buffSlot s.received = 0 ∨ cfg.flushStepSize = toInt32 cfg.psmP2pNetChunkSize := by
  obtain ⟨ho, hw, offsets⟩ : Inv cfg left s := by
    apply reachable_invariant _ _ (fun _ a _ => step_inv a) reached
    constructor <;> simp +contextual [initial, Config.before]
  unfold iflushPtr irecvPtr
  cases reg : cfg.reg with
  | true => simp
  | false =>
    have here := offsets reg s.received inSteps ho.2.1 (by omega)
    cases shared : cfg.shared <;> simp [here, or_comm]

def channelOne : Config := ⟨true, false, 1, 0, 1, 0, 9, 9, 4194304, 0, 0⟩

/-- The first step of the first op: the slot has an offset only once the step is transmitted. -/
theorem first_flush_elsewhere :
    ∃ s, Reachable (step channelOne) (initial fun _ => 0) s ∧ s.received < s.posted ∧ s.received < channelOne.nsteps ∧
      iflushPtr channelOne s = 0 ∧ irecvPtr channelOne s.received = 67108864 :=
  ⟨_, ⟨[.post], rfl⟩, by decide, by decide, by decide, by decide⟩

/-- Eight steps later it has the offset of the same buffer. -/
theorem ninth_flush_in_place :
    ∃ s, Reachable (step channelOne) (initial fun _ => 0) s ∧ s.received = 8 ∧
      iflushPtr channelOne s = irecvPtr channelOne s.received := by
  let phases := (List.replicate 8 [Phase.post, .test, .transmit, .done]).flatten ++ [.post]
  refine ⟨_, ⟨phases, rfl⟩, rfl, (flush_address_iff ⟨phases, rfl⟩ ?_ ?_).mpr (.inr ?_)⟩ <;> decide +kernel

end Vccl.Psm.Flush
