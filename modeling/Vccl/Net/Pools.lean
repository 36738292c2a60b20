import Vccl.Lib.Wrap
import Vccl.Net.Progress
import Vccl.Psm.Progress

/-! The shared buffer of one direction: `sharedNetBuffersInit` sizes it for the channels of the first
caller, `sharedBuffersGet` cuts it. Sizes and offsets are `int`. A channel has one op in progress. -/
namespace Vccl.Net.Pools

inductive Transport where
  | net
  | psmNet
  deriving DecidableEq

def Transport.steps : Transport → Nat
  | .net => ncclSteps
  | .psmNet => Psm.psmNetSteps

def Transport.sharedSteps : Transport → Nat
  | .net => ncclSharedSteps
  | .psmNet => Psm.psmNetSharedSteps

def bufferSize (t : Transport) (nChannels chunkSize : Nat) : Int :=
  toInt32 (nChannels * t.sharedSteps * chunkSize : Nat)

def sharedBuffersGet (t : Transport) (chunkSize channel slot : Nat) : Int :=
  toInt32 (chunkSize * (channel * t.sharedSteps + slot) : Nat)

def maxDepth (t : Transport) (nsubs : Nat) : Nat := min t.steps (t.sharedSteps / nsubs)

structure InProgress (t : Transport) where
  nsubs : Nat → Nat
  done : Nat → Nat → Nat
  some' : ∀ channel, 0 < nsubs channel
  few : ∀ channel, nsubs channel ≤ t.sharedSteps

variable {t : Transport}

structure InProgress.Step (ops : InProgress t) where
  channel : Nat
  sub : Nat
  step : Nat
  inArgs : sub < ops.nsubs channel
  after : ops.done channel sub ≤ step
  before : step < ops.done channel sub + maxDepth t (ops.nsubs channel)

def InProgress.slot {ops : InProgress t} (p : ops.Step) : Nat :=
  p.step % maxDepth t (ops.nsubs p.channel) * ops.nsubs p.channel + p.sub

def offset {ops : InProgress t} (chunkSize : Nat) (p : ops.Step) : Int :=
  sharedBuffersGet t chunkSize p.channel (InProgress.slot p)

/-- Steps in flight on the first `channels` channels have ranges of their own, inside a buffer that a
caller with `allocated` channels has set up. -/
structure Separate (t : Transport) (chunkSize allocated channels : Nat) : Prop where
  inside : ∀ (ops : InProgress t) (p : ops.Step), p.channel < channels →
    0 ≤ offset chunkSize p ∧ offset chunkSize p + chunkSize ≤ bufferSize t allocated chunkSize
  disjoint : ∀ (ops : InProgress t) (p q : ops.Step), p.channel < channels → q.channel < channels → p ≠ q →
    offset chunkSize p + chunkSize ≤ offset chunkSize q ∨ offset chunkSize q + chunkSize ≤ offset chunkSize p

def globalSlot {ops : InProgress t} (p : ops.Step) : Nat := p.channel * t.sharedSteps + InProgress.slot p

variable {ops : InProgress t}

theorem offset_eq (chunkSize : Nat) (p : ops.Step) :
    offset chunkSize p = toInt32 (chunkSize * globalSlot p : Nat) := rfl

theorem slot_lt (p : ops.Step) : InProgress.slot p < t.sharedSteps := by
  have deep := Nat.mod_lt p.step (show 0 < maxDepth t (ops.nsubs p.channel) by have := p.after; have := p.before; omega)
  have all : maxDepth t (ops.nsubs p.channel) * ops.nsubs p.channel ≤ t.sharedSteps :=
    le_trans (Nat.mul_le_mul_right _ (Nat.min_le_right _ _)) (Nat.div_mul_le_self _ _)
  have row := Nat.mul_le_mul_right (ops.nsubs p.channel) deep
  have inArgs := p.inArgs
  rw [Nat.succ_mul] at row
  unfold InProgress.slot
  omega

theorem globalSlot_lt {p : ops.Step} {channels : Nat} (here : p.channel < channels) :
    globalSlot p < channels * t.sharedSteps := by
  have slot := slot_lt p
  have row := Nat.mul_le_mul_right t.sharedSteps here
  rw [Nat.succ_mul] at row
  unfold globalSlot
  omega

theorem globalSlot_inj {p q : ops.Step} (same : globalSlot p = globalSlot q) : p = q := by
  have left := slot_lt p
  have right := slot_lt q
  have channels : p.channel = q.channel := by
    have := congrArg (· / t.sharedSteps) same
    simpa [globalSlot, Nat.mul_add_div, Nat.mul_comm _ t.sharedSteps, Nat.zero_lt_of_lt left, Nat.div_eq_of_lt, left,
      right] using this
  obtain ⟨channel, sub, step, hi, _, _⟩ := p
  obtain ⟨_, sub', step', hi', _, _⟩ := q
  obtain rfl : channel = _ := channels
  have slots : step % maxDepth t (ops.nsubs channel) * ops.nsubs channel + sub =
      step' % maxDepth t (ops.nsubs channel) * ops.nsubs channel + sub' := Nat.add_left_cancel same
  obtain rfl : sub = sub' := by
    have := congrArg (· % ops.nsubs channel) slots
    simpa [Nat.mod_eq_of_lt hi, Nat.mod_eq_of_lt hi'] using this
  have rows := Nat.eq_of_mul_eq_mul_right (ops.some' channel) (Nat.add_right_cancel slots)
  obtain rfl : step = step' := Wrap.slot_inj rows (by omega) (by omega)
  rfl

def crowded (t : Transport) : InProgress t where
  nsubs := fun _ => t.sharedSteps
  done := fun _ _ => 0
  some' := fun _ => by cases t <;> decide
  few := fun _ => le_rfl

theorem crowded_uses {channels g : Nat} (inside : g < channels * t.sharedSteps) :
    ∃ p : (crowded t).Step, p.channel < channels ∧ globalSlot p = g := by
  have pos : 0 < t.sharedSteps := (crowded t).some' 0
  refine ⟨⟨g / t.sharedSteps, g % t.sharedSteps, 0, Nat.mod_lt g pos, le_rfl, ?_⟩, ?_, ?_⟩
  · show 0 < 0 + maxDepth t t.sharedSteps
    cases t <;> decide
  · exact Nat.div_lt_of_lt_mul (Nat.mul_comm _ t.sharedSteps ▸ inside)
  · simpa [globalSlot, InProgress.slot] using Nat.div_add_mod' g t.sharedSteps

end Vccl.Net.Pools
