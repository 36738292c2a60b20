import Vccl.Lib.Transition
import Vccl.Lib.Wrap

/-! The work FIFO: `uploadWork` and `waitWorkFifoAvailable` on the host, interleaved with
the kernel blocks that load work batches and publish `workConsumed`. The blocks of different
channels are not ordered, not even those of different kernels. -/
namespace Vccl.WorkFifo

open Function (update)

def maxChannels : Nat := 64

abbrev Channel := Fin maxChannels

def word : Nat := 2 ^ 32

/-- `workFifoBytes`, a power of two. -/
structure Fifo where
  log2Bytes : Nat
  limit : log2Bytes ≤ 30

def Fifo.bytes (f : Fifo) : Nat := 2 ^ f.log2Bytes

/-- The byte of the buffer a cursor stands for: `cursor & (workFifoBytes-1)`. -/
def Fifo.slot (f : Fifo) (cursor : Nat) : Nat := cursor &&& (f.bytes - 1)

/-- A work struct, by its offset in the plan or, once uploaded, its cursor in the FIFO. -/
structure Work where
  offset : Nat
  size : Nat
  deriving DecidableEq

/-- The works a block loads at once: a batch with its extension batches. -/
abbrev Batch := List Work

/-- The successor of the last byte a batch uses, what the block publishes after the load. -/
def Batch.consumed (b : Batch) : Nat :=
  match b.getLast? with
  | none => 0
  | some w => w.offset + w.size

/-- Consecutive batches of one channel lie one behind the other in `[lo, hi)`. -/
def Chain : Nat → Nat → List Batch → Prop
  | lo, hi, [] => lo ≤ hi
  | lo, hi, b :: rest =>
    b ≠ [] ∧ lo ≤ b.consumed ∧ (∀ w ∈ b, lo ≤ w.offset ∧ w.offset + w.size ≤ b.consumed) ∧
      Chain b.consumed hi rest

/-- A plan stored in the FIFO. Work offsets are handed out in increasing order, so the batches
of each channel are in that order too. -/
structure Plan where
  workBytes : Nat
  batches : Channel → List Batch
  ordered : ∀ c, Chain 0 workBytes (batches c)

inductive Pc where
  | idle
  | loading (plan : Plan) (next : Nat) (consumed : Channel → Nat)
  | storing (plan : Plan) (consumed : Channel → Nat) (consumedLeast next : Nat)
  | writing (plan : Plan)

structure State where
  workFifoProduced : Nat
  workFifoConsumedLeast : Nat
  channelProduced : Channel → Nat
  workConsumed : Channel → Nat
  toLoad : Channel → List Batch
  loaded : Channel → Option Nat
  pc : Pc

def initial : State where
  workFifoProduced := 0
  workFifoConsumedLeast := 0
  channelProduced := fun _ => 0
  workConsumed := fun _ => 0
  toLoad := fun _ => []
  loaded := fun _ => none
  pc := .idle

def hasRoom (f : Fifo) (s : State) (plan : Plan) : Bool :=
  let desiredProduced := (s.workFifoProduced + plan.workBytes) % word
  decide (Wrap.sub word desiredProduced s.workFifoConsumedLeast ≤ f.bytes)

def leastStep (produced : Nat) (channelProduced consumed : Channel → Nat) (least : Nat)
    (c : Channel) : Nat :=
  if consumed c ≠ channelProduced c ∧
      Wrap.sub word produced least < Wrap.sub word produced (consumed c)
  then consumed c else least

/-- The counter farthest behind `produced` of the channels not taken as quiesced. -/
def leastConsumed (produced : Nat) (channelProduced consumed : Channel → Nat) : Nat :=
  (List.finRange maxChannels).foldl (leastStep produced channelProduced consumed) produced

def translate (fifoCursor : Nat) (b : Batch) : Batch :=
  b.map fun w => { w with offset := (w.offset + fifoCursor) % word }

inductive Action where
  | submit (plan : Plan)
  | host
  | load (c : Channel)
  | publish (c : Channel)

def startPoll (s : State) (plan : Plan) : State := { s with pc := .loading plan 0 fun _ => 0 }

def hostStep (f : Fifo) (s : State) : Option State :=
  match s.pc with
  | .idle => none
  | .loading plan next consumed =>
    if inside : next < maxChannels then
      let c : Channel := ⟨next, inside⟩
      some { s with pc := .loading plan (next + 1) (update consumed c (s.workConsumed c)) }
    else
      let least := leastConsumed s.workFifoProduced s.channelProduced consumed
      some { s with pc := .storing plan consumed least 0 }
  | .storing plan consumed least next =>
    if inside : next < maxChannels then
      let c : Channel := ⟨next, inside⟩
      let s' := { s with pc := .storing plan consumed least (next + 1) }
      if consumed c = s.channelProduced c then
        some { s' with
          channelProduced := update s.channelProduced c least
          workConsumed := update s.workConsumed c least }
      else some s'
    else
      let s' := { s with workFifoConsumedLeast := least }
      some (if hasRoom f s' plan then { s' with pc := .writing plan } else startPoll s' plan)
  | .writing plan =>
    some { s with
      workFifoProduced := (s.workFifoProduced + plan.workBytes) % word
      toLoad := fun c => s.toLoad c ++ (plan.batches c).map (translate s.workFifoProduced)
      pc := .idle }

def step (f : Fifo) (s : State) : Action → Option State
  | .submit plan =>
    -- the planner fills at most half of the FIFO for one kernel
    match s.pc with
    | .idle =>
      if plan.workBytes ≤ f.bytes / 2 then
        some (if hasRoom f s plan then { s with pc := .writing plan } else startPoll s plan)
      else none
    | _ => none
  | .host => hostStep f s
  | .load c =>
    match s.loaded c, s.toLoad c with
    | none, b :: rest =>
      some { s with
        toLoad := update s.toLoad c rest
        loaded := update s.loaded c (some (b.consumed % word)) }
    | _, _ => none
  | .publish c =>
    match s.loaded c with
    | some value =>
      some { s with
        workConsumed := update s.workConsumed c value
        loaded := update s.loaded c none }
    | none => none

/-- The bytes about to be written are none of a work struct still to be loaded. -/
def WritesFreeBytes (f : Fifo) (s : State) : Prop :=
  ∀ plan, s.pc = .writing plan → ∀ c, ∀ b ∈ s.toLoad c, ∀ w ∈ b, ∀ i < w.size,
    ∀ j < plan.workBytes, f.slot (w.offset + i) ≠ f.slot (s.workFifoProduced + j)

/-- Every channel the poll is about to take as quiesced has loaded and published all that was
uploaded for it. -/
def QuiescedForReal (s : State) : Action → Prop
  | .host => ∀ plan next consumed, s.pc = .loading plan next consumed → maxChannels ≤ next →
      ∀ c, consumed c = s.channelProduced c → s.toLoad c = [] ∧ s.loaded c = none
  | _ => True

end Vccl.WorkFifo
