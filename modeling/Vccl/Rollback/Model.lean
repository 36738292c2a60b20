import Vccl.Net.Progress

/-! A send and a receive op of one connection with fault tolerance on: `sendProxyProgress` with
`ncclIbRollBackSendProxyProgress`, `recvProxyProgress` with its rollback, the GPUs at both ends and
the network between them. Clear-to-send entries, and with them the messages and the requests of
both sides, are named by their `idx`. -/
namespace Vccl.Rollback

open Function (update)

open Net (ncclSteps SendSub RecvSub)

inductive Protocol where
  | ll
  | ll128
  | simple
  deriving DecidableEq

/-- Where the bytes of a slice are: in the connection's buffer, which has room for `NCCL_STEPS`
steps and is shared by slot number, or in a registered user buffer, each slice at its own place. -/
inductive Region where
  | slot (i : Nat)
  | user (step : Nat)
  deriving DecidableEq

def slotOf (base step : Nat) : Nat := (base + step) % ncclSteps

def region (reg : Bool) (base step : Nat) : Region :=
  if reg then .user step else .slot (slotOf base step)

/-- What does not change during the op. `data` is what the sender's GPU produces for the slice
that starts at a step; `fifo`, `sendHead` and `recvTail` are what the ops before have left. -/
structure Config (β : Type) where
  nsteps : Nat
  sliceSteps : Nat
  protocol : Protocol
  useGdr : Bool
  shared : Bool
  sendBase : Nat
  sendReg : Bool
  nbytes : Nat
  recvBase : Nat
  recvReg : Bool
  data : Nat → List β
  fifo : Nat
  sendHead : Int
  recvTail : Nat
  positive : 0 < sliceSteps
  aligned : sliceSteps ∣ ncclSteps
  whole : sliceSteps ∣ nsteps
  credits : sendHead ≤ sendBase
  tails : recvTail ≤ sendBase

variable {β : Type}

def Config.net (cfg : Config β) : Net.Config where
  sliceSteps := cfg.sliceSteps
  nsubs := 1
  positive := cfg.positive
  aligned := cfg.aligned

@[simp] theorem Config.net_sliceSteps (cfg : Config β) : cfg.net.sliceSteps = cfg.sliceSteps := rfl

def Config.source (cfg : Config β) (step : Nat) : Region := region cfg.sendReg cfg.sendBase step

def Config.target (cfg : Config β) (step : Nat) : Region := region cfg.recvReg cfg.recvBase step

structure Message where
  source : Region
  target : Region
  size : Nat
  landed : Bool

structure SyncEntry where
  recvFifoTail : Nat
  restartPos : Nat

/-- The send proxy and its GPU. `produced` is the next step of the GPU, `filling` whether it has
begun to write it; `flags` are those in the lines of LL and LL128, 0 while the GPU writes. -/
structure Sender (β : Type) where
  sub : SendSub
  nbytes : Nat
  needRollback : Bool
  hasRollback : Bool
  fifoHead : Nat
  syncFifoHead : Nat
  requests : Nat → Nat
  connFifo : Nat → Option Nat
  sendHead : Int
  recvTail : Nat
  buffer : Region → List β
  flags : Region → Nat
  produced : Nat
  filling : Bool

/-- The receive proxy and its GPU, which moves `head`. `published` has the step and the bytes of
each slice at the moment `recvTail` covered it. -/
structure Receiver (β : Type) where
  sub : RecvSub
  regBufferReady : Bool
  fifoTail : Nat
  requests : Nat → Nat
  head : Nat
  buffer : Region → List β
  published : List (Nat × List β)

structure State (β : Type) where
  send : Sender β
  recv : Receiver β
  cts : Nat → Option Region
  wire : Nat → Option Message
  sync : List SyncEntry

def initial (cfg : Config β) : State β where
  send :=
    { sub := ⟨cfg.nsteps, cfg.sendBase, 0, 0, 0⟩
      nbytes := cfg.nbytes
      needRollback := false
      hasRollback := false
      fifoHead := cfg.fifo
      syncFifoHead := 0
      requests := fun _ => 0
      connFifo := fun _ => none
      sendHead := cfg.sendHead
      recvTail := cfg.recvTail
      buffer := fun _ => []
      flags := fun _ => 0
      produced := 0
      filling := false }
  recv :=
    { sub := ⟨cfg.nsteps, cfg.recvBase, 0, 0, 0, 0⟩
      regBufferReady := false
      fifoTail := cfg.fifo
      requests := fun _ => 0
      head := 0
      buffer := fun _ => []
      published := [] }
  cts := fun _ => none
  wire := fun _ => none
  sync := []

inductive Outcome where
  | pending
  | success
  | error
  deriving DecidableEq

/-- `sync`, `cts`: the next entry has arrived. -/
structure SendAnswers where
  sync : Bool
  cts : Bool
  test : Outcome

structure RecvAnswers where
  bufferReady : Bool
  test : Outcome
  flushed : Bool

def finishStep (cfg : Config β) (size step : Nat) (s : Sender β) : Sender β :=
  let s :=
    if cfg.sendReg then
      if size < s.nbytes then
        { s with nbytes := s.nbytes - size, sub := { s.sub with nsteps := s.sub.nsteps + 1 } }
      else { s with connFifo := update s.connFifo (slotOf s.sub.base 0) none }
    else { s with connFifo := update s.connFifo (slotOf s.sub.base step) none }
  if cfg.shared then s
  else if cfg.sendReg then
    if step = s.sub.nsteps then { s with sendHead := s.sub.base + cfg.sliceSteps } else s
  else { s with sendHead := s.sub.base + step }

def finishSteps (cfg : Config β) (sizes : Nat → Nat) (restartPos : Nat) :
    Nat → Nat → Sender β → Sender β
  | 0, _, s => s
  | fuel + 1, step, s =>
    if step < restartPos then
      finishSteps cfg sizes restartPos fuel (step + cfg.sliceSteps)
        (finishStep cfg (sizes (slotOf s.sub.base step)) step s)
    else s

/-- `ncclIbRollBackSendProxyProgress` for the only sub of the connection. -/
def rollBack (cfg : Config β) (sizes : Nat → Nat) (entry : SyncEntry) (s : Sender β) : Sender β :=
  let s := finishSteps cfg sizes entry.restartPos (entry.restartPos - s.sub.done) s.sub.done s
  { s with
    fifoHead := entry.recvFifoTail
    syncFifoHead := s.syncFifoHead + 1
    sub := { s.sub with transmitted := entry.restartPos, done := entry.restartPos }
    needRollback := false
    hasRollback := true }

def State.requestSize (s : State β) (slot : Nat) : Nat :=
  match s.wire (s.send.requests slot) with
  | some message => message.size
  | none => 0

def post (cfg : Config β) (s : Sender β) : Sender β :=
  let posted := s.sub.posted + cfg.sliceSteps
  { s with
    sub := { s.sub with posted }
    sendHead := if cfg.shared then s.sub.base + posted - ncclSteps else s.sendHead }

/-- The GPU has produced the step to send, as far as the protocol lets the proxy see it. -/
def ready (cfg : Config β) (s : Sender β) : Bool :=
  let tail := decide (s.sub.base + s.sub.transmitted < s.recvTail)
  let flag := decide (s.flags (cfg.source s.sub.transmitted) = s.sub.base + s.sub.transmitted + 1)
  match cfg.protocol with
  | .simple => tail
  | .ll128 => tail && (cfg.useGdr || flag)
  | .ll => flag

def transmit (cfg : Config β) (s : State β) (cts : Bool) : Option (State β) :=
  let sub := s.send.sub
  let slot := slotOf sub.base sub.transmitted
  let idx := s.send.fifoHead + 1
  if sub.transmitted < sub.posted ∧ sub.transmitted < sub.done + ncclSteps ∧ ready cfg s.send ∧ cts then
    match s.send.connFifo slot, s.cts idx with
    | some size, some target =>
      some { s with
        send := { s.send with
          sub := { sub with transmitted := sub.transmitted + cfg.sliceSteps }
          fifoHead := idx
          requests := update s.send.requests slot idx }
        wire := update s.wire idx (some ⟨cfg.source sub.transmitted, target, size, false⟩) }
    | _, _ => none
  else none

def complete (cfg : Config β) (s : Sender β) : Sender β :=
  let done := s.sub.done + cfg.sliceSteps
  { s with
    sub := { s.sub with done }
    connFifo := update s.connFifo (slotOf s.sub.base s.sub.done) none
    sendHead := if cfg.shared then s.sendHead else s.sub.base + done }

def landedAt (wire : Nat → Option Message) (idx : Nat) : Bool :=
  match wire idx with
  | some message => message.landed
  | none => false

def testSend (cfg : Config β) (s : State β) (test : Outcome) : Option (State β) :=
  if s.send.sub.done < s.send.sub.transmitted then
    match test with
    | .pending => some s
    | .error => some { s with send := { s.send with needRollback := true } }
    | .success =>
      if landedAt s.wire (s.send.requests (slotOf s.send.sub.base s.send.sub.done)) then
        some { s with send := complete cfg s.send }
      else none
  else some s

def State.rollsBackTo (s : State β) (answers : SendAnswers) : Option SyncEntry :=
  if s.send.sub.done ≠ s.send.sub.nsteps ∧ s.send.hasRollback = false ∧ answers.sync then
    s.sync[s.send.syncFifoHead]?
  else none

def sendProxyProgress (cfg : Config β) (s : State β) (answers : SendAnswers) : Option (State β) :=
  if s.send.sub.done = s.send.sub.nsteps then some s
  else
    match s.rollsBackTo answers with
    | some entry => some { s with send := rollBack cfg s.requestSize entry s.send }
    | none =>
      if s.send.needRollback then some s
      else if s.send.sub.posted < s.send.sub.nsteps ∧
          s.send.sub.posted < s.send.sub.done + cfg.net.depth then
        some { s with send := post cfg s.send }
      else
        match transmit cfg s answers.cts with
        | some s' => some s'
        | none => testSend cfg s answers.test

def postRecv (cfg : Config β) (s : State β) : State β :=
  let sub := s.recv.sub
  let idx := s.recv.fifoTail + 1
  { s with
    recv := { s.recv with
      sub := { sub with posted := sub.posted + cfg.sliceSteps }
      regBufferReady := true
      fifoTail := idx
      requests := update s.recv.requests (sub.posted % ncclSteps) idx }
    cts := update s.cts idx (some (cfg.target sub.posted)) }

def rollBackRecv (s : State β) : State β :=
  let fifoTail := s.recv.fifoTail + 1000
  { s with
    recv := { s.recv with
      sub := { s.recv.sub with posted := s.recv.sub.received }
      fifoTail }
    sync := s.sync ++ [⟨fifoTail, s.recv.sub.received⟩] }

/-- A step of the sub is published: `recvTail` becomes `base + transmitted`. -/
def publish (cfg : Config β) (r : Receiver β) : Receiver β :=
  { r with
    sub := { r.sub with transmitted := r.sub.transmitted + cfg.sliceSteps }
    published :=
      if r.sub.transmitted < r.sub.nsteps then
        r.published ++ [(r.sub.transmitted, r.buffer (cfg.target r.sub.transmitted))]
      else r.published }

/-- The phases of `recvProxyProgress` after the receives: flushed slices are published, then those
the GPU has consumed are taken off. -/
def drain (cfg : Config β) (r : Receiver β) (flushed : Bool) : Receiver β :=
  if r.sub.transmitted < r.sub.received ∧ flushed then publish cfg r
  else { r with sub := (Net.doneSub cfg.net r.head r.sub).1 }

def recvProxyProgress (cfg : Config β) (s : State β) (answers : RecvAnswers) : Option (State β) :=
  if s.recv.sub.posted < s.recv.sub.nsteps ∧ s.recv.sub.posted < s.recv.sub.done + cfg.net.depth ∧
      (cfg.recvReg = false ∨ s.recv.regBufferReady ∨ answers.bufferReady) then
    some (postRecv cfg s)
  else if s.recv.sub.received < s.recv.sub.posted then
    match answers.test with
    | .success =>
      if landedAt s.wire (s.recv.requests (s.recv.sub.received % ncclSteps)) then
        some { s with recv := { s.recv with
          sub := { s.recv.sub with received := s.recv.sub.received + cfg.sliceSteps } } }
      else none
    | .error => some (rollBackRecv s)
    | .pending => some { s with recv := drain cfg s.recv answers.flushed }
  else some { s with recv := drain cfg s.recv answers.flushed }

/-- `gpuBegin`: the sender's GPU has room for its next step and sets `connFifo[].size`; until
`gpuEnd` its buffer has any bytes. `land`: a message arrives, `scribble`: a part of it does. -/
inductive Action (β : Type) where
  | send (answers : SendAnswers)
  | recv (answers : RecvAnswers)
  | gpuBegin (bytes : List β)
  | gpuEnd
  | gpuConsume (steps : Nat)
  | land (idx : Nat)
  | scribble (idx : Nat) (bytes : List β)

def gpuBegin (cfg : Config β) (bytes : List β) (s : Sender β) : Option (Sender β) :=
  if s.filling = false ∧ s.produced < cfg.nsteps ∧
      (cfg.sendBase + s.produced + cfg.sliceSteps : Int) ≤ s.sendHead + ncclSteps then
    some { s with
      filling := true
      connFifo := update s.connFifo (slotOf cfg.sendBase s.produced)
        (some (cfg.data s.produced).length)
      buffer := update s.buffer (cfg.source s.produced) bytes
      flags := update s.flags (cfg.source s.produced) 0 }
  else none

def gpuEnd (cfg : Config β) (s : Sender β) : Option (Sender β) :=
  if s.filling then
    some { s with
      filling := false
      produced := s.produced + cfg.sliceSteps
      recvTail := cfg.sendBase + s.produced + cfg.sliceSteps
      buffer := update s.buffer (cfg.source s.produced) (cfg.data s.produced)
      flags := update s.flags (cfg.source s.produced) (cfg.sendBase + s.produced + 1) }
  else none

def State.deliver (s : State β) (idx : Nat) (m : Message) (bytes : List β) (landed : Bool) : State β :=
  { s with
    recv := { s.recv with buffer := update s.recv.buffer m.target bytes }
    wire := update s.wire idx (some { m with landed }) }

def step (cfg : Config β) (s : State β) : Action β → Option (State β)
  | .send answers => sendProxyProgress cfg s answers
  | .recv answers => recvProxyProgress cfg s answers
  | .gpuBegin bytes => (gpuBegin cfg bytes s.send).map fun send => { s with send }
  | .gpuEnd => (gpuEnd cfg s.send).map fun send => { s with send }
  | .gpuConsume steps => some { s with recv := { s.recv with head := s.recv.head + steps } }
  | .land idx =>
    match s.wire idx with
    | some m =>
      -- the network card reads the sender's buffer now, not when the send was posted
      if m.landed then none else some (s.deliver idx m ((s.send.buffer m.source).take m.size) true)
    | none => none
  | .scribble idx bytes =>
    match s.wire idx with
    | some m => if m.landed then none else some (s.deliver idx m bytes false)
    | none => none

def State.epoch (cfg : Config β) (s : State β) : SyncEntry := s.sync.getLastD ⟨cfg.fifo, 0⟩

/-- The slices published so far are the first ones of the sender, and those the GPU has not
consumed are in place. -/
structure Delivered (cfg : Config β) (s : State β) : Prop where
  log : ∃ n, s.recv.sub.transmitted = n * cfg.sliceSteps ∧ s.recv.published =
    (List.range n).map fun j => (j * cfg.sliceSteps, cfg.data (j * cfg.sliceSteps))
  intact : ∀ step, cfg.sliceSteps ∣ step → step < s.recv.sub.transmitted →
    s.recv.head ≤ cfg.recvBase + step → s.recv.buffer (cfg.target step) = cfg.data step

end Vccl.Rollback
