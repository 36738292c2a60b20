import Vccl.P2p.Steps
import Vccl.Psm.Progress
import Vccl.Lib.Transition

/-! A send/recv pair over `psm_net`: one sub of `sendProxyProgress` and the matching one of
`recvProxyProgress`, the copies their streams make and the messages between them. What the other
subs of the two args do is an answer to a pass. -/
namespace Vccl.Psm.NetPair

open Function (update)

open P2p (Comm Transfer Direction planDirection protocolOf proxyNsteps ncclMaxNetSize)

/-- One end: what was planned for its direction, and where its sub is. The args of a p2p batch have
few subs, so there is room for a step of each in the shared buffer. -/
structure End where
  direction : Direction
  shared : Bool
  nsubs : Nat
  index : Nat
  channelId : Nat
  base : Nat
  inArgs : index < nsubs
  fewSubs : nsubs ≤ psmNetSharedSteps

def End.reg (e : End) : Bool := e.direction.netRegistered

def End.depth (e : End) : Nat := maxDepth e.nsubs

def End.fifoSlot (e : End) (step : Nat) : Nat := (e.base + step) % psmNetSteps

/-- Which of its staging buffers a step uses: in a shared pool the sub has one for each step in flight. -/
def End.stage (e : End) (step : Nat) : Nat := if e.shared then step % e.depth else e.fifoSlot step

/-- A pair of ranks with the same parameters; `chunk` is `psmP2pNetChunkSize`, kept in an `int` by
the receiver. Another sub of the receiver's group may have more steps, up to `others`. -/
structure Config where
  comm : Comm
  sendTransfer : Transfer
  recvTransfer : Transfer
  send : End
  recv : End
  plannedSend : planDirection comm sendTransfer = some send.direction
  plannedRecv : planDirection comm recvTransfer = some recv.direction
  sameBytes : sendTransfer.bytes = recvTransfer.bytes
  part : Nat
  sendPart : part < send.direction.nParts
  recvPart : part < recv.direction.nParts
  chunk : Nat
  someChunk : 0 < chunk
  chunkFits : chunk < 2 ^ 31
  others : Nat

namespace Config

variable (cfg : Config)

def nbytes (e : End) : Nat := e.direction.partSize cfg.part

def stepSize (e : End) : Nat := if e.reg then ncclMaxNetSize else cfg.chunk

/-- `sub->nsteps`: as planned for a registered buffer, computed anew for the staged ones. -/
def nsteps (e : End) : Nat :=
  if e.reg then toSizeT ((proxyNsteps e.direction cfg.part).getD 0)
  else storedSteps (divUp (cfg.nbytes e) cfg.chunk)

def rounds : Nat := max (cfg.nsteps cfg.recv) cfg.others

def size (e : End) (step : Nat) : Nat := min (cfg.stepSize e) (cfg.nbytes e - step * cfg.stepSize e)

def pieces (e : End) : List (Nat × Nat) :=
  (List.range (cfg.nsteps e)).map fun step => (step * cfg.stepSize e, cfg.size e step)

/-- The `int` offset of a staging buffer (`sharedBuffersGet`). -/
def stageOffset (e : End) (step : Nat) : Int :=
  if e.shared then
    toInt32 (cfg.chunk * (e.channelId * psmNetSharedSteps + (step % e.depth * e.nsubs + e.index)) : Nat)
  else toInt32 (e.fifoSlot step * cfg.chunk : Nat)

def staged (e : End) (step : Nat) : Bool := e.reg || decide (0 ≤ cfg.stageOffset e step)

end Config

/-- `connFifo` has the sizes, `none` for -1; `copied` the steps whose copy the stream has made, and
`buff` the staging buffers. `finished` says that the sub was added to `args->done`. -/
structure Sender (β : Type) where
  posted : Nat
  transmitted : Nat
  done : Nat
  connFifo : Nat → Option Nat
  copied : Nat → Bool
  buff : Nat → Nat → β
  finished : Bool

structure Receiver (β : Type) where
  posted : Nat
  received : Nat
  transmitted : Nat
  done : Nat
  connFifo : Nat → Option Nat
  copied : Nat → Bool
  buff : Nat → Nat → β
  dst : Nat → β
  finished : Bool

/-- The sizes given to `isend` and `irecv` in their order, and which messages have arrived. -/
structure State (β : Type) where
  send : Sender β
  recv : Receiver β
  sends : List Nat
  recvs : List Nat
  delivered : Nat → Bool

variable {β : Type}

def initial (sendBuff recvBuff : Nat → Nat → β) (dst : Nat → β) : State β where
  send := ⟨0, 0, 0, fun _ => none, fun _ => false, sendBuff, false⟩
  recv := ⟨0, 0, 0, 0, fun _ => none, fun _ => false, recvBuff, dst, false⟩
  sends := []
  recvs := []
  delivered := fun _ => false

def write (target source : Nat → β) (start origin n : Nat) : Nat → β := fun o =>
  if start ≤ o ∧ o < start + n then source (origin + (o - start)) else target o

def Sender.canPost (cfg : Config) (s : Sender β) : Bool :=
  decide (s.posted < cfg.nsteps cfg.send ∧ s.posted < s.done + cfg.send.depth)

def Sender.canSend (s : Sender β) : Bool :=
  decide (s.transmitted < s.posted ∧ s.transmitted < s.done + psmNetSteps)

def post (cfg : Config) (s : State β) : Option (State β) :=
  let slot := cfg.send.fifoSlot s.send.posted
  if s.send.connFifo slot ≠ none ∨ cfg.staged cfg.send s.send.posted = false then none
  else some
    { s with
      send := { s.send with
        connFifo := update s.send.connFifo slot (some (cfg.size cfg.send s.send.posted))
        posted := s.send.posted + 1 } }

def isend (size : Nat) (s : State β) : State β :=
  { s with
    sends := s.sends ++ [size]
    send := { s.send with transmitted := s.send.transmitted + 1 } }

def test (cfg : Config) (s : State β) : State β :=
  { s with
    send := { s.send with
      connFifo := update s.send.connFifo (cfg.send.fifoSlot s.send.done) none
      done := s.send.done + 1
      finished := s.send.finished || decide (s.send.done + 1 = cfg.nsteps cfg.send) } }

def trySendTest (cfg : Config) (s : State β) : State β :=
  if s.send.done < s.send.transmitted ∧ s.delivered s.send.done then test cfg s else s

/-- The turn of the sub in `sendProxyProgress`; `accepted` says whether `isend` gives a request. -/
def sendTurn (cfg : Config) (accepted : Bool) (s : State β) : Option (State β) :=
  if s.send.done = cfg.nsteps cfg.send then some s
  else if s.send.canPost cfg then post cfg s
  else if s.send.canSend then
    match s.send.connFifo (cfg.send.fifoSlot s.send.transmitted) with
    | none => none
    | some size =>
      if (cfg.send.reg || s.send.copied s.send.transmitted) && accepted then some (isend size s)
      else some (trySendTest cfg s)
  else some (trySendTest cfg s)

inductive Outcome (σ : Type) where
  | moved (s : σ)
  | idle
  | error

/-- A group with a sub that cannot go on posts nothing; a sub without steps left is only counted. -/
def recvPost (cfg : Config) (accepted : Bool) (s : State β) : Outcome (State β) :=
  let r := s.recv
  if r.posted < cfg.rounds ∧ accepted then
    if r.posted < cfg.nsteps cfg.recv then
      if r.done + cfg.recv.depth ≤ r.posted then .idle
      else if cfg.staged cfg.recv r.posted = false then .error
      else .moved
        { s with
          recvs := s.recvs ++ [cfg.size cfg.recv r.posted]
          recv := { r with posted := r.posted + 1 } }
    else .moved { s with recv := { r with posted := r.posted + 1 } }
  else .idle

def recvTest (cfg : Config) (s : State β) : Outcome (State β) :=
  let r := s.recv
  if r.received < r.posted ∧ (r.received < cfg.nsteps cfg.recv → s.delivered r.received) then
    .moved { s with recv := { r with received := r.received + 1 } }
  else .idle

def recvTransmit (cfg : Config) (flushed : Bool) (s : State β) : Outcome (State β) :=
  let r := s.recv
  if r.transmitted < r.received ∧ flushed then
    if r.transmitted < cfg.nsteps cfg.recv then
      let slot := cfg.recv.fifoSlot r.transmitted
      if r.connFifo slot ≠ none then .error
      else .moved
        { s with
          recv := { r with
            connFifo := update r.connFifo slot (some (cfg.size cfg.recv r.transmitted))
            transmitted := r.transmitted + 1 } }
    else .moved { s with recv := { r with transmitted := r.transmitted + 1 } }
  else .idle

def recvDone (cfg : Config) (s : State β) : Outcome (State β) :=
  let r := s.recv
  if r.done ≠ cfg.nsteps cfg.recv ∧ r.done < r.transmitted ∧ (cfg.recv.reg || r.copied r.done) then
    .moved
      { s with
        recv := { r with
          connFifo := update r.connFifo (cfg.recv.fifoSlot r.done) none
          done := r.done + 1
          finished := r.finished || decide (r.done + 1 = cfg.nsteps cfg.recv) } }
  else .idle

/-- Whether `irecv` gives a request and a flush is over, and in which phases another sub of the args
has moved, so that the pass ends there. -/
structure Answers where
  accepted : Bool
  flushed : Bool
  busyPost : Bool
  busyTest : Bool
  busyTransmit : Bool

def Outcome.andThen (outcome : Outcome (State β)) (busy : Bool) (s : State β) (rest : Option (State β)) :
    Option (State β) :=
  match outcome with
  | .moved s' => some s'
  | .error => none
  | .idle => if busy then some s else rest

def recvPass (cfg : Config) (answers : Answers) (s : State β) : Option (State β) :=
  (recvPost cfg answers.accepted s).andThen answers.busyPost s <|
  (recvTest cfg s).andThen answers.busyTest s <|
  (recvTransmit cfg answers.flushed s).andThen answers.busyTransmit s <|
  (recvDone cfg s).andThen false s (some s)

def sendCopy (cfg : Config) (src : Nat → β) (step : Nat) (s : State β) : Option (State β) :=
  if cfg.send.reg = false ∧ step < s.send.posted ∧ s.send.copied step = false then
    let stage := cfg.send.stage step
    some
      { s with
        send := { s.send with
          copied := update s.send.copied step true
          buff := update s.send.buff stage
            (write (s.send.buff stage) src 0 (step * cfg.stepSize cfg.send) (cfg.size cfg.send step)) } }
  else none

def recvCopy (cfg : Config) (step : Nat) (s : State β) : Option (State β) :=
  let r := s.recv
  if cfg.recv.reg = false ∧ step < r.transmitted ∧ step < cfg.nsteps cfg.recv ∧ r.copied step = false then
    some
      { s with
        recv := { r with
          copied := update r.copied step true
          dst := write r.dst (r.buff (cfg.recv.stage step)) (step * cfg.stepSize cfg.recv) 0
            (cfg.size cfg.recv step) } }
  else none

/-- A message goes from where its send points now to where its receive points, cut to the smaller
of the two sizes. -/
def deliver (cfg : Config) (src : Nat → β) (step : Nat) (s : State β) : Option (State β) :=
  match s.sends[step]?, s.recvs[step]? with
  | some sent, some posted =>
    if s.delivered step then none
    else
      let n := min sent posted
      let source := if cfg.send.reg then fun o => src (step * cfg.stepSize cfg.send + o)
        else s.send.buff (cfg.send.stage step)
      let r := s.recv
      some
        { s with
          delivered := update s.delivered step true
          recv :=
            if cfg.recv.reg then { r with dst := write r.dst source (step * cfg.stepSize cfg.recv) 0 n }
            else
              let stage := cfg.recv.stage step
              { r with buff := update r.buff stage (write (r.buff stage) source 0 0 n) } }
  | _, _ => none

inductive Action where
  | sendPass (accepted : Bool)
  | recvPass (answers : Answers)
  | sendCopy (step : Nat)
  | recvCopy (step : Nat)
  | deliver (step : Nat)

def step (cfg : Config) (src : Nat → β) (s : State β) : Action → Option (State β)
  | .sendPass accepted => if cfg.send.direction.protocol = .simple then sendTurn cfg accepted s else none
  | .recvPass answers => if cfg.recv.direction.protocol = .simple then recvPass cfg answers s else none
  | .sendCopy step => sendCopy cfg src step s
  | .recvCopy step => recvCopy cfg step s
  | .deliver step => deliver cfg src step s

end Vccl.Psm.NetPair
