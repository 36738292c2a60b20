import Vccl.Bitops
import Vccl.Ib.Requests
import Vccl.Lib.Transition

/-! Both ends of one IB connection and the network between them: the clear-to-send FIFO, the sync
FIFO, the failed flags, the round-robin QP indices and the keys of the work requests. A key is the
device it is registered on. What the code does not keep, and only the statements speak of, is in
`History`. -/
namespace Vccl.Failover

open Function (update)

open Ib (maxRequests maxDevsPerNic maxRecvs)

inductive Side where
  | send
  | recv
  deriving DecidableEq

structure Device where
  side : Side
  backup : Bool
  index : Nat
  deriving DecidableEq

/-- `none` where nothing was registered. -/
abbrev Key := Option Device

structure Qp where
  backup : Bool
  index : Nat
  deriving DecidableEq

structure End where
  ndevs : Nat
  backupNdevs : Nat
  positive : 0 < ndevs
  few : ndevs ≤ maxDevsPerNic
  backupPositive : 0 < backupNdevs
  backupFew : backupNdevs ≤ maxDevsPerNic

structure Config where
  faultTolerance : Bool
  splitDataOnQps : Bool
  qpsPerConn : Nat
  send : End
  recv : End
  flushEnabled : Bool
  backupFlushEnabled : Bool
  oneQp : 0 < qpsPerConn

def Config.at (cfg : Config) : Side → End
  | .send => cfg.send
  | .recv => cfg.recv

def nqps (qpsPerConn own remote : Nat) : Nat :=
  let localNqps := qpsPerConn * own
  let remoteNqps := qpsPerConn * remote
  if remoteNqps > localNqps then remoteNqps else localNqps

def nDataQps (own remote : Nat) : Nat := max own remote

def Config.sendNqps (cfg : Config) : Nat := nqps cfg.qpsPerConn cfg.send.ndevs cfg.recv.ndevs

def Config.recvNqps (cfg : Config) : Nat := nqps cfg.qpsPerConn cfg.recv.ndevs cfg.send.ndevs

def Config.sendQpsPerMessage (cfg : Config) : Nat :=
  if cfg.splitDataOnQps then cfg.sendNqps else nDataQps cfg.send.ndevs cfg.recv.ndevs

def Config.recvQpsPerMessage (cfg : Config) : Nat :=
  if cfg.splitDataOnQps then cfg.recvNqps else nDataQps cfg.recv.ndevs cfg.send.ndevs

/-- The device of an end that a QP is on: `devIndex` at the end itself, `remDevIdx` at the other. -/
def Config.deviceOf (cfg : Config) (side : Side) (qp : Qp) : Device :=
  ⟨side, qp.backup, qp.index % if qp.backup then (cfg.at side).backupNdevs else (cfg.at side).ndevs⟩

/-- Memory is registered on the devices below `ndevs`, for the backup ones too. -/
def Config.key (cfg : Config) (d : Device) : Key :=
  if d.index < (cfg.at d.side).ndevs ∧ (d.backup → cfg.faultTolerance) then some d else none

inductive Kind where
  | data
  | sizes
  | cts
  | retransmission
  | sync
  | flush
  deriving DecidableEq

/-- Where a work request is posted; a flush QP is connected to itself. -/
inductive Path where
  | data (from_ : Side) (qp : Qp)
  | flush (device : Device)
  deriving DecidableEq

def Side.other : Side → Side
  | .send => .recv
  | .recv => .send

def Config.localDevice (cfg : Config) : Path → Device
  | .data side qp => cfg.deviceOf side qp
  | .flush device => device

def Config.remoteDevice (cfg : Config) : Path → Device
  | .data side qp => cfg.deviceOf side.other qp
  | .flush device => device

/-- `lkey` is `none` if there is nothing to send. -/
structure WorkRequest where
  kind : Kind
  path : Path
  lkey : Option Key
  rkey : Key
  deriving DecidableEq

/-- `ncclIbSendFifo`, a clear-to-send element. -/
structure Elem where
  addr : Nat
  size : Nat
  tag : Nat
  nreqs : Nat
  ifBackup : Bool
  idx : Nat
  rkeys : Nat → Key

def Elem.zero : Elem := ⟨0, 0, 0, 0, false, 0, fun _ => none⟩

structure SyncElem where
  idx : Nat
  recvFifoTail : Nat
  restartPos : Nat
  errPortIdx : Nat

def SyncElem.zero : SyncElem := ⟨0, 0, 0, 0⟩

structure Item where
  addr : Nat
  size : Nat
  tag : Nat

inductive Write where
  | cts (slot first : Nat) (elems : List Elem)
  | sync (slot : Nat) (elem : SyncElem)

/-- `qps` are the QPs `ncclIbAddEvent` was called for. -/
structure SendReq where
  size : Nat
  lkeys : Nat → Key
  qps : List Qp

/-- `inUse` has `devBases` of the requests in use: for which devices they are set. -/
structure Sender where
  warn : Nat → Bool
  qpIndex : Nat
  fifo : Nat → Nat → Elem
  fifoHead : Nat
  fifoReqs : Nat → Nat → Option SendReq
  syncFifo : Nat → SyncElem
  syncFifoHead : Nat
  inUse : List (Nat → Bool)

/-- What `ncclIbPostFifo` leaves in the request for a retransmission. -/
structure Retransition where
  slot : Nat
  position : Nat
  devIndex : Nat
  lkey : Key
  timedOut : Bool

structure RecvReq where
  devBases : Nat → Bool
  retransition : Option Retransition

structure Receiver where
  warn : Nat → Bool
  qpIndex : Nat
  devIndex : Nat
  backupDevIndex : Nat
  elems : Nat → Nat → Elem
  fifoTail : Nat
  syncElems : Nat → SyncElem
  syncFifoTail : Nat
  inUse : List RecvReq

/-- A clear-to-send entry as it was posted: the receiver's flags, the QPs of its receive requests
and the first of them, and how many sync entries were posted before. -/
structure Posted where
  items : List Item
  flags : Nat → Bool
  ifBackup : Bool
  start : Nat
  qps : List Qp
  syncs : Nat

structure SyncPosted where
  elem : SyncElem
  flags : Nat → Bool

/-- An entry the sender used up: the QPs it posted on, and how many sync entries it had read. -/
structure Consumed where
  idx : Nat
  qps : List Qp
  syncs : Nat
  deriving DecidableEq

/-- `log` has the `idx` of the entries in the order posted; `rollbacks` has, for each rollback of the
receiver, the number of sync entries posted and the FIFO tail at its end. -/
structure History where
  posted : Nat → Option Posted
  log : List Nat
  syncs : List SyncPosted
  rollbacks : List (Nat × Nat)
  consumed : List Consumed
  requests : List WorkRequest

def History.post (h : History) (idx : Nat) (p : Posted) (requests : List WorkRequest) : History :=
  { h with
    posted := update h.posted idx (some p)
    log := h.log ++ [idx]
    requests := h.requests ++ requests }

def History.sync (h : History) (y : SyncPosted) (requests : List WorkRequest) : History :=
  { h with syncs := h.syncs ++ [y], requests := h.requests ++ requests }

structure State where
  send : Sender
  recv : Receiver
  wires : Qp → List Write
  history : History

def initial : State where
  send :=
    { warn := fun _ => false
      qpIndex := 0
      fifo := fun _ _ => .zero
      fifoHead := 0
      fifoReqs := fun _ _ => none
      syncFifo := fun _ => .zero
      syncFifoHead := 0
      inUse := [] }
  recv :=
    { warn := fun _ => false
      qpIndex := 0
      devIndex := 0
      backupDevIndex := 0
      elems := fun _ _ => .zero
      fifoTail := 0
      syncElems := fun _ => .zero
      syncFifoTail := 0
      inUse := [] }
  wires := fun _ => []
  history := ⟨fun _ => none, [], [], [], [], []⟩

def qpRun (nqps : Nat) : Nat → Nat → List Nat
  | 0, _ => []
  | n + 1, q => q :: qpRun nqps n ((q + 1) % nqps)

def qpAfter (nqps : Nat) : Nat → Nat → Nat
  | 0, q => q
  | n + 1, q => qpAfter nqps n ((q + 1) % nqps)

def pickQp (cfg : Config) (side : Side) (warn : Nat → Bool) (q : Nat) : Qp :=
  ⟨cfg.faultTolerance && warn (q % (cfg.at side).ndevs), q⟩

def sendQps (cfg : Config) (s : Sender) : List Qp :=
  (qpRun cfg.sendNqps cfg.sendQpsPerMessage s.qpIndex).map (pickQp cfg .send s.warn)

def recvQps (cfg : Config) (r : Receiver) : List Qp :=
  (qpRun cfg.recvNqps cfg.recvQpsPerMessage r.qpIndex).map (pickQp cfg .recv r.warn)

def elemOf (cfg : Config) (idx : Nat) (p : Posted) (i : Nat) : Elem :=
  match p.items[i]? with
  | some item =>
    { addr := item.addr
      size := item.size
      tag := item.tag
      nreqs := p.items.length
      ifBackup := p.ifBackup
      idx := idx
      rkeys := fun j =>
        if j < cfg.recv.ndevs then cfg.key ⟨.recv, cfg.faultTolerance && p.flags j, j⟩ else none }
  | none => .zero

def Receiver.ifBackup (cfg : Config) (r : Receiver) : Bool :=
  cfg.faultTolerance && r.warn (r.devIndex % cfg.recv.ndevs)

def Receiver.ctsQp (cfg : Config) (r : Receiver) : Qp :=
  if r.ifBackup cfg then ⟨true, r.backupDevIndex⟩ else ⟨false, r.devIndex⟩

def Receiver.toPost (cfg : Config) (r : Receiver) (items : List Item) (syncs : Nat) : Posted where
  items := items
  flags := r.warn
  ifBackup := r.ifBackup cfg
  start := r.qpIndex
  qps := recvQps cfg r
  syncs := syncs

def fifoRequest (cfg : Config) (kind : Kind) (qp : Qp) : WorkRequest :=
  ⟨kind, .data .recv qp, some (cfg.key (cfg.deviceOf .recv qp)), cfg.key (cfg.deviceOf .send qp)⟩

/-- `devBases[0]` and `devBases[1]` are cleared for a new request, the others keep what an earlier
use has left. -/
def leftOver (ndevs : Nat) (stale : Nat → Bool) (d : Nat) : Bool := decide (2 ≤ d ∧ d < ndevs) && stale d

def irecv (cfg : Config) (items : List Item) (s : State) : Option State :=
  if items = [] ∨ maxRecvs < items.length ∨ items.any (fun item => item.addr = 0) then none
  else
    let r := s.recv
    let slot := r.fifoTail % maxRequests
    let idx := r.fifoTail + 1
    let p := r.toPost cfg items s.history.syncs.length
    let qp := r.ctsQp cfg
    let devIndex := (r.devIndex + 1) % cfg.recv.ndevs
    let elems := (List.range items.length).map (elemOf cfg idx p)
    some
      { s with
        recv :=
          { r with
            qpIndex := qpAfter cfg.recvNqps cfg.recvQpsPerMessage r.qpIndex
            devIndex
            backupDevIndex := if r.ifBackup cfg then (r.backupDevIndex + 1) % cfg.recv.ndevs else r.backupDevIndex
            elems := fun slot' i => if slot' = slot ∧ i < items.length then elemOf cfg idx p i else r.elems slot' i
            fifoTail := idx
            inUse := ⟨fun d => decide (d < cfg.recv.ndevs), some
              { slot
                position := items.length - 1
                devIndex
                lkey := cfg.key ⟨.recv, false, devIndex⟩
                timedOut := false }⟩ :: r.inUse }
        wires := update s.wires qp (s.wires qp ++ [.cts slot 0 elems])
        history := s.history.post idx p [fifoRequest cfg .cts qp] }

def rePostFifo (cfg : Config) (k : Nat) (s : State) : Option State :=
  match s.recv.inUse[k]? with
  | some ⟨devBases, some t⟩ =>
    if cfg.faultTolerance = false ∨ t.timedOut ∨ s.recv.warn 0 then none
    else
      let qp : Qp := ⟨false, t.devIndex⟩
      some
        { s with
          recv := { s.recv with inUse := s.recv.inUse.set k ⟨devBases, some
            { t with devIndex := (t.devIndex + 1) % cfg.recv.ndevs, timedOut := true }⟩ }
          wires := update s.wires qp (s.wires qp ++ [.cts t.slot t.position [s.recv.elems t.slot t.position]])
          history :=
            { s.history with
              requests := s.history.requests ++ [⟨.retransmission, .data .recv qp, some t.lkey,
                cfg.key ⟨.send, false, t.devIndex⟩⟩] } }
  | _ => none

/-- An error completion of device `i` for a request: the device and its partner are flagged. -/
def flag (devBases : Nat → Bool) (i : Nat) (warn : Nat → Bool) : Nat → Bool := fun d =>
  if d = i ∨ (d = i ^^^ 1 ∧ devBases (i ^^^ 1) = true) then true else warn d

def postSyncFifo (cfg : Config) (errPortIdx : Nat) (s : State) (restartPos : Nat) : State :=
  let r := s.recv
  let slot := r.syncFifoTail % maxRequests
  let qp : Qp := ⟨true, r.backupDevIndex⟩
  let fifoTail := r.fifoTail + 1000
  let elem : SyncElem := ⟨r.syncFifoTail + 1, fifoTail, restartPos, errPortIdx⟩
  { s with
    recv :=
      { r with
        backupDevIndex := (r.backupDevIndex + 1) % cfg.recv.ndevs
        fifoTail
        syncElems := update r.syncElems slot elem
        syncFifoTail := r.syncFifoTail + 1 }
    wires := update s.wires qp (s.wires qp ++ [.sync slot elem])
    history := s.history.sync ⟨elem, r.warn⟩ [fifoRequest cfg .sync qp] }

def errorPortIdx (warn : Nat → Bool) : Nat := if warn 0 then 0 else 1

def startRollBack (devBases : Nat → Bool) (i : Nat) (s : State) : State :=
  { s with recv := { s.recv with warn := flag devBases i s.recv.warn, qpIndex := 0 } }

def endRollBack (s : State) : State :=
  { s with history := { s.history with
    rollbacks := s.history.rollbacks ++ [(s.history.syncs.length, s.recv.fifoTail)] } }

/-- The test of a receive finds an error on device `i`, and the receiver rolls back: one sync entry
for every sub of the connection, with the position to restart from. -/
def recvRollBack (cfg : Config) (k i : Nat) (positions : List Nat) (s : State) : Option State :=
  match s.recv.inUse[k]? with
  | some ⟨devBases, some _⟩ =>
    if cfg.faultTolerance = false ∨ positions = [] ∨ devBases i = false then none
    else
      let s := startRollBack devBases i s
      some (endRollBack (positions.foldl (postSyncFifo cfg (errorPortIdx s.recv.warn)) s))
  | _ => none

def flushError (k i : Nat) (s : State) : Option State :=
  match s.recv.inUse[k]? with
  | some ⟨devBases, none⟩ =>
    if devBases i then some { s with recv := { s.recv with warn := flag devBases i s.recv.warn } } else none
  | _ => none

def flushRequest (cfg : Config) (warn : Nat → Bool) (i : Nat) : WorkRequest :=
  let backup := cfg.faultTolerance && warn i
  let ready := if backup then cfg.backupFlushEnabled else cfg.flushEnabled
  ⟨.flush, .flush ⟨.recv, backup, i⟩, some (if ready then cfg.key ⟨.recv, backup, i⟩ else none),
    cfg.key ⟨.recv, backup, i⟩⟩

def iflush (cfg : Config) (stale : Nat → Bool) (s : State) : Option State :=
  if cfg.flushEnabled then
    some
      { s with
        recv := { s.recv with
          inUse := ⟨fun d => decide (d < cfg.recv.ndevs ∧ ¬ (cfg.faultTolerance ∧ s.recv.warn d)) ||
            leftOver cfg.recv.ndevs stale d, none⟩ :: s.recv.inUse }
        history := { s.history with
          requests := s.history.requests ++ (List.range cfg.recv.ndevs).map (flushRequest cfg s.recv.warn) } }
  else none

def refresh (cfg : Config) (s : State) : State :=
  { s with recv := { s.recv with warn := fun d => if d < cfg.recv.ndevs then false else s.recv.warn d } }

def followEntry (cfg : Config) (ifBackup : Bool) (warn : Nat → Bool) : Nat → Bool :=
  if cfg.faultTolerance ∧ ifBackup ≠ warn 0 then fun d => if d < cfg.send.ndevs then ifBackup else warn d
  else warn

/-- `send.lkeys` of a new request: of the QPs of the message, then of every device. -/
def lkeysOf (cfg : Config) (s : Sender) (d : Nat) : Key :=
  if d < cfg.send.ndevs then cfg.key ⟨.send, cfg.faultTolerance && s.warn d, d⟩
  else if ⟨.send, true, d⟩ ∈ (sendQps cfg s).map (cfg.deviceOf .send) then cfg.key ⟨.send, true, d⟩
  else none

def sendDevBases (cfg : Config) (s : Sender) (stale : Nat → Bool) (d : Nat) : Bool :=
  decide (⟨.send, false, d⟩ ∈ (sendQps cfg s).map (cfg.deviceOf .send)) || leftOver cfg.send.ndevs stale d

def dataRequest (cfg : Config) (elem : Elem) (req : SendReq) (i : Nat) (qp : Qp) : WorkRequest :=
  let chunkSize := divUp (divUp req.size cfg.sendQpsPerMessage) 128 * 128
  ⟨.data, .data .send qp,
    if req.size ≤ i * chunkSize then none else some (req.lkeys (cfg.deviceOf .send qp).index),
    elem.rkeys (cfg.deviceOf .recv qp).index⟩

/-- The write of the sizes: both keys are looked up by the local device. -/
def sizesRequest (cfg : Config) (qp : Qp) : WorkRequest :=
  let devIndex := (cfg.deviceOf .send qp).index
  ⟨.sizes, .data .send qp, some (cfg.key ⟨.send, qp.backup, devIndex⟩), cfg.key ⟨.recv, qp.backup, devIndex⟩⟩

def qpRequests (cfg : Config) (row : Nat → Elem) (reqs : Nat → Option SendReq) (nreqs i : Nat) (qp : Qp) :
    List WorkRequest :=
  ((List.range nreqs).filterMap fun r => (reqs r).map fun req => dataRequest cfg (row r) req i qp) ++
    if 1 < nreqs then [sizesRequest cfg qp] else []

def multiSendRequests (cfg : Config) (row : Nat → Elem) (reqs : Nat → Option SendReq) (nreqs : Nat) :
    Nat → List Qp → List WorkRequest
  | _, [] => []
  | i, qp :: rest => qpRequests cfg row reqs nreqs i qp ++ multiSendRequests cfg row reqs nreqs (i + 1) rest

def multiSend (cfg : Config) (s : State) : State :=
  let slot := s.send.fifoHead % maxRequests
  let row := s.send.fifo slot
  let reqs := s.send.fifoReqs slot
  let qps := sendQps cfg s.send
  { s with
    send :=
      { s.send with
        qpIndex := qpAfter cfg.sendNqps cfg.sendQpsPerMessage s.send.qpIndex
        fifo := fun slot' i => if slot' = slot ∧ i = 0 then .zero else s.send.fifo slot' i
        fifoHead := s.send.fifoHead + 1
        fifoReqs := update s.send.fifoReqs slot fun _ => none }
    history :=
      { s.history with
        consumed := s.history.consumed ++ [⟨s.send.fifoHead + 1, qps, s.send.syncFifoHead⟩]
        requests := s.history.requests ++ multiSendRequests cfg row reqs (row 0).nreqs 0 qps } }

def matchOf (s : Sender) (tag : Nat) : Option Nat :=
  let slot := s.fifoHead % maxRequests
  (List.range (s.fifo slot 0).nreqs).find? fun r =>
    (s.fifoReqs slot r).isNone && decide ((s.fifo slot r).tag = tag)

/-- What `ncclIbIsend` does for the place `r` of the entry before it looks whether all are taken. -/
def matchSend (cfg : Config) (size : Nat) (stale : Nat → Bool) (r : Nat) (s : State) : State :=
  let slot := s.send.fifoHead % maxRequests
  let elem := s.send.fifo slot r
  let send := { s.send with warn := followEntry cfg elem.ifBackup s.send.warn }
  { s with
    send :=
      { send with
        fifoReqs := update send.fifoReqs slot
          (update (send.fifoReqs slot) r (some ⟨min size elem.size, lkeysOf cfg send, sendQps cfg send⟩))
        inUse := sendDevBases cfg send stale :: send.inUse } }

def Sender.nreqs (s : Sender) : Nat := (s.fifo (s.fifoHead % maxRequests) 0).nreqs

def Sender.arrived (s : Sender) : Bool :=
  (List.range s.nreqs).all fun r => decide ((s.fifo (s.fifoHead % maxRequests) r).idx = s.fifoHead + 1)

def Sender.allMatched (s : Sender) : Bool :=
  (List.range s.nreqs).all fun r => (s.fifoReqs (s.fifoHead % maxRequests) r).isSome

/-- `ncclIbIsend`, with the place in the entry it was matched with. It stands still (`none`) while a
part of the entry has not arrived. -/
def isend (cfg : Config) (tag size : Nat) (stale : Nat → Bool) (s : State) : Option (State × Option Nat) :=
  if (s.send.fifo (s.send.fifoHead % maxRequests) 0).idx ≠ s.send.fifoHead + 1 then some (s, none)
  else if s.send.arrived then
    match matchOf s.send tag with
    | none => some (s, none)
    | some r =>
      let s := matchSend cfg size stale r s
      if s.send.allMatched then some (multiSend cfg s, some r) else some (s, some r)
  else none

def sendError (k i : Nat) (s : State) : Option State :=
  match s.send.inUse[k]? with
  | some devBases =>
    if devBases i then some { s with send := { s.send with warn := flag devBases i s.send.warn } } else none
  | none => none

def checkSyncFifo (cfg : Config) (s : Sender) : Option Sender :=
  let elem := s.syncFifo (s.syncFifoHead % maxRequests)
  if elem.idx = s.syncFifoHead + 1 then
    some
      { s with
        warn := fun d =>
          if d = elem.errPortIdx ∨ (1 < cfg.send.ndevs ∧ d = elem.errPortIdx ^^^ 1) then true else s.warn d
        syncFifoHead := s.syncFifoHead + 1
        fifoHead := elem.recvFifoTail }
  else none

def checkSyncFifos (cfg : Config) : Nat → Sender → Option Sender
  | 0, s => some s
  | count + 1, s => (checkSyncFifo cfg s).bind (checkSyncFifos cfg count)

/-- The part of `ncclIbRollBackSendProxyProgress` that is about the connection: an entry is read for
every sub of the op on it. -/
def sendRollBack (cfg : Config) (count : Nat) (s : State) : Option State :=
  if count = 0 ∨ cfg.faultTolerance = false then none
  else (checkSyncFifos cfg count { s.send with qpIndex := 0 }).map fun send => { s with send }

def land (w : Write) (s : Sender) : Sender :=
  match w with
  | .cts slot first elems =>
    { s with fifo := fun slot' i =>
        if slot' = slot ∧ first ≤ i then (elems[i - first]?).getD (s.fifo slot' i) else s.fifo slot' i }
  | .sync slot elem => { s with syncFifo := update s.syncFifo slot elem }

/-- The network card reads the memory of a write when it sends it, element `j` of an entry for one. -/
def reread (r : Receiver) (j : Nat) : Write → Write
  | .cts slot first elems => .cts slot first (elems.set j (r.elems slot (first + j)))
  | .sync slot _ => .sync slot (r.syncElems slot)

/-- Writes on one QP land in order; one may be lost with its QP. Requests are freed when they are
complete or rolled back. -/
inductive Action where
  | irecv (items : List Item)
  | rePost (k : Nat)
  | recvRollBack (k i : Nat) (positions : List Nat)
  | iflush (stale : Nat → Bool)
  | flushError (k i : Nat)
  | freeRecv (k : Nat)
  | refresh
  | isend (tag size : Nat) (stale : Nat → Bool)
  | sendError (k i : Nat)
  | freeSend (k : Nat)
  | sendRollBack (count : Nat)
  | land (qp : Qp)
  | lose (qp : Qp) (k : Nat)
  | reread (qp : Qp) (k j : Nat)

def step (cfg : Config) (s : State) : Action → Option State
  | .irecv items => irecv cfg items s
  | .rePost k => rePostFifo cfg k s
  | .recvRollBack k i positions => recvRollBack cfg k i positions s
  | .iflush stale => iflush cfg stale s
  | .flushError k i => flushError k i s
  | .freeRecv k => some { s with recv := { s.recv with inUse := s.recv.inUse.eraseIdx k } }
  | .refresh => some (refresh cfg s)
  | .isend tag size stale => (isend cfg tag size stale s).map Prod.fst
  | .sendError k i => sendError k i s
  | .freeSend k => some { s with send := { s.send with inUse := s.send.inUse.eraseIdx k } }
  | .sendRollBack count => sendRollBack cfg count s
  | .land qp =>
    match s.wires qp with
    | [] => none
    | w :: rest => some { s with send := land w s.send, wires := update s.wires qp rest }
  | .lose qp k => some { s with wires := update s.wires qp ((s.wires qp).eraseIdx k) }
  | .reread qp k j =>
    match (s.wires qp)[k]? with
    | none => none
    | some w => some { s with wires := update s.wires qp ((s.wires qp).set k (reread s.recv j w)) }

section

variable {cfg : Config} {s s' : State} {k i j : Nat} {qp : Qp}

theorem flushError_some (next : step cfg s (.flushError k i) = some s') :
    ∃ devBases, s.recv.inUse[k]? = some ⟨devBases, none⟩ ∧ devBases i = true ∧
      s' = { s with recv := { s.recv with warn := flag devBases i s.recv.warn } } := by
  simp only [step, flushError] at next
  split at next
  next devBases hf =>
    obtain ⟨set', ⟨⟩⟩ := Option.ite_none_right_eq_some.mp next
    exact ⟨devBases, hf, set', rfl⟩
  · contradiction

theorem sendError_some (next : step cfg s (.sendError k i) = some s') :
    ∃ devBases, s.send.inUse[k]? = some devBases ∧ devBases i = true ∧
      s' = { s with send := { s.send with warn := flag devBases i s.send.warn } } := by
  simp only [step, sendError] at next
  split at next
  next devBases hf =>
    obtain ⟨set', ⟨⟩⟩ := Option.ite_none_right_eq_some.mp next
    exact ⟨devBases, hf, set', rfl⟩
  · contradiction

theorem land_some (next : step cfg s (.land qp) = some s') :
    ∃ w rest, s.wires qp = w :: rest ∧
      s' = { s with send := land w s.send, wires := update s.wires qp rest } := by
  simp only [step] at next
  split at next
  · contradiction
  next w rest first =>
    cases next
    exact ⟨w, rest, first, rfl⟩

theorem reread_some (next : step cfg s (.reread qp k j) = some s') :
    ∃ w, (s.wires qp)[k]? = some w ∧
      s' = { s with wires := update s.wires qp ((s.wires qp).set k (reread s.recv j w)) } := by
  simp only [step] at next
  split at next
  · contradiction
  next w hf =>
    cases next
    exact ⟨w, hf, rfl⟩

structure Quiet (s s' : State) : Prop where
  history : s'.history = s.history
  send : s'.send = { s.send with
    warn := s'.send.warn, fifo := s'.send.fifo, syncFifo := s'.send.syncFifo, inUse := s'.send.inUse }
  recv : s'.recv = { s.recv with warn := s'.recv.warn, inUse := s'.recv.inUse }
  inUse : ∀ q ∈ s'.recv.inUse, q ∈ s.recv.inUse

def Action.quiet : Action → Bool
  | .flushError _ _ | .freeRecv _ | .refresh | .sendError _ _ | .freeSend _ | .land _ | .lose _ _ | .reread _ _ _ => true
  | _ => false

theorem step_quiet {a : Action} (quiet : a.quiet = true) (next : step cfg s a = some s') : Quiet s s' := by
  cases a
  case flushError k i =>
    obtain ⟨_, -, -, rfl⟩ := flushError_some next
    exact ⟨rfl, rfl, rfl, fun _ => id⟩
  case sendError k i =>
    obtain ⟨_, -, -, rfl⟩ := sendError_some next
    exact ⟨rfl, rfl, rfl, fun _ => id⟩
  case land qp =>
    obtain ⟨w, _, -, rfl⟩ := land_some next
    cases w <;> exact ⟨rfl, rfl, rfl, fun _ => id⟩
  case reread qp k j =>
    obtain ⟨_, -, rfl⟩ := reread_some next
    exact ⟨rfl, rfl, rfl, fun _ => id⟩
  case freeRecv k =>
    cases next
    exact ⟨rfl, rfl, rfl, fun _ => List.mem_of_mem_eraseIdx⟩
  case refresh | freeSend | lose =>
    cases next
    exact ⟨rfl, rfl, rfl, fun _ => id⟩
  all_goals contradiction

end

end Vccl.Failover
