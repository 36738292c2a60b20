import Mathlib

/-! The requests of one `ncclIbNetCommBase`: how `ncclIbIsend`, `ncclIbIrecv` and `ncclIbIflush`
count the events a request waits for, and how `ncclIbTest` takes completions off. A queue stands
for the queue pairs and the completion queue of one device index. -/
namespace Vccl.Ib

open Function (update)

def maxRequests : Nat := 256
def maxDevsPerNic : Nat := 4
def maxRecvs : Nat := 8

abbrev Dev := Fin maxDevsPerNic

theorem maxDevsPerNic_pos : 0 < maxDevsPerNic := by decide

def Dev.partner (d : Dev) : Dev := ⟨if d.val % 2 = 0 then d.val + 1 else d.val - 1, by
  have := d.isLt
  unfold maxDevsPerNic at *
  split <;> omega⟩

inductive ReqType where
  | unused
  | send
  | recv
  | flush
  deriving DecidableEq

/-- `ncclIbRequest`. The pointers to the device bases are null or not; `use` counts the times the
slot was handed out and is not part of the source. -/
structure Request where
  type : ReqType
  nreqs : Nat
  events : Dev → Int
  devBases : Dev → Bool
  backupDevBases : Dev → Bool
  use : Nat

structure Owner where
  slot : Nat
  use : Nat
  deriving DecidableEq

/-- A work request that ends in a completion. `imm`: a receive, which completes with the opcode of
a write with immediate; `flush`: it is on the flush queue pair of its device. -/
structure WorkRequest where
  wrId : Nat
  imm : Bool
  flush : Bool
  owners : List Owner
  deriving DecidableEq

structure Completion where
  wr : WorkRequest
  ok : Bool
  deriving DecidableEq

structure Queue where
  backup : Bool
  dev : Dev
  deriving DecidableEq

structure Entry where
  nreqs : Nat
  ifBackup : Bool

/-- `perMessage` is `nqps` or `nDataQps`, depending on the parameter for splitting data. -/
structure Config where
  isSend : Bool
  faultTolerance : Bool
  ndevs : Nat
  backupNdevs : Nat
  nqps : Nat
  perMessage : Nat
  entry : Nat → Entry
  someDev : 0 < ndevs
  devs : ndevs ≤ maxDevsPerNic
  someBackup : 0 < backupNdevs
  backupDevs : backupNdevs ≤ maxDevsPerNic
  messages : 0 < perMessage
  entries : ∀ head, 0 < (entry head).nreqs ∧ (entry head).nreqs ≤ maxRecvs

structure State where
  reqs : Nat → Request
  warn : Dev → Bool
  posted : Queue → List WorkRequest
  cq : Queue → List Completion
  qpIndex : Nat
  devIndex : Nat
  backupDevIndex : Nat
  fifoTail : Nat
  fifoHead : Nat
  fifoReqs : Nat → Nat → Option Nat
  polled : List (WorkRequest × Dev)
  decremented : List (Owner × Dev)

def initial : State where
  reqs := fun _ => ⟨.unused, 0, fun _ => 0, fun _ => false, fun _ => false, 0⟩
  warn := fun _ => false
  posted := fun _ => []
  cq := fun _ => []
  qpIndex := 0
  devIndex := 0
  backupDevIndex := 0
  fifoTail := 0
  fifoHead := 0
  fifoReqs := fun _ _ => none
  polled := []
  decremented := []

/-- Request numbers go into the bytes of `wr_id`, the first one into the lowest. -/
def wrIdOf : List Nat → Nat
  | [] => 0
  | slot :: rest => slot + 2 ^ 8 * wrIdOf rest

def slotAt (wrId j : Nat) : Nat := wrId / 2 ^ (8 * j) % 2 ^ 8

def State.owner (s : State) (k : Nat) : Owner := ⟨k, (s.reqs k).use⟩

def Config.dev (cfg : Config) (q : Nat) : Dev :=
  ⟨q % cfg.ndevs, lt_of_lt_of_le (Nat.mod_lt _ cfg.someDev) cfg.devs⟩

def Config.backupDev (cfg : Config) (q : Nat) : Dev :=
  ⟨q % cfg.backupNdevs, lt_of_lt_of_le (Nat.mod_lt _ cfg.someBackup) cfg.backupDevs⟩

def qpQueue (cfg : Config) (warn : Dev → Bool) (q : Nat) : Queue :=
  if cfg.faultTolerance && warn (cfg.dev q) then ⟨true, cfg.backupDev q⟩ else ⟨false, cfg.dev q⟩

def Request.addEvent (r : Request) (q : Queue) : Request :=
  { r with
    events := update r.events q.dev (r.events q.dev + 1)
    devBases := if q.backup then r.devBases else update r.devBases q.dev true
    backupDevBases := if q.backup then update r.backupDevBases q.dev true else r.backupDevBases }

def State.modify (s : State) (k : Nat) (f : Request → Request) : State :=
  { s with reqs := update s.reqs k (f (s.reqs k)) }

def State.post (s : State) (q : Queue) (wr : WorkRequest) : State :=
  { s with posted := update s.posted q (s.posted q ++ [wr]) }

/-- `ncclIbGetRequest`: only the first two of the four device indices are cleared. -/
def Request.reset (r : Request) : Request :=
  { r with
    devBases := fun d => if d.val < 2 then false else r.devBases d
    backupDevBases := fun d => if d.val < 2 then false else r.backupDevBases d
    events := fun d => if d.val < 2 then 0 else r.events d
    use := r.use + 1 }

def getRequest (s : State) (type : ReqType) (nreqs : Nat → Nat) : Option (Nat × State) :=
  match (List.range maxRequests).find? fun k => decide ((s.reqs k).type = .unused) with
  | some k => some (k, s.modify k fun r => { r.reset with type, nreqs := nreqs r.nreqs })
  | none => none

def postRecvs (cfg : Config) (k : Nat) : Nat → State → State
  | 0, s => s
  | n + 1, s =>
    let q := qpQueue cfg s.warn s.qpIndex
    let s := (s.modify k (·.addEvent q)).post q ⟨wrIdOf [k], true, false, [s.owner k]⟩
    postRecvs cfg k n { s with qpIndex := (s.qpIndex + 1) % cfg.nqps }

def ctsQueue (cfg : Config) (s : State) : Queue :=
  if cfg.faultTolerance && s.warn (cfg.dev s.devIndex) then ⟨true, cfg.backupDev s.backupDevIndex⟩
  else ⟨false, cfg.dev s.devIndex⟩

def signaled (cfg : Config) (slot : Nat) : Bool :=
  decide (cfg.ndevs = 1 ∧ slot = 0 ∨ 1 < cfg.ndevs ∧ (slot = 0 ∨ slot = 1))

/-- `ncclIbPostFifo`; an entry that is not signaled leaves no completion. -/
def postFifo (cfg : Config) (k : Nat) (s : State) : State :=
  let q := ctsQueue cfg s
  let next := { s with
    devIndex := (s.devIndex + 1) % cfg.ndevs
    backupDevIndex := if q.backup then (s.backupDevIndex + 1) % cfg.ndevs else s.backupDevIndex
    fifoTail := s.fifoTail + 1 }
  if signaled cfg (s.fifoTail % maxRequests) then
    (next.modify k (·.addEvent q)).post q ⟨wrIdOf [k], false, false, [s.owner k]⟩
  else next

def Request.setBases (cfg : Config) (r : Request) : Request :=
  { r with
    devBases := fun d => r.devBases d || decide (d.val < cfg.ndevs)
    backupDevBases := fun d => r.backupDevBases d || cfg.faultTolerance && decide (d.val < cfg.ndevs) }

def irecv (cfg : Config) (s : State) (n : Nat) : Option State :=
  if cfg.isSend = false ∧ n ≤ maxRecvs then
    (getRequest s .recv fun _ => n).map fun (k, s) =>
      postFifo cfg k (postRecvs cfg k cfg.perMessage (s.modify k (·.setBases cfg)))
  else none

def postFlushes (cfg : Config) (k : Nat) : List Dev → State → State
  | [], s => s
  | d :: rest, s =>
    let q : Queue := ⟨cfg.faultTolerance && s.warn d, d⟩
    postFlushes cfg k rest ((s.post q ⟨wrIdOf [k], false, true, [s.owner k]⟩).modify k (·.addEvent q))

def iflush (cfg : Config) (s : State) : Option State :=
  if cfg.isSend = false then
    (getRequest s .flush id).map fun (k, s) =>
      postFlushes cfg k ((List.finRange maxDevsPerNic).filter fun d => d.val < cfg.ndevs) s
  else none

/-- The events of a send are counted when it is matched, those of all its queue pairs. -/
def addEvents (cfg : Config) (k : Nat) : Nat → Nat → State → State
  | 0, _, s => s
  | n + 1, q, s =>
    addEvents cfg k n ((q + 1) % cfg.nqps) (s.modify k (·.addEvent (qpQueue cfg s.warn q)))

def postSends (cfg : Config) (wr : WorkRequest) : Nat → State → State
  | 0, s => s
  | n + 1, s =>
    let s := s.post (qpQueue cfg s.warn s.qpIndex) wr
    postSends cfg wr n { s with qpIndex := (s.qpIndex + 1) % cfg.nqps }

def State.matched (s : State) (nreqs : Nat) : List Nat :=
  (List.range nreqs).filterMap (s.fifoReqs (s.fifoHead % maxRequests))

def multiSend (cfg : Config) (s : State) : State :=
  let slots := s.matched (cfg.entry s.fifoHead).nreqs
  let s := postSends cfg ⟨wrIdOf slots, false, false, slots.map s.owner⟩ cfg.perMessage s
  { s with
    fifoReqs := update s.fifoReqs (s.fifoHead % maxRequests) fun _ => none
    fifoHead := s.fifoHead + 1 }

def followEntry (cfg : Config) (s : State) : State :=
  let ifBackup := (cfg.entry s.fifoHead).ifBackup
  if cfg.faultTolerance ∧ ifBackup ≠ s.warn (cfg.dev 0) then
    { s with warn := fun d => if d.val < cfg.ndevs then ifBackup else s.warn d }
  else s

def State.setMatched (s : State) (r k : Nat) : State :=
  let slot := s.fifoHead % maxRequests
  { s with fifoReqs := update s.fifoReqs slot (update (s.fifoReqs slot) r (some k)) }

def isend (cfg : Config) (s : State) (r : Nat) : Option State :=
  let nreqs := (cfg.entry s.fifoHead).nreqs
  let slot := s.fifoHead % maxRequests
  if cfg.isSend ∧ r < nreqs ∧ s.fifoReqs slot r = none then
    (getRequest (followEntry cfg s) .send fun _ => nreqs).map fun (k, s) =>
      let s := (addEvents cfg k cfg.perMessage s.qpIndex s).setMatched r k
      if (List.range nreqs).all fun r => (s.fifoReqs slot r).isSome then multiSend cfg s else s
  else none

def State.decrement (s : State) (k : Nat) (i : Dev) : State :=
  { s with
    reqs := update s.reqs k
      { s.reqs k with events := update (s.reqs k).events i ((s.reqs k).events i - 1) }
    decremented := s.decremented ++ [(s.owner k, i)] }

/-- `going` lets the loop go on; the others are returned to the caller. -/
inductive Verdict where
  | going
  | remoteError
  | internalError
  deriving DecidableEq

def decrementSends (i : Dev) (wrId : Nat) : Nat → Nat → State → State × Verdict
  | 0, _, s => (s, .going)
  | n + 1, j, s =>
    if (s.reqs (slotAt wrId j)).events i ≤ 0 then (s, .internalError)
    else decrementSends i wrId n (j + 1) (s.decrement (slotAt wrId j) i)

def handle (i : Dev) (wr : WorkRequest) (s : State) : State × Verdict :=
  let k := slotAt wr.wrId 0
  if (s.reqs k).type = .send then decrementSends i wr.wrId (s.reqs k).nreqs 0 s
  else if wr.imm ∧ (s.reqs k).type ≠ .recv then (s, .internalError)
  else (s.decrement k i, .going)

/-- An error flags the device and, if the request has a base for it, its partner. -/
def flagDevs (k : Nat) (i : Dev) (s : State) : State :=
  { s with warn := fun d => s.warn d || d == i || ((s.reqs k).devBases i.partner && d == i.partner) }

def process (k : Nat) (i : Dev) : List Completion → State → State × Verdict
  | [], s => (s, .going)
  | c :: rest, s =>
    if c.ok then
      match handle i c.wr s with
      | (s', .going) => process k i rest s'
      | result => result
    else (flagDevs k i s, .remoteError)

structure Poll where
  wrDone : Nat
  backupWrDone : Nat
  wcs : Nat → Completion

def pollQueue (s : State) (k : Nat) (i : Dev) : Option Queue :=
  if (s.reqs k).devBases i && !s.warn i then some ⟨false, i⟩
  else if (s.reqs k).backupDevBases i then some ⟨true, i⟩
  else none

def overlay (wcs : Nat → Completion) (start : Nat) (batch : List Completion) (j : Nat) : Completion :=
  if start ≤ j then (batch[j - start]?).getD (wcs j) else wcs j

def batchOf (s : State) (q : Queue) : List Completion := (s.cq q).take 4

def successes (batch : List Completion) : List WorkRequest := (batch.filter (·.ok)).map (·.wr)

/-- `ibv_poll_cq`; the completions of a backup queue go behind those of the last primary queue. -/
def poll (q : Queue) (s : State) (p : Poll) : State × Poll :=
  let batch := batchOf s q
  ({ s with
      cq := update s.cq q ((s.cq q).drop 4)
      polled := s.polled ++ (successes batch).map fun wr => (wr, q.dev) },
    if q.backup then
      { p with backupWrDone := batch.length, wcs := overlay p.wcs p.wrDone batch }
    else { p with wrDone := batch.length, wcs := overlay p.wcs 0 batch })

def turn (k : Nat) (i : Dev) (s : State) (p : Poll) : (State × Verdict) × Poll :=
  if (s.reqs k).events i = 0 then ((s, .going), p)
  else
    let (s, p) :=
      match pollQueue s k i with
      | some q => poll q s p
      | none => (s, p)
    (process k i ((List.range (p.wrDone + p.backupWrDone)).map p.wcs) s, p)

def turns (k : Nat) : List Dev → State → Poll → State × Verdict
  | [], s, _ => (s, .going)
  | i :: rest, s, p =>
    match turn k i s p with
    | ((s', .going), p') => turns k rest s' p'
    | (result, _) => result

/-- One turn of the endless loop of `ncclIbTest`; `wcs` is what its array holds at the start. -/
def testRound (k : Nat) (wcs : Nat → Completion) (s : State) : State :=
  if ∀ d, (s.reqs k).events d = 0 then s.modify k ({ · with type := .unused })
  else (turns k (List.finRange maxDevsPerNic) s ⟨0, 0, wcs⟩).1

def freeRequests (slots : List Nat) (s : State) : State :=
  { s with reqs := fun k => if k ∈ slots then { s.reqs k with type := .unused } else s.reqs k }

/-- `ncclIbReTransitionQpAndCq`: the primary queue pairs of flagged devices are reset, or moved to
the error state if a port is down, and the first two primary completion queues are emptied. -/
def reTransition (portUp : Bool) (s : State) : State :=
  let dropped (q : Queue) (wr : WorkRequest) : Bool := !q.backup && s.warn q.dev && !wr.flush
  let flushed (q : Queue) : List Completion :=
    if portUp then [] else ((s.posted q).filter (dropped q)).map fun wr => ⟨wr, false⟩
  { s with
    posted := fun q => (s.posted q).filter fun wr => !dropped q wr
    cq := fun q => (if q.backup = false ∧ q.dev.val < 2 then [] else s.cq q) ++ flushed q }

/-- The rollback of a proxy: it frees the open requests of the connection and, on the sending side,
moves the head of the clear-to-send entries. -/
def rollBack (slots : List Nat) (head : Option Nat) (portUp : Bool) (s : State) : State :=
  { reTransition portUp (freeRequests slots s) with
    qpIndex := 0
    fifoHead := head.getD s.fifoHead }

/-- `complete`: a posted work request ends; `fail`: one without a completion of its own fails;
`free`: flush requests are given back without more. -/
inductive Action where
  | irecv (n : Nat)
  | isend (r : Nat)
  | iflush
  | test (k : Nat) (wcs : Nat → Completion)
  | complete (q : Queue) (position : Nat) (ok : Bool)
  | fail (q : Queue) (wr : WorkRequest)
  | setWarn (d : Dev) (flag : Bool)
  | free (slots : List Nat)
  | rollBack (slots : List Nat) (head : Option Nat) (portUp : Bool)

def step (cfg : Config) (s : State) : Action → Option State
  | .irecv n => irecv cfg s n
  | .isend r => isend cfg s r
  | .iflush => iflush cfg s
  | .test k wcs => some (testRound k wcs s)
  | .complete q position ok =>
    ((s.posted q)[position]?).map fun wr =>
      { s with
        posted := update s.posted q ((s.posted q).eraseIdx position)
        cq := update s.cq q (s.cq q ++ [⟨wr, ok⟩]) }
  | .fail q wr => some { s with cq := update s.cq q (s.cq q ++ [⟨wr, false⟩]) }
  | .setWarn d flag => some { s with warn := update s.warn d flag }
  | .free slots => some (freeRequests slots s)
  | .rollBack slots head portUp => some (rollBack slots head portUp s)

/-- Each successful completion `ncclIbTest` has polled took one event off each request it was posted
for, in the use of the slot it was posted for and on its own device index, and nothing else. -/
def Exact (s : State) : Prop :=
  s.decremented = s.polled.flatMap fun (wr, d) => wr.owners.map fun o => (o, d)

end Vccl.Ib
