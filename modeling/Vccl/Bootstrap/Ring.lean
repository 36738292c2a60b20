import Vccl.Lib.Transition

/-! The ring of a bootstrap state and the all-gathers that are called on it one after the other. A connection delivers
what is written to it in order; a call may fail at any point of any exchange. -/
namespace Vccl.Bootstrap.Ring

open Transition
open Function (update)

/-- `NCCL_OOB_NET_ENABLE`. -/
inductive Mode where
  | socket
  | net
deriving DecidableEq

/-- What becomes of the result of an all-gather: `ringAllInfo` returns success all the same, the caller goes on without
looking at it (`ncclCollNetSetup` in `initTransportsRank`), or the caller returns the error. -/
inductive Caller where
  | ringAllInfo
  | ignored
  | propagated
deriving DecidableEq

/-- What travels on a connection: bytes on a socket, whole messages on a network plugin. -/
inductive Token where
  | byte (b : UInt8)
  | message (tag : Nat) (payload : List UInt8)
deriving DecidableEq

def Token.payload : Token → List UInt8
  | .byte b => [b]
  | .message _ payload => payload

def encodeInt (n : Nat) : List UInt8 :=
  [UInt8.ofNat n, UInt8.ofNat (n / 256), UInt8.ofNat (n / 65536), UInt8.ofNat (n / 16777216)]

def decodeInt (bytes : List UInt8) : Int :=
  let value : Nat := bytes.foldr (fun b rest => b.toNat + 256 * rest) 0
  if value < 2 ^ 31 then (value : Int) else value - 2 ^ 32

theorem decodeInt_encodeInt {n : Nat} (small : n < 2 ^ 31) : decodeInt (encodeInt n) = n := by
  have value : (encodeInt n).foldr (fun b rest => b.toNat + 256 * rest) 0 = n := by
    simp only [encodeInt, List.foldr_cons, List.foldr_nil, UInt8.toNat_ofNat']
    omega
  simp only [decodeInt, value]
  rw [if_pos small]

abbrev Table := Nat → List UInt8

/-- The all-gathers of a ring in the order in which the ranks call them. The first one is in `ringAllInfo`. -/
structure Job where
  nranks : Nat
  mode : Mode
  size : Nat → Nat
  contribution : Nat → Table
  ignored : Nat → Bool
  some_rank : 0 < nranks
  fits : ∀ g, size g < 2 ^ 31
  whole : ∀ g rank, (contribution g rank).length = size g

inductive Phase where
  | size
  | data
deriving DecidableEq

inductive Status where
  | idle (next : Nat) (failed : Bool)
  | running
  | stopped
deriving DecidableEq

/-- The locals of `bootstrapAllGather` and of the loop and the exchange inside it, and what the calls so far have
returned: the table, or nothing for an error. -/
structure Rank where
  status : Status
  gather : Nat
  i : Nat
  phase : Phase
  sendOffset : Nat
  inbox : List Token
  senderRecvSize : Int
  data : Table
  log : List (Nat × Option Table)

/-- What each rank has written to its connection to the next one, and how much of it has been read there. -/
structure Net where
  ranks : Nat → Rank
  sent : Nat → List Token
  taken : Nat → Nat

namespace Job

variable (job : Job)

def caller (g : Nat) : Caller := if g = 0 then .ringAllInfo else if job.ignored g then .ignored else .propagated

def pred (rank : Nat) : Nat := (rank + job.nranks - 1) % job.nranks

def rslice (rank i : Nat) : Nat := (rank + job.nranks - i - 1) % job.nranks

def sslice (rank i : Nat) : Nat := (rank + job.nranks - i) % job.nranks

def header (g : Nat) : List Token :=
  match job.mode with
  | .socket => (encodeInt (job.size g)).map .byte
  | .net => []

def body (i : Nat) (payload : List UInt8) : List Token :=
  match job.mode with
  | .socket => payload.map .byte
  | .net => [.message i payload]

def out (rank : Nat) (st : Rank) : List Token :=
  match st.phase with
  | .size => job.header st.gather
  | .data => job.body st.i (st.data (job.sslice rank st.i))

def needed (st : Rank) : Nat :=
  match st.phase with
  | .size => 4
  | .data =>
    match job.mode with
    | .socket => (min (job.size st.gather : Int) st.senderRecvSize).toNat
    | .net => 1

/-- The beginning of `socketSendRecv` or `netSendRecv`. -/
def beginStep (st : Rank) (i : Nat) : Rank :=
  let phase := match job.mode with | .socket => Phase.size | .net => Phase.data
  { st with status := .running, i, phase, sendOffset := 0, inbox := [], senderRecvSize := 0 }

def finish (st : Rank) (result : Option Table) : Rank :=
  let status :=
    match result, job.caller st.gather with
    | some _, _ => .idle (st.gather + 1) false
    | none, .propagated => .stopped
    | none, _ => .idle (st.gather + 1) true
  { st with status, log := st.log ++ [(st.gather, result)] }

def beginGather (rank g : Nat) (st : Rank) : Rank :=
  let data : Table := fun q => if q = rank then job.contribution g rank else List.replicate (job.size g) 0
  let st := { st with gather := g, data }
  if 0 < job.nranks - 1 then job.beginStep st 0 else job.finish st (some data)

def store (rank : Nat) (st : Rank) : Table :=
  let slice := job.rslice rank st.i
  let payload := st.inbox.flatMap Token.payload
  update st.data slice (payload ++ (st.data slice).drop payload.length)

def nextPhase (rank : Nat) (st : Rank) : Rank :=
  match st.phase with
  | .size =>
    let senderRecvSize := decodeInt (st.inbox.flatMap Token.payload)
    if senderRecvSize > job.size st.gather then job.finish st none
    else { st with phase := .data, sendOffset := 0, inbox := [], senderRecvSize }
  | .data =>
    let st := { st with data := job.store rank st }
    if st.i + 1 < job.nranks - 1 then job.beginStep st (st.i + 1) else job.finish st (some st.data)

end Job

inductive Action where
  | call (rank : Nat)
  | skip (rank : Nat)
  | send (rank k : Nat)
  | recv (rank k : Nat)
  | next (rank : Nat)
  | fail (rank : Nat)
deriving DecidableEq

def Action.rank : Action → Nat
  | .call rank | .skip rank | .send rank _ | .recv rank _ | .next rank | .fail rank => rank

def Net.setRank (s : Net) (rank : Nat) (st : Rank) : Net := { s with ranks := update s.ranks rank st }

/-- After a failure that the caller does not return, it may also go on behind some of the later calls (`skip`). -/
def step (job : Job) (s : Net) (a : Action) : Option Net :=
  let rank := a.rank
  let st := s.ranks rank
  if job.nranks ≤ rank then none
  else
    match a, st.status with
    | .call _, .idle g _ => some (s.setRank rank (job.beginGather rank g st))
    | .skip _, .idle g true => some (s.setRank rank { st with status := .idle (g + 1) true })
    | .send _ k, .running =>
      if st.sendOffset + k ≤ (job.out rank st).length then
        some { s.setRank rank { st with sendOffset := st.sendOffset + k } with
          sent := update s.sent rank (s.sent rank ++ ((job.out rank st).drop st.sendOffset).take k) }
      else none
    | .recv _ k, .running =>
      let from_ := job.pred rank
      if st.inbox.length + k ≤ job.needed st ∧ s.taken from_ + k ≤ (s.sent from_).length then
        some { s.setRank rank { st with inbox := st.inbox ++ ((s.sent from_).drop (s.taken from_)).take k } with
          taken := update s.taken from_ (s.taken from_ + k) }
      else none
    | .next _, .running =>
      if st.sendOffset = (job.out rank st).length ∧ st.inbox.length = job.needed st then
        some (s.setRank rank (job.nextPhase rank st))
      else none
    | .fail _, .running => some (s.setRank rank (job.finish st none))
    | _, _ => none

def Net.initial : Net where
  ranks _ := ⟨.idle 0 false, 0, 0, .size, 0, [], 0, fun _ => [], []⟩
  sent _ := []
  taken _ := 0

inductive Field where
  | peerAddress
  | peerProxy
  | peerUDS
  | rasRank
deriving DecidableEq

structure Widths where
  address : Nat
  ras : Nat

def Widths.width (w : Widths) : Field → Nat
  | .peerAddress => w.address
  | .peerProxy => w.address
  | .peerUDS => 8
  | .rasRank => w.ras

def Widths.offset (w : Widths) : Field → Nat
  | .peerAddress => 0
  | .peerProxy => w.address
  | .peerUDS => w.address + w.address
  | .rasRank => w.address + w.address + 8

abbrev Tables := Field → Option Table

/-- What a rank puts into a field: its own entry, or the zeros of `ncclCalloc`. -/
def entry (w : Widths) (t : Tables) (rank : Nat) (f : Field) : List UInt8 :=
  match t f with
  | some entries => entries rank
  | none => List.replicate (w.width f) 0

def pack (w : Widths) (t : Tables) (rank : Nat) : List UInt8 :=
  entry w t rank .peerAddress ++ entry w t rank .peerProxy ++ entry w t rank .peerUDS ++ entry w t rank .rasRank

def unpack (w : Widths) (t : Tables) (ringData : Table) : Tables := fun f =>
  (t f).map fun _ irank => ((ringData irank).drop (w.offset f)).take (w.width f)

/-- `ringAllInfo` once its all-gather has returned: the tables, and whether it reports success. -/
def ringAllInfo (w : Widths) (t : Tables) (gathered : Option Table) : Tables × Bool :=
  match gathered with
  | some ringData => (unpack w t ringData, true)
  | none => (t, true)

end Vccl.Bootstrap.Ring
