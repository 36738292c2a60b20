import Vccl.Lib.Packed
import Vccl.Lib.Transition

/-! `ncclTransportP2pSetup` on all ranks of a communicator. In round `i` a rank deals with the peers `i` ranks before and
after it; the records its set-up functions write are packed into one buffer per round, sent to the peers, and overwritten
with the records of the peers. After `maxPeers` rounds the connections of the batch are made. -/
namespace Vccl.Transport

open Packed
open Function (update)

def MAXCHANNELS : Nat := 64

inductive Dir where
  | send
  | recv
deriving DecidableEq

def Dir.opposite : Dir → Dir
  | .send => .recv
  | .recv => .send

/-- The communicator on all ranks. `connectSend` and `connectRecv` are the masks by rank and peer, and `setup` is the
record that the set-up function of the selected transport writes, by rank, direction, peer and channel. -/
structure Job (R : Type) where
  nRanks : Nat
  maxPeers : Int
  graphTag : Nat
  connectSend : Nat → Nat → BitVec 64
  connectRecv : Nat → Nat → BitVec 64
  connected : Nat → Dir → Nat → Nat → Bool
  zero : R
  setup : Nat → Dir → Nat → Nat → R
  some_rank : 0 < nRanks
  consistent : ∀ a b, a < nRanks → b < nRanks → a ≠ b → ∀ c, (connectSend a b).getLsbD c = (connectRecv b a).getLsbD c

/-- A call of a connect function; it succeeds or returns `ncclInProgress`. -/
structure Call (R : Type) where
  dir : Dir
  peer : Nat
  channel : Nat
  record : R
  success : Bool

inductive Stage where
  | setup
  | exchange
  | connect
  | finished
  | failed
  | outOfBounds
deriving DecidableEq

/-- The locals of the function. The pointers `recvData[p]` and `sendData[p]` point into `data[p]`. -/
structure Rank (R : Type) where
  i : Nat
  done : Nat
  stage : Stage
  data : Nat → Nat → R
  recvData : Nat → Nat
  sendData : Nat → Nat
  recvChannels : Nat
  sendChannels : Nat
  connected : Dir → Nat → Nat → Bool
  calls : List (Call R)

/-- What was sent and has not been received, by sender, receiver and tag. -/
abbrev Mail (R : Type) := Nat → Nat → Nat → List (List R)

structure Net (R : Type) where
  ranks : Nat → Rank R
  mail : Mail R

variable {R : Type} (job : Job R)

namespace Job

def bootstrapTag (i : Nat) : Nat := i <<< 8 + job.graphTag

def recvPeer (rank i : Nat) : Nat := (rank + job.nRanks - i) % job.nRanks

def sendPeer (rank i : Nat) : Nat := (rank + i) % job.nRanks

def peer (rank i : Nat) : Dir → Nat
  | .send => job.sendPeer rank i
  | .recv => job.recvPeer rank i

def mask (rank : Nat) : Dir → Nat → BitVec 64
  | .send, peer => job.connectSend rank peer
  | .recv, peer => job.connectRecv rank peer

end Job

def Rank.p (st : Rank R) : Nat := st.i - (st.done + 1)

def setupChannels (mask : BitVec 64) (record : Nat → R) (base : Nat) (buf : Nat → R) : (Nat → R) × Nat :=
  (List.range MAXCHANNELS).foldl
    (fun acc c => if mask.getLsbD c then (update acc.1 (base + acc.2) (record c), acc.2 + 1) else acc) (buf, 0)

/-- A round up to the calls of `bootstrapSend`, with what is sent to whom. -/
def setupRound (rank : Nat) (st : Rank R) : Rank R × List (Nat × List R) :=
  let recvPeer := job.recvPeer rank st.i
  let sendPeer := job.sendPeer rank st.i
  let recvMask := job.connectRecv rank recvPeer
  let sendMask := job.connectSend rank sendPeer
  let buf := if recvMask ≠ 0 ∨ sendMask ≠ 0 then fun _ => job.zero else st.data st.p
  let (buf, recvChannels) := setupChannels recvMask (job.setup rank .recv recvPeer) 0 buf
  let (buf, sendChannels) := setupChannels sendMask (job.setup rank .send sendPeer) recvChannels buf
  let messages :=
    if sendPeer = recvPeer then
      if recvChannels + sendChannels ≠ 0 then [(recvPeer, slice buf 0 (recvChannels + sendChannels))] else []
    else
      (if recvChannels ≠ 0 then [(recvPeer, slice buf 0 recvChannels)] else []) ++
        if sendChannels ≠ 0 then [(sendPeer, slice buf recvChannels sendChannels)] else []
  ({ st with
      stage := .exchange, recvChannels, sendChannels
      data := update st.data st.p buf
      recvData := update st.recvData st.p 0
      sendData := update st.sendData st.p recvChannels }, messages)

def post (mail : Mail R) (src tag : Nat) (message : Nat × List R) : Mail R :=
  update mail src (update (mail src) message.1
    (update (mail src message.1) tag (mail src message.1 tag ++ [message.2])))

/-- `bootstrapRecv` of `count` records into the buffer of the round; it waits if there is no message, and fails if the
message is too long. -/
def receiveInto (rank src count base : Nat) (st : Rank R) (mail : Mail R) : Option (Rank R × Mail R) :=
  let tag := job.bootstrapTag st.i
  match mail src rank tag with
  | [] => none
  | message :: rest =>
    let mail := update mail src (update (mail src) rank (update (mail src rank) tag rest))
    if count < message.length then some ({ st with stage := .failed }, mail)
    else some ({ st with data := update st.data st.p (write (st.data st.p) base message) }, mail)

def receiveRound (rank : Nat) (st : Rank R) (mail : Mail R) : Option (Rank R × Mail R) :=
  let recvPeer := job.recvPeer rank st.i
  let sendPeer := job.sendPeer rank st.i
  if sendPeer = recvPeer then
    if st.recvChannels + st.sendChannels ≠ 0 then
      (receiveInto job rank recvPeer (st.recvChannels + st.sendChannels) 0 st mail).map fun (st, mail) =>
        ({ st with
            sendData := update st.sendData st.p 0
            recvData := update st.recvData st.p st.sendChannels }, mail)
    else some (st, mail)
  else do
    let (st, mail) ←
      if st.sendChannels ≠ 0 then receiveInto job rank sendPeer st.sendChannels (st.sendData st.p) st mail
      else some (st, mail)
    if st.recvChannels ≠ 0 ∧ st.stage ≠ .failed then
      receiveInto job rank recvPeer st.recvChannels (st.recvData st.p) st mail
    else some (st, mail)

def advance (st : Rank R) : Rank R :=
  { st with i := st.i + 1, stage := if st.i + 1 < job.nRanks then .setup else .finished }

def afterReceive (st : Rank R) : Rank R :=
  if st.stage = .failed then st
  else if (st.i : Int) - st.done = job.maxPeers ∨ st.i = job.nRanks - 1 then { st with stage := .connect }
  else advance job st

/-- The part of a pass over the connections that deals with one of them. The flag says whether all are connected. -/
def connectOne (results : Dir → Nat → Nat → Bool) (dir : Dir) (peer c : Nat) (record : R) (acc : Rank R × Bool) :
    Rank R × Bool :=
  let (st, all) := acc
  if st.connected dir peer c then acc
  else
    let success := results dir peer c
    let connected := fun d q c' => if d = dir ∧ q = peer ∧ c' = c then success else st.connected d q c'
    ({ st with connected, calls := st.calls ++ [⟨dir, peer, c, record, success⟩] }, all && success)

def connectChannel (rank : Nat) (results : Dir → Nat → Nat → Bool) (j p : Nat) (acc : (Rank R × Bool) × Nat × Nat)
    (c : Nat) : (Rank R × Bool) × Nat × Nat :=
  let (acc, sendDataOffset, recvDataOffset) := acc
  let sendPeer := job.sendPeer rank j
  let recvPeer := job.recvPeer rank j
  let (acc, sendDataOffset) :=
    if (job.connectSend rank sendPeer).getLsbD c then
      (connectOne results .send sendPeer c (acc.1.data p (acc.1.sendData p + sendDataOffset)) acc, sendDataOffset + 1)
    else (acc, sendDataOffset)
  let (acc, recvDataOffset) :=
    if (job.connectRecv rank recvPeer).getLsbD c then
      (connectOne results .recv recvPeer c (acc.1.data p (acc.1.recvData p + recvDataOffset)) acc, recvDataOffset + 1)
    else (acc, recvDataOffset)
  (acc, sendDataOffset, recvDataOffset)

def connectRound (rank : Nat) (results : Dir → Nat → Nat → Bool) (st : Rank R × Bool) (j : Nat) : Rank R × Bool :=
  ((List.range MAXCHANNELS).foldl (connectChannel job rank results j (j - (st.1.done + 1))) (st, 0, 0)).1

/-- One turn of the loop that runs until all channels with all ranks of the batch have been connected. -/
def connectPass (rank : Nat) (results : Dir → Nat → Nat → Bool) (st : Rank R) : Rank R :=
  let (st, allChannelsConnected) :=
    (List.range' (st.done + 1) (st.i - st.done)).foldl (connectRound job rank results) (st, true)
  if allChannelsConnected then advance job { st with done := st.i } else st

inductive Action where
  | setup (rank : Nat)
  | receive (rank : Nat)
  | connect (rank : Nat) (results : Dir → Nat → Nat → Bool)

def step (s : Net R) : Action → Option (Net R)
  | .setup rank =>
    let st := s.ranks rank
    if rank < job.nRanks ∧ st.stage = .setup then
      if job.maxPeers ≤ st.p then
        some { s with ranks := update s.ranks rank { st with stage := .outOfBounds } }
      else
        let (st', messages) := setupRound job rank st
        some ⟨update s.ranks rank st',
          messages.foldl (fun mail message => post mail rank (job.bootstrapTag st.i) message) s.mail⟩
    else none
  | .receive rank =>
    let st := s.ranks rank
    if rank < job.nRanks ∧ st.stage = .exchange then
      (receiveRound job rank st s.mail).map fun (st, mail) =>
        ⟨update s.ranks rank (afterReceive job st), mail⟩
    else none
  | .connect rank results =>
    let st := s.ranks rank
    if rank < job.nRanks ∧ st.stage = .connect then
      some { s with ranks := update s.ranks rank (connectPass job rank results st) }
    else none

/-- Before the loop: the arrays of `maxPeers` pointers cannot be allocated if `maxPeers` is negative. -/
def Net.initial : Net R where
  ranks rank :=
    { i := 1, done := 0
      stage := if job.maxPeers < 0 then .failed else if 1 < job.nRanks then .setup else .finished
      data := fun _ _ => job.zero, recvData := fun _ => 0, sendData := fun _ => 0, recvChannels := 0, sendChannels := 0
      connected := job.connected rank, calls := [] }
  mail _ _ _ := []

end Vccl.Transport
