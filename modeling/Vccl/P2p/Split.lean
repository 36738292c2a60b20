import Vccl.Bitops
import Vccl.Lib.Chunks

/-! How `addP2pToPlan` splits one direction of a send/recv pair over channels and
steps, and the loop the device runs for each part. An integer division by zero of
the source is `none`. -/
namespace Vccl.P2p

def ncclSteps : Nat := 8
def ncclMaxNetSize : Nat := 512 * 1024

inductive Protocol where
  | ll
  | simple
  deriving DecidableEq

/-- What the split reads of the communicator and of the parameters. The chunk sizes fit
the `int` variables they are stored in, as `computeBuffSizes` keeps `NCCL_STEPS` chunks
within an `int` buffer size. -/
structure Comm where
  nNodes : Nat
  isAllNvlink : Bool
  p2pChunkSize : Nat
  llBuffSize : Nat
  paramChunkSize : Nat
  paramP2pLLThreshold : Nat
  nChannelsMin : Nat
  nChannelsMax : Nat
  chunkFits : ncclSteps * p2pChunkSize < 2 ^ 31
  llFits : llBuffSize < 2 ^ 31
  paramFits : paramChunkSize < 2 ^ 31
  someChannel : 0 < nChannelsMin
  channelRange : nChannelsMin ≤ nChannelsMax
  maxChannels : nChannelsMax ≤ 64

def singleChannel : Comm where
  nNodes := 2
  isAllNvlink := true
  p2pChunkSize := 2 ^ 17
  llBuffSize := 2 ^ 16
  paramChunkSize := 0
  paramP2pLLThreshold := 2 ^ 14
  nChannelsMin := 1
  nChannelsMax := 1
  chunkFits := by decide
  llFits := by decide
  paramFits := by decide
  someChannel := Nat.one_pos
  channelRange := by decide
  maxChannels := by decide

/-- One direction of a pair; `-1` bytes stand for no operation. `regFlag` is the outcome of
the registration calls, network or IPC, whichever the direction asks for. -/
structure Transfer where
  bytes : Int
  network : Bool
  llBuffers : Bool
  proxySameProcess : Bool
  pxnUsed : Bool
  regFlag : Bool
  sized : -1 ≤ bytes

/-- The fields of `ncclDevWorkP2p` and of the proxy ops that belong to the direction. -/
structure Direction where
  protocol : Protocol
  bytes : Nat
  chunkSizeU32fp8 : Nat
  netRegistered : Bool
  ipcRegistered : Bool
  nChannels : Int
  deriving DecidableEq

def protocolOf (comm : Comm) (t : Transfer) : Protocol :=
  let thresholdLL := comm.nChannelsMax * comm.paramP2pLLThreshold
  if t.llBuffers && (t.bytes == -1 || decide (t.bytes ≤ thresholdLL)) then .ll else .simple

def stepSizeOf (comm : Comm) : Protocol → Nat
  | .ll => comm.llBuffSize / ncclSteps
  | .simple => comm.p2pChunkSize

def chunkSizeOf (comm : Comm) (t : Transfer) (protocol : Protocol) : Nat :=
  let stepSize := stepSizeOf comm protocol
  if comm.paramChunkSize ≠ 0 then comm.paramChunkSize
  else if t.network then
    if protocol = .simple ∧ t.bytes < stepSize then stepSize / 4
    else if t.bytes < 8 * stepSize then stepSize / 2
    else stepSize
  else stepSize

def chunkDataSizeOf (comm : Comm) (t : Transfer) (protocol : Protocol) : Nat :=
  match protocol with
  | .ll => chunkSizeOf comm t protocol / 2
  | .simple => chunkSizeOf comm t protocol

def minPartSize (comm : Comm) (stepSize : Nat) : Nat :=
  if 1 < comm.nNodes then stepSize / 2 else stepSize / 8

def maxPartSize (comm : Comm) (stepSize : Nat) : Nat :=
  if 1 < comm.nNodes then stepSize else stepSize * 32

/-- The doubling loop; a positive channel count leaves it within `nChannelsMax` turns. -/
def growChannels (comm : Comm) (stepSize bytes : Nat) : Nat → Int → Nat → Int
  | 0, n, _ => n
  | fuel + 1, n, partSize =>
    if maxPartSize comm stepSize < partSize ∧ n ≤ (comm.nChannelsMax / 2 : Nat) then
      growChannels comm stepSize bytes fuel (n * 2) (divUp bytes (n * 2).toNat)
    else n

def chooseChannels (comm : Comm) (stepSize : Nat) (bytes : Int) : Option Int :=
  if bytes = -1 then some 0
  else if bytes = 0 then some 1
  else if minPartSize comm stepSize = 0 then none
  else
    let n := min (comm.nChannelsMin : Int) (toInt32 (divUp bytes.toNat (minPartSize comm stepSize)))
    if n = 0 then none
    else
      let partSize := max (minPartSize comm stepSize : Int) (Int.tdiv (bytes + n - 1) n)
      some (growChannels comm stepSize bytes.toNat comm.nChannelsMax n partSize.toNat)

def planDirection (comm : Comm) (t : Transfer) : Option Direction :=
  let protocol := protocolOf comm t
  (chooseChannels comm (stepSizeOf comm protocol) t.bytes).map fun nChannels =>
    { protocol
      bytes := if t.bytes = -1 then 0 else t.bytes.toNat
      chunkSizeU32fp8 := u32fp8Encode (chunkDataSizeOf comm t protocol)
      netRegistered := t.network && decide (0 < t.bytes) && t.proxySameProcess &&
        protocol == .simple && !t.pxnUsed && t.regFlag
      ipcRegistered := !t.network && decide (0 < t.bytes) && protocol == .simple && t.regFlag
      nChannels }

def partBytes (nParts bytes : Nat) : Nat := alignUp (divUp bytes nParts) (4 * 2 ^ 10)

def partBeg (nParts part bytes : Nat) : Nat := min (part * partBytes nParts bytes) bytes

def partEnd (nParts part bytes : Nat) : Nat := min ((part + 1) * partBytes nParts bytes) bytes

/-- `nSendChannels` and `nRecvChannels` are bytes of the work struct. -/
def Direction.nParts (d : Direction) : Nat := (d.nChannels % 2 ^ 8).toNat

def Direction.partSize (d : Direction) (part : Nat) : Nat :=
  partEnd d.nParts part d.bytes - partBeg d.nParts part d.bytes

/-- The bytes of one host step: registered buffers move in pieces of the network maximum. -/
def Direction.hostChunk (d : Direction) : Nat :=
  if d.netRegistered then ncclMaxNetSize else u32fp8Decode d.chunkSizeU32fp8

def partNsteps (d : Direction) (part : Nat) : Option Nat :=
  if d.nParts ≤ part then some 0
  else if d.bytes = 0 then some 1
  else if d.hostChunk = 0 then none
  else some (divUp (d.partSize part) d.hostChunk)

/-- `proxyOps[dir].nsteps`; an op is created unless it is zero. -/
def proxyNsteps (d : Direction) (part : Nat) : Option Int :=
  (partNsteps d part).map fun n => toInt32 n

def deviceChunk (comm : Comm) (d : Direction) : Nat :=
  let useLargeChunk := (d.ipcRegistered && comm.isAllNvlink) || d.netRegistered
  toSizeT (if useLargeChunk then ncclMaxNetSize else toInt32 (u32fp8Decode d.chunkSizeU32fp8))

/-- Offset and size of every `directSend` (`directRecv`) of `runSend` (`runRecv`) for a part. -/
def deviceCalls (comm : Comm) (d : Direction) (part : Nat) : Option (List (Nat × Nat)) :=
  if part < d.nParts then
    Chunks.doWhile (deviceChunk comm d) (d.partSize part) (d.partSize part + 1) 0
  else some []

/-- Each call advances the connection by one step, also when it moves no bytes. -/
def deviceNsteps (comm : Comm) (d : Direction) (part : Nat) : Option Nat :=
  (deviceCalls comm d part).map List.length

end Vccl.P2p
