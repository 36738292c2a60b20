import Mathlib

/-! Proxy ops and `ncclProxySaveOp`: to which connections an op is appended. Every connector
has its transport, since connections are set up before tasks are planned. -/
namespace Vccl.Proxy

inductive Pattern where
  | ring
  | ringTwice
  | pipelineFrom
  | pipelineTo
  | treeUp
  | treeDown
  | treeUpDown
  | collnetChain
  | collnetDirect
  | nvls
  | nvlsTree
  | patUp
  | patDown
  | send
  | recv
  | profiler
  deriving DecidableEq

inductive Protocol where
  | ll
  | ll128
  | simple
  deriving DecidableEq

inductive Side where
  | recv
  | send
  deriving DecidableEq

inductive Transport where
  | p2p
  | shm
  | net
  | collNet
  | profiler
  | psmP2p
  | psmNet
  deriving DecidableEq

def Transport.isPsm : Transport → Bool
  | .psmP2p | .psmNet => true
  | _ => false

/-- `forRecv`: the op belongs to an `ncclRecv`; `kernelCh`: the profiler asked for kernel
channel events of the task. -/
structure ProxyOp where
  channelId : Nat
  opCount : Nat
  pattern : Pattern
  root : Nat
  nbytes : Nat
  nsteps : Int
  sliceSteps : Nat
  protocol : Protocol
  reg : Bool
  regp : Bool
  forRecv : Bool
  kernelCh : Bool
  deriving DecidableEq

/-- What a connector tells about its connection; `proxyProgress` is whether there is a
progress function. -/
structure Connector where
  transport : Transport
  shared : Bool
  netDev : Nat
  proxyProgress : Bool
  deriving DecidableEq

/-- Shared connections have one append pointer for a direction and a channel, those of CollNet
for a direction and a device. -/
inductive AppendPtr where
  | localPeer (side : Side) (channel : Nat)
  | collNet (side : Side) (netDev : Nat)
  | own (side : Side) (channel peer connIndex : Nat)
  | profiler (forRecv : Bool) (channel : Nat)
  deriving DecidableEq

/-- The peers of a channel; `-1` stands for no peer. -/
structure ChannelPeers where
  ringPrev : Int
  ringNext : Int
  userRanks : Nat → Nat
  treeUp : Int
  treeDown : List Int
  collnetChainUp : Int
  collnetDirectOut : Int
  nvlsOut : Int
  nvlsTreeUp : Int
  nvlsTreeDown1 : Int
  nvlsTreeDown2 : Int

/-- `patSteps` stands for the run of the PAT algorithm: the peers with steps, in order. In
PASS_SM mode `selectTransport` takes the PSM transports for connections of index 1 and no
others; network connections of index 0 are not shared. -/
structure Comm where
  rank : Nat
  nRanks : Nat
  channels : Nat → ChannelPeers
  connector : Side → Nat → Nat → Nat → Connector
  patSteps : ProxyOp → List (Side × Nat × Nat)
  profilerPluginLoaded : Bool
  psmIndex : ∀ side c peer i, (connector side c peer i).transport.isPsm = true → i = 1
  sharedTransport : ∀ side c peer i, (connector side c peer i).shared = true →
    (connector side c peer i).transport = .psmNet ∨ (connector side c peer i).transport = .collNet

structure Appended where
  op : ProxyOp
  side : Side
  transport : Transport
  shared : Bool
  ptr : AppendPtr
  deriving DecidableEq

def needProxy (comm : Comm) (side : Side) (op : ProxyOp) : Bool :=
  let ranks := (comm.channels op.channelId).userRanks
  match op.pattern, side with
  | .ring, _ | .ringTwice, _ => true
  | .pipelineFrom, .recv => op.root != ranks 0
  | .pipelineFrom, .send => op.root != ranks 1
  | _, .recv => op.root != ranks (comm.nRanks - 1)
  | _, .send => op.root != ranks 0

def saveProxy (comm : Comm) (side : Side) (peer : Int) (op : ProxyOp) (connIndex : Nat) :
    List Appended :=
  if peer < 0 then []
  else
    let connector := comm.connector side op.channelId peer.toNat connIndex
    if connector.proxyProgress then
      [{ op, side
         transport := connector.transport
         shared := connector.shared
         ptr := if connector.shared then
             if connector.transport = .collNet then .collNet side connector.netDev
             else .localPeer side op.channelId
           else .own side op.channelId peer.toNat connIndex }]
    else []

def saveProxyProfiler (op : ProxyOp) : Appended where
  op
  side := .send
  transport := .profiler
  shared := true
  ptr := .profiler op.forRecv op.channelId

def profilerNeedsProxy (comm : Comm) (op : ProxyOp) : Bool :=
  comm.profilerPluginLoaded && op.kernelCh

def proxySaveOp (comm : Comm) (op : ProxyOp) : List Appended :=
  let peers := comm.channels op.channelId
  match op.pattern with
  | .ring | .ringTwice | .pipelineFrom | .pipelineTo =>
    (if needProxy comm .recv op then saveProxy comm .recv peers.ringPrev op 0 else []) ++
      (if needProxy comm .send op then saveProxy comm .send peers.ringNext op 0 else [])
  | .treeUp => up peers
  | .treeDown => down peers
  | .treeUpDown => up peers ++ down peers
  | .collnetChain => collnet peers.collnetChainUp
  | .collnetDirect => collnet peers.collnetDirectOut
  | .nvls => collnet peers.nvlsOut
  | .nvlsTree =>
    saveProxy comm .recv peers.nvlsTreeDown1 op 0 ++ saveProxy comm .recv peers.nvlsTreeDown2 op 0 ++
      saveProxy comm .send peers.nvlsTreeUp op 0 ++ saveProxy comm .send peers.nvlsTreeDown1 op 0 ++
      saveProxy comm .send peers.nvlsTreeDown2 op 0 ++ saveProxy comm .recv peers.nvlsTreeUp op 0
  | .patUp | .patDown =>
    (comm.patSteps op).flatMap fun (side, peer, nsteps) =>
      saveProxy comm side peer { op with nsteps } 0
  | .send => if op.root = comm.rank then [] else saveProxy comm .send op.root op 1
  | .recv => if op.root = comm.rank then [] else saveProxy comm .recv op.root op 1
  | .profiler => if profilerNeedsProxy comm op then [saveProxyProfiler op] else []
where
  up (peers : ChannelPeers) : List Appended :=
    peers.treeDown.flatMap (fun peer => saveProxy comm .recv peer op 0) ++
      saveProxy comm .send peers.treeUp op 0
  down (peers : ChannelPeers) : List Appended :=
    peers.treeDown.flatMap (fun peer => saveProxy comm .send peer op 0) ++
      saveProxy comm .recv peers.treeUp op 0
  collnet (peer : Int) : List Appended :=
    saveProxy comm .send peer op 1 ++ saveProxy comm .recv peer op 0

def addProxyOpIfNeeded (comm : Comm) (op : ProxyOp) (queue : List ProxyOp) : List ProxyOp :=
  if proxySaveOp comm op = [] then queue else queue ++ [op]

def addProfilerProxyOpIfNeeded (comm : Comm) (op : ProxyOp) (queue : List ProxyOp) :
    List ProxyOp :=
  addProxyOpIfNeeded comm { op with pattern := .profiler } queue

end Vccl.Proxy
