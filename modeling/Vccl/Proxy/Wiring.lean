import Vccl.Proxy.Op

/-! The connections an op is appended to. In PASS_SM mode they are those of the communicator; in the
other mode network connections of index 1 may be shared too. -/
namespace Vccl.Proxy

open List

/-- Which ops need a proxy depends on no more of a connector than whether it has a progress function.
Without sharing every connection has its own append pointer, which names it. -/
def Comm.plain (comm : Comm) : Comm :=
  { comm with
    connector := fun side c peer i =>
      { comm.connector side c peer i with transport := .p2p, shared := false }
    psmIndex := by
      intro _ _ _ _ psm
      cases psm
    sharedTransport := by
      intro _ _ _ _ shared
      cases shared }

/-- An op in the pool of a progress thread. A connection is named by its own append pointer;
`proxyRank` is the local rank of the thread. -/
structure Entry where
  op : ProxyOp
  connection : AppendPtr
  shared : Bool
  ptr : AppendPtr
  proxyRank : Nat
  deriving DecidableEq

/-- What the transports set up. CollNet has its connectors at the peer after the ranks and shares all
of them; the network transports share connections of index 1 only. -/
structure Wiring (comm : Comm) where
  connector : Side → Nat → Nat → Nat → Connector
  proxyRank : AppendPtr → Nat
  progress : ∀ side c peer i,
    (connector side c peer i).proxyProgress = (comm.connector side c peer i).proxyProgress
  sharedIndex : ∀ side c peer i, (connector side c peer i).shared = true →
    (connector side c peer i).transport = .collNet ∨ i = 1
  collNetPeer : ∀ side c peer i, (connector side c peer i).transport = .collNet → peer = comm.nRanks

variable {comm : Comm}

/-- The connection with its append pointer; those that are no connectors are the profiler's. -/
def Wiring.entry (w : Wiring comm) (e : Appended) : Entry :=
  match e.ptr with
  | .own side c peer i =>
    let connector := w.connector side c peer i
    { op := e.op
      connection := e.ptr
      shared := connector.shared
      ptr := if connector.shared then
          if connector.transport = .collNet then .collNet side connector.netDev else .localPeer side c
        else e.ptr
      proxyRank := w.proxyRank e.ptr }
  | _ => { op := e.op, connection := e.ptr, shared := true, ptr := e.ptr, proxyRank := w.proxyRank e.ptr }

def Wiring.saveOp (w : Wiring comm) (op : ProxyOp) : List Entry :=
  (proxySaveOp comm.plain op).map w.entry

/-- The peers of a channel are different ranks, those of the PAT algorithm too. -/
structure Comm.Peered (comm : Comm) : Prop where
  ring : ∀ c, (comm.channels c).ringPrev < comm.nRanks ∧ (comm.channels c).ringNext < comm.nRanks
  tree : ∀ c, ((comm.channels c).treeUp :: (comm.channels c).treeDown).Pairwise
    fun peer peer' => 0 ≤ peer → peer ≠ peer'
  treeRanks : ∀ c, ∀ peer ∈ (comm.channels c).treeUp :: (comm.channels c).treeDown, peer < comm.nRanks
  nvls : ∀ c, [(comm.channels c).nvlsTreeUp, (comm.channels c).nvlsTreeDown1,
    (comm.channels c).nvlsTreeDown2].Pairwise fun peer peer' => 0 ≤ peer → peer ≠ peer'
  nvlsRanks : ∀ c, ∀ peer ∈ [(comm.channels c).nvlsTreeUp, (comm.channels c).nvlsTreeDown1,
    (comm.channels c).nvlsTreeDown2], peer < comm.nRanks
  pat : ∀ op, ((comm.patSteps op).map fun s => (s.1, s.2.1)).Nodup
  patRanks : ∀ op, ∀ s ∈ comm.patSteps op, s.2.1 < comm.nRanks

/-- Where an op goes: the side, peer and index of a connector, and the op with its steps. -/
structure Target where
  side : Side
  peer : Int
  connIndex : Nat
  op : ProxyOp

def Target.save (comm : Comm) (t : Target) : List Appended :=
  saveProxy comm t.side t.peer t.op t.connIndex

def targets (comm : Comm) (op : ProxyOp) : List Target :=
  let peers := comm.channels op.channelId
  let up := peers.treeDown.map (fun peer => ⟨.recv, peer, 0, op⟩) ++ [⟨.send, peers.treeUp, 0, op⟩]
  let down := peers.treeDown.map (fun peer => ⟨.send, peer, 0, op⟩) ++ [⟨.recv, peers.treeUp, 0, op⟩]
  let collnet (peer : Int) : List Target := [⟨.send, peer, 1, op⟩, ⟨.recv, peer, 0, op⟩]
  match op.pattern with
  | .ring | .ringTwice | .pipelineFrom | .pipelineTo =>
    (if needProxy comm .recv op then [⟨.recv, peers.ringPrev, 0, op⟩] else []) ++
      (if needProxy comm .send op then [⟨.send, peers.ringNext, 0, op⟩] else [])
  | .treeUp => up
  | .treeDown => down
  | .treeUpDown => up ++ down
  | .collnetChain => collnet peers.collnetChainUp
  | .collnetDirect => collnet peers.collnetDirectOut
  | .nvls => collnet peers.nvlsOut
  | .nvlsTree =>
    [⟨.recv, peers.nvlsTreeDown1, 0, op⟩, ⟨.recv, peers.nvlsTreeDown2, 0, op⟩,
      ⟨.send, peers.nvlsTreeUp, 0, op⟩, ⟨.send, peers.nvlsTreeDown1, 0, op⟩,
      ⟨.send, peers.nvlsTreeDown2, 0, op⟩, ⟨.recv, peers.nvlsTreeUp, 0, op⟩]
  | .patUp | .patDown =>
    (comm.patSteps op).map fun s => ⟨s.1, s.2.1, 0, { op with nsteps := s.2.2 }⟩
  | .send => if op.root = comm.rank then [] else [⟨.send, op.root, 1, op⟩]
  | .recv => if op.root = comm.rank then [] else [⟨.recv, op.root, 1, op⟩]
  | .profiler => []

theorem proxySaveOp_targets (op : ProxyOp) (connector : op.pattern ≠ .profiler) :
    proxySaveOp comm op = (targets comm op).flatMap (Target.save comm) := by
  cases pattern : op.pattern with
  | profiler => exact absurd pattern connector
  | ring | ringTwice | pipelineFrom | pipelineTo =>
    simp only [proxySaveOp, targets, pattern]
    split <;> split <;> simp [Target.save]
  | treeUp | treeDown | treeUpDown =>
    simp [proxySaveOp, targets, pattern, proxySaveOp.up, proxySaveOp.down, Target.save,
      flatMap_map]
  | collnetChain | collnetDirect | nvls =>
    simp [proxySaveOp, targets, pattern, proxySaveOp.collnet, Target.save]
  | nvlsTree => simp [proxySaveOp, targets, pattern, Target.save]
  | patUp | patDown => simp [proxySaveOp, targets, pattern, Target.save, flatMap_map]
  | send | recv =>
    simp only [proxySaveOp, targets, pattern]
    split <;> simp [Target.save]

theorem targets_distinct (peered : comm.Peered) (op : ProxyOp) :
    (targets comm op).Pairwise fun t t' => 0 ≤ t.peer → t.side = t'.side → t.peer ≠ t'.peer := by
  cases hp : op.pattern with
  | profiler => simp [targets, hp]
  | ring | ringTwice | pipelineFrom | pipelineTo =>
    simp only [targets, hp]
    split <;> split <;> simp
  | treeUp | treeDown =>
    have tree := pairwise_cons.mp (peered.tree op.channelId)
    simp [targets, hp, pairwise_append, pairwise_map, tree.2]
  | treeUpDown =>
    have tree := pairwise_cons.mp (peered.tree op.channelId)
    simp only [targets, hp, pairwise_append, mem_append, mem_map]
    grind
  | collnetChain | collnetDirect | nvls => simp [targets, hp]
  | nvlsTree =>
    have tree := peered.nvls op.channelId
    simp only [targets]
    grind
  | patUp | patDown =>
    have pat := pairwise_map.mp (peered.pat op)
    simp only [targets, hp, pairwise_map]
    refine pat.imp ?_
    grind
  | send | recv =>
    simp only [targets, hp]
    split <;> simp

def Pattern.isCollnet : Pattern → Bool
  | .collnetChain | .collnetDirect | .nvls => true
  | _ => false

variable {op : ProxyOp}

theorem targets_sides (point : op.pattern.isCollnet = true ∨ op.pattern = .send ∨ op.pattern = .recv) :
    (targets comm op).Pairwise fun t t' => t.side ≠ t'.side := by
  cases pattern : op.pattern with
  | collnetChain | collnetDirect | nvls => simp [targets, pattern]
  | send | recv =>
    simp only [targets, pattern]
    split <;> simp
  | _ => simp [pattern, Pattern.isCollnet] at point

theorem targets_op {t : Target} (mem : t ∈ targets comm op) :
    t.op = { op with nsteps := t.op.nsteps } := by
  by_cases pat : op.pattern = .patUp ∨ op.pattern = .patDown
  · have steps : t ∈ (comm.patSteps op).map fun s => (⟨s.1, s.2.1, 0, { op with nsteps := s.2.2 }⟩ : Target) := by
      rcases pat with hp | hp <;> simpa only [targets, hp] using mem
    obtain ⟨s, -, rfl⟩ := mem_map.mp steps
    rfl
  · have same : t.op = op := by
      unfold targets at mem
      grind
    rw [same]

theorem targets_kind (peered : comm.Peered) {t : Target} (mem : t ∈ targets comm op) :
    t.connIndex = 0 ∧ t.peer < comm.nRanks ∧ op.pattern ≠ .send ∧ op.pattern ≠ .recv ∨
      op.pattern.isCollnet = true ∧ t.connIndex = (if t.side = .send then 1 else 0) ∨
      t.connIndex = 1 ∧ t.peer = op.root ∧
        (op.pattern = .send ∧ t.side = .send ∨ op.pattern = .recv ∧ t.side = .recv) := by
  cases pattern : op.pattern with
  | profiler => simp [targets, pattern] at mem
  | ring | ringTwice | pipelineFrom | pipelineTo =>
    have ring := peered.ring op.channelId
    simp only [targets] at mem
    left
    grind
  | treeUp | treeDown | treeUpDown =>
    have tree := forall_mem_cons.mp (peered.treeRanks op.channelId)
    simp only [targets, pattern, mem_append] at mem
    left
    grind
  | collnetChain | collnetDirect | nvls =>
    simp only [targets, pattern, mem_cons, not_mem_nil, or_false] at mem
    rcases mem with rfl | rfl <;> simp [Pattern.isCollnet]
  | nvlsTree =>
    have nvls := forall_mem_cons.mp (peered.nvlsRanks op.channelId)
    simp only [forall_mem_cons] at nvls
    simp only [targets] at mem
    left
    grind
  | patUp | patDown =>
    simp only [targets, pattern, mem_map] at mem
    obtain ⟨s, ht, rfl⟩ := mem
    have := peered.patRanks op s ht
    left
    simp
    omega
  | send | recv =>
    simp only [targets, pattern] at mem
    split at mem
    · simp at mem
    · obtain rfl := mem_singleton.mp mem
      simp

def Wiring.link (w : Wiring comm) (t : Target) : Entry :=
  let own := AppendPtr.own t.side t.op.channelId t.peer.toNat t.connIndex
  let connector := w.connector t.side t.op.channelId t.peer.toNat t.connIndex
  { op := t.op
    connection := own
    shared := connector.shared
    ptr := if connector.shared then
        if connector.transport = .collNet then .collNet t.side connector.netDev
        else .localPeer t.side t.op.channelId
      else own
    proxyRank := w.proxyRank own }

def Target.connected (comm : Comm) (t : Target) : Bool :=
  decide (0 ≤ t.peer) &&
    (comm.connector t.side t.op.channelId t.peer.toNat t.connIndex).proxyProgress

theorem save_plain (w : Wiring comm) (t : Target) :
    (t.save comm.plain).map w.entry = if t.connected comm then [w.link t] else [] := by
  unfold Target.save saveProxy Target.connected
  by_cases hm : t.peer < 0
  · simp [show ¬ 0 ≤ t.peer by omega]
  have plain : (comm.plain.connector t.side t.op.channelId t.peer.toNat t.connIndex).proxyProgress =
      (comm.connector t.side t.op.channelId t.peer.toNat t.connIndex).proxyProgress := rfl
  simp only [hm, if_false, plain, show 0 ≤ t.peer by omega, decide_true, Bool.true_and]
  split
  · rfl
  · rfl

theorem Wiring.saveOp_eq (w : Wiring comm) (connector : op.pattern ≠ .profiler) :
    w.saveOp op = ((targets comm op).filter (Target.connected comm)).map w.link := by
  unfold Wiring.saveOp
  rw [proxySaveOp_targets op connector, map_flatMap]
  have same : targets comm.plain op = targets comm op := rfl
  rw [same]
  induction targets comm op with
  | nil => rfl
  | cons t rest ih =>
    rw [flatMap_cons, save_plain, ih, filter_cons]
    split <;> rfl

theorem Wiring.saveOp_profiler (w : Wiring comm) (profiler : op.pattern = .profiler) :
    w.saveOp op = if profilerNeedsProxy comm op then
      [⟨op, .profiler op.forRecv op.channelId, true, .profiler op.forRecv op.channelId,
        w.proxyRank (.profiler op.forRecv op.channelId)⟩] else [] := by
  unfold Wiring.saveOp proxySaveOp
  rw [profiler]
  simp only [show profilerNeedsProxy comm.plain op = profilerNeedsProxy comm op from rfl]
  split <;> rfl

end Vccl.Proxy
