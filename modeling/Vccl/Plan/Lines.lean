import Vccl.Plan.Merge
import Vccl.Plan.Separation
import Vccl.P2p.Schedule

/-! The op queues of the channels of a plan: their ids grow, the collectives come first, and the ops of
one id are for different peers. -/
namespace Vccl.Plan

open List
open Proxy (ProxyOp Side Protocol Pattern)

/-- What the schedule and `calcCollChunking` promise. Protocol and slice steps of an op depend on its
task only; the sizes are an `int` and a `uint32_t`. -/
structure Comm.Regular (comm : Comm) : Prop where
  sends : (comm.p2pSchedule.map Prod.fst).Nodup
  recvs : (comm.p2pSchedule.map Prod.snd).Nodup
  ranks : ∀ p ∈ comm.p2pSchedule, p.1 < comm.nRanks ∧ p.2 < comm.nRanks
  patterns : ∀ task n count, (comm.calcCollChunking task n count).pattern ≠ .send ∧
    (comm.calcCollChunking task n count).pattern ≠ .recv ∧
    (comm.calcCollChunking task n count).pattern ≠ .profiler
  headers : ∀ task n n' count count',
    (comm.calcCollChunking task n count).sliceSteps = (comm.calcCollChunking task n' count').sliceSteps ∧
    (comm.calcCollChunking task n count).protocol = (comm.calcCollChunking task n' count').protocol
  argsBytes : comm.workArgsBytes < 2 ^ 31
  fifoBytes : comm.workFifoBytes < 2 ^ 32

def sidePattern : Side → Pattern
  | .send => .send
  | .recv => .recv

def roundPeer (comm : Comm) (side : Side) (round : Nat) : Option Nat :=
  comm.p2pSchedule[round]?.map fun p => match side with
    | .send => p.1
    | .recv => p.2

theorem roundPeer_inj {comm : Comm} (regular : comm.Regular) {side : Side} {r r' peer : Nat}
    (left : roundPeer comm side r = some peer) (right : roundPeer comm side r' = some peer) : r = r' := by
  have same {f : Nat × Nat → Nat} (distinct : (comm.p2pSchedule.map f).Nodup)
      (left : comm.p2pSchedule[r]?.map f = some peer) (right : comm.p2pSchedule[r']?.map f = some peer) :
      r = r' := by
    rw [← List.getElem?_map] at left right
    obtain ⟨_, at_r⟩ := List.getElem?_eq_some_iff.mp left
    obtain ⟨_, at_r'⟩ := List.getElem?_eq_some_iff.mp right
    exact distinct.getElem_inj_iff.mp (at_r.trans at_r'.symm)
  cases side with
  | send => exact same regular.sends left right
  | recv => exact same regular.recvs left right

def Follows (a b : ProxyOp) : Prop :=
  mergeKey a.opCount ≤ mergeKey b.opCount ∧
    (a.opCount = b.opCount → a.pattern ≠ .profiler → b.pattern ≠ .profiler →
      a.opCount % 2 = 1 ∧ (a.pattern = b.pattern → a.root ≠ b.root))

/-- An op of one of the first `K` collectives; `header` tells what the ops of a collective share. -/
structure OfColl (header : Nat → Nat × Protocol) (K : Nat) (op : ProxyOp) : Prop where
  even : op.opCount % 2 = 0
  before : op.opCount < 2 * K
  noSend : op.pattern ≠ .send
  noRecv : op.pattern ≠ .recv
  function : op.forRecv = false
  shares : (op.sliceSteps, op.protocol) = header op.opCount

/-- An op of a send or receive; `fits` tells which protocols a peer allows. -/
structure OfPoint (comm : Comm) (fits : Side → Nat → Protocol → Prop) (op : ProxyOp) : Prop where
  odd : op.opCount % 2 = 1
  slices : op.sliceSteps = 1
  peer : op.pattern = .profiler ∨ ∃ side, op.pattern = sidePattern side ∧
    op.forRecv = decide (side = .recv) ∧ op.root < comm.nRanks ∧ fits side op.root op.protocol

section

variable {comm : Comm} {fits : Side → Nat → Protocol → Prop} {header : Nat → Nat × Protocol}
  {K : Nat} {chan : WipChannel} {op : ProxyOp}

theorem enqueue_ordered (ordered : chan.proxyOps.Pairwise Follows)
    (later : ∀ a ∈ chan.proxyOps, Follows a op) : (enqueue comm op chan).proxyOps.Pairwise Follows := by
  obtain ⟨_, hq, hi⟩ := enqueue_proxyOps comm op chan
  rw [hq]
  have two : [op, { op with pattern := .profiler }].Pairwise Follows := by
    simp [Follows]
  refine pairwise_append.mpr ⟨ordered, two.sublist hi, ?_⟩
  intro a old b new
  have mem := hi.subset new
  simp only [mem_cons, not_mem_nil, or_false] at mem
  rcases mem with rfl | rfl
  · exact later a old
  · exact ⟨(later a old).1, by simp⟩

structure CollLine (header : Nat → Nat × Protocol) (K : Nat) (chan : WipChannel) : Prop where
  ordered : chan.proxyOps.Pairwise Follows
  colls : ∀ op ∈ chan.proxyOps, OfColl header K op

variable {header' : Nat → Nat × Protocol}

theorem OfColl.mono (h : OfColl header K op) (same : ∀ k < 2 * K, header' k = header k) :
    OfColl header' (K + 1) op := by
  have before := h.before
  refine ⟨h.even, by omega, h.noSend, h.noRecv, h.function, ?_⟩
  rw [same _ h.before]
  exact h.shares

theorem CollLine.mono (h : CollLine header K chan) (same : ∀ k < 2 * K, header' k = header k) :
    CollLine header' (K + 1) chan :=
  ⟨h.ordered, fun op mem => (h.colls op mem).mono same⟩

variable {p2pRound : Nat}

theorem CollLine.add {workType : WorkType} {fn : DevFunc} {workOffset : Nat} (h : CollLine header K chan)
    (same : ∀ k < 2 * K, header' k = header k) (count : op.opCount = 2 * K) (noSend : op.pattern ≠ .send)
    (noRecv : op.pattern ≠ .recv) (function : op.forRecv = false)
    (shares : (op.sliceSteps, op.protocol) = header' (2 * K)) :
    CollLine header' (K + 1)
      (enqueue comm op (addWorkBatch chan workType fn workOffset p2pRound).1) := by
  refine ⟨enqueue_ordered h.ordered ?_, enqueue_home ?_ ?_ ?_⟩
  · intro a old
    have of := h.colls a old
    have before := of.before
    have even := of.even
    refine ⟨?_, by omega⟩
    unfold mergeKey
    omega
  · exact ⟨by omega, by omega, noSend, noRecv, function, by rw [count]; exact shares⟩
  · exact ⟨by simp only; omega, by simp only; omega, by simp, by simp, function, by
      simp only [count]; exact shares⟩
  · exact fun a old => (h.colls a old).mono same

def withHeader (header : Nat → Nat × Protocol) (k : Nat) (value : Nat × Protocol) (j : Nat) :
    Nat × Protocol :=
  if j = k then value else header j

variable {plan : KernelPlan} {opOf : Nat → ProxyOp}

theorem addCollChannels_lines (comm : Comm) (task : CollTask) (value : Nat × Protocol) (lo n : Nat)
    (h : ∀ c, CollLine header plan.collOpCount (plan.channels c)) (noSend : ∀ c, (opOf c).pattern ≠ .send)
    (noRecv : ∀ c, (opOf c).pattern ≠ .recv) (shares : ∀ c, ((opOf c).sliceSteps, (opOf c).protocol) = value) :
    ∀ c, CollLine (withHeader header (2 * plan.collOpCount) value) (plan.collOpCount + 1)
      ((addCollChannels comm task opOf plan lo n).channels c) := by
  have same : ∀ k < 2 * plan.collOpCount,
      withHeader header (2 * plan.collOpCount) value k = header k := by
    intro k before
    exact if_neg (by omega)
  intro c
  rw [addCollChannels_channels]
  split
  · refine (h c).add same rfl (noSend c) (noRecv c) rfl ?_
    rw [withHeader, if_pos rfl]
    exact shares c
  · exact (h c).mono same

structure Few (plan : KernelPlan) : Prop where
  counted : plan.collOpCount ≤ plan.workBytes
  bytes : plan.workBytes ≤ 2 ^ 32

variable {persistent : Bool}

theorem testBudget_bytes (regular : comm.Regular) {nWorkBatches workBytes : Nat}
    (fits : testBudget (planBudget comm persistent) nWorkBatches workBytes = true) :
    workBytes ≤ 2 ^ 32 := by
  have args := regular.argsBytes
  have fifo := regular.fifoBytes
  rw [testBudget_iff] at fits
  cases persistent with
  | false =>
    simp only [planBudget] at fits
    omega
  | true =>
    simp only [planBudget] at fits
    omega

structure CollLines (header : Nat → Nat × Protocol) (plan : KernelPlan) : Prop where
  few : Few plan
  lines : ∀ c, CollLine header plan.collOpCount (plan.channels c)

theorem splitProxyOp_calc (comm : Comm) (task : CollTask) (split : CollSplit) (c : Nat) :
    ∃ count, splitProxyOp comm task split c = comm.calcCollChunking task 1 count := by
  unfold splitProxyOp
  split
  · exact ⟨_, rfl⟩
  · split
    all_goals exact ⟨_, rfl⟩

variable {task : CollTask}

theorem placeColl_lines (regular : comm.Regular) (lo n : Nat) (h : CollLines header plan)
    (bytes : plan.workBytes + devWorkSize task.workType ≤ 2 ^ 32)
    (calc' : ∀ c, ∃ m count, opOf c = comm.calcCollChunking task m count) :
    ∃ header', CollLines header' (placeColl task lo n (addCollChannels comm task opOf plan lo n)) := by
  have patterns (c : Nat) : (opOf c).pattern ≠ .send ∧ (opOf c).pattern ≠ .recv := by
    obtain ⟨m, count, same⟩ := calc' c
    rw [same]
    exact ⟨(regular.patterns task m count).1, (regular.patterns task m count).2.1⟩
  have shares (c : Nat) : ((opOf c).sliceSteps, (opOf c).protocol) =
      ((comm.calcCollChunking task 0 0).sliceSteps, (comm.calcCollChunking task 0 0).protocol) := by
    obtain ⟨m, count, same⟩ := calc' c
    rw [same, (regular.headers task m 0 count 0).1, (regular.headers task m 0 count 0).2]
  have lines := addCollChannels_lines comm task _ lo n h.lines (fun c => (patterns c).1)
    (fun c => (patterns c).2) shares
  have same := addCollChannels_same comm task opOf plan lo n
  have count := same.collOpCount
  have work := same.workBytes
  have pos := devWorkSize_pos task.workType
  have counted := h.few.counted
  have few : Few (placeColl task lo n (addCollChannels comm task opOf plan lo n)) := by
    refine ⟨?_, ?_⟩
    · simp only [placeColl]
      omega
    · simp only [placeColl, work]
      exact bytes
  rw [← count] at lines
  exact ⟨_, few, lines⟩

theorem scheduleColl_lines (regular : comm.Regular) {est : Estimate} {plan' : KernelPlan} {cur cur' : Cursor}
    (h : CollLines header plan)
    (taken : scheduleColl comm (planBudget comm persistent) est plan cur task = some (plan', cur')) :
    ∃ header', CollLines header' plan' := by
  simp only [scheduleColl] at taken
  split at taken
  · split at taken
    next fits =>
      simp only [Option.some.injEq, Prod.mk.injEq] at taken
      rw [← taken.1]
      exact placeColl_lines regular _ _ h (testBudget_bytes regular fits) fun c => ⟨_, _, rfl⟩
    · contradiction
  · obtain ⟨fits, taken⟩ := Option.ite_none_right_eq_some.mp taken
    simp only [Option.some.injEq, Prod.mk.injEq] at taken
    rw [← taken.1]
    refine placeColl_lines regular _ _ h (testBudget_bytes regular fits) fun c => ?_
    obtain ⟨count, same⟩ := splitProxyOp_calc comm task
      (countCells task (splitCells (maxChannelsOf comm task.kind) (cur.turn est task.kind) task)) c
    exact ⟨1, count, same⟩

theorem drainColls_lines (regular : comm.Regular) (persistent : Bool) (colls : List CollTask) :
    ∃ header, CollLines header (drainColls comm (planBudget comm persistent) colls).1 := by
  have blank : CollLines (fun _ => (0, .simple)) .empty :=
    ⟨⟨le_refl _, Nat.zero_le _⟩, fun c => ⟨Pairwise.nil, by simp [KernelPlan.empty, WipChannel.empty]⟩⟩
  unfold drainColls
  split
  · exact ⟨_, blank⟩
  · apply scheduleColls_induct (P := fun plan _ => ∃ header, CollLines header plan)
    · rintro plan cur task rest next ⟨header, h⟩ taken
      exact scheduleColl_lines regular h taken
    · exact ⟨_, blank⟩

def InRounds (comm : Comm) (side : Side) (good : Nat → Prop) (chan : WipChannel) : Prop :=
  ∀ op ∈ chan.proxyOps, op.opCount = 2 * chan.nWorkBatchesP2p + 1 → op.pattern = sidePattern side →
    ∃ round, good round ∧ roundPeer comm side round = some op.root

structure Line (comm : Comm) (fits : Side → Nat → Protocol → Prop) (header : Nat → Nat × Protocol)
    (K : Nat) (chan : WipChannel) : Prop where
  ordered : chan.proxyOps.Pairwise Follows
  ops : ∀ op ∈ chan.proxyOps, OfColl header K op ∨
    op.opCount ≤ 2 * chan.nWorkBatchesP2p + 1 ∧ OfPoint comm fits op
  rounds : ∀ side, InRounds comm side (· ∈ chan.wipRounds) chan

theorem CollLine.toLine (h : CollLine header K chan) : Line comm fits header K chan := by
  refine ⟨h.ordered, fun op mem => .inl (h.colls op mem), ?_⟩
  intro side op mem count
  have := (h.colls op mem).even
  omega

theorem Line.addBatch (h : Line comm fits header K chan) (fn : DevFunc) (workOffset p2pRound : Nat) :
    ∃ chan', (addWorkBatch chan .p2p fn workOffset p2pRound).1 = chan' ∧ Line comm fits header K chan' ∧
      p2pRound ∈ chan'.wipRounds ∧
      ∀ side, InRounds comm side (fun round => round ∈ chan'.wipRounds ∧ round ≠ p2pRound) chan' := by
  obtain ⟨chan', made, hq, cases⟩ := addWorkBatch_p2p chan fn workOffset p2pRound
  refine ⟨chan', made, ?_⟩
  suffices ho : chan.nWorkBatchesP2p ≤ chan'.nWorkBatchesP2p ∧ p2pRound ∈ chan'.wipRounds ∧
      ∀ side, InRounds comm side (fun round => round ∈ chan'.wipRounds ∧ round ≠ p2pRound) chan' by
    obtain ⟨_, here, ha⟩ := ho
    refine ⟨⟨hq ▸ h.ordered, ?_, ?_⟩, here, ha⟩
    · intro op mem
      rcases h.ops op (hq ▸ mem) with coll | ⟨hbe, hp⟩
      · exact .inl coll
      · exact .inr ⟨by omega, hp⟩
    · intro side op mem count pattern
      obtain ⟨round, ⟨hi, -⟩, peer⟩ := ha side op mem count pattern
      exact ⟨round, hi, peer⟩
  rcases cases with ⟨hb, hr⟩ | ⟨hb, hr, -, new⟩
  · refine ⟨by omega, by simp [hr], ?_⟩
    intro side op mem count
    rcases h.ops op (hq ▸ mem) with coll | ⟨hbe, -⟩
    · have := coll.even
      omega
    · omega
  · refine ⟨by omega, by simp [hr], ?_⟩
    intro side op mem count pattern
    rw [hb] at count
    obtain ⟨round, hi, peer⟩ := h.rounds side op (hq ▸ mem) count pattern
    refine ⟨round, ⟨by simp [hr, hi], ?_⟩, peer⟩
    intro same
    exact new (same ▸ hi)

variable {side : Side} {round : Nat}

theorem Line.follows (regular : comm.Regular) (h : Line comm fits header K chan) (few : K ≤ 2 ^ 63)
    (pattern : op.pattern = sidePattern side) (count : op.opCount = 2 * chan.nWorkBatchesP2p + 1)
    (peer : roundPeer comm side round = some op.root)
    (apart : InRounds comm side (fun r => r ∈ chan.wipRounds ∧ r ≠ round) chan) :
    ∀ a ∈ chan.proxyOps, Follows a op := by
  intro a mem
  refine ⟨?_, ?_⟩
  · unfold mergeKey
    rcases h.ops a mem with coll | ⟨hb, _⟩
    · have := coll.even
      have := coll.before
      omega
    · omega
  · intro same _ _
    refine ⟨by omega, ?_⟩
    intro hp roots
    obtain ⟨r, ⟨-, other⟩, peer'⟩ := apart a mem (by omega) (hp.trans pattern)
    rw [roots] at peer'
    exact other (roundPeer_inj regular peer' peer)

theorem Line.addOp (regular : comm.Regular) (h : Line comm fits header K chan) (few : K ≤ 2 ^ 63)
    (pattern : op.pattern = sidePattern side) (count : op.opCount = 2 * chan.nWorkBatchesP2p + 1)
    (point : OfPoint comm fits op) (peer : roundPeer comm side round = some op.root) (here : round ∈ chan.wipRounds)
    (apart : InRounds comm side (fun r => r ∈ chan.wipRounds ∧ r ≠ round) chan) :
    Line comm fits header K (enqueue comm op chan) ∧
      ∀ other ≠ side, InRounds comm other (fun r => r ∈ chan.wipRounds ∧ r ≠ round) chan →
        InRounds comm other (fun r => r ∈ chan.wipRounds ∧ r ≠ round) (enqueue comm op chan) := by
  have cases' : ∀ b ∈ (enqueue comm op chan).proxyOps, b ∈ chan.proxyOps ∨ b = op ∨
      b = { op with pattern := .profiler } :=
    enqueue_home (.inr (.inl rfl)) (.inr (.inr rfl)) fun _ => .inl
  have profiler (other : Side) : sidePattern other ≠ .profiler := by cases other <;> simp [sidePattern]
  refine ⟨⟨enqueue_ordered h.ordered (h.follows regular few pattern count peer apart), ?_, ?_⟩, ?_⟩
  · refine enqueue_home ?_ ?_ h.ops
    · exact .inr ⟨le_of_eq count, point⟩
    · exact .inr ⟨le_of_eq count, ⟨point.odd, point.slices, .inl rfl⟩⟩
  · intro other b mem at' like
    rcases cases' b mem with old | rfl | rfl
    · exact h.rounds other b old at' like
    · have same : other = side := by
        cases other <;> cases side <;> simp_all [sidePattern]
      exact ⟨round, here, same ▸ peer⟩
    · exact absurd like.symm (profiler other)
  · intro other hd old b mem at' like
    rcases cases' b mem with he | rfl | rfl
    · exact old b he at' like
    · cases other <;> cases side <;> simp_all [sidePattern]
    · exact absurd like.symm (profiler other)

theorem partProxyOp_point {task : P2pTask} {root c k part : Nat} {made : ProxyOp}
    (found : partProxyOp side task root c k part = some made) (odd : k % 2 = 1) (rank : root < comm.nRanks)
    (allowed : fits side root (toProxyProtocol task.direction.protocol)) :
    made.channelId = c ∧ made.opCount = k ∧ made.pattern = sidePattern side ∧ made.root = root ∧
      OfPoint comm fits made := by
  unfold partProxyOp at found
  split at found
  · contradiction
  split at found
  · contradiction
  · obtain rfl := Option.some.inj found
    cases side with
    | send => exact ⟨rfl, rfl, rfl, rfl, odd, rfl, .inr ⟨.send, rfl, rfl, rank, allowed⟩⟩
    | recv => exact ⟨rfl, rfl, rfl, rfl, odd, rfl, .inr ⟨.recv, rfl, rfl, rank, allowed⟩⟩

def Allowed (fits : Side → Nat → Protocol → Prop) (side : Side) (root : Nat) (task : Option P2pTask) :
    Prop :=
  ∀ t, task = some t → fits side root (toProxyProtocol t.direction.protocol)

theorem Line.partOp (regular : comm.Regular) (part : Nat) {root c : Nat} {task : Option P2pTask} (few : K ≤ 2 ^ 63)
    (h : Line comm fits header K chan) (rank : root < comm.nRanks) (allowed : Allowed fits side root task)
    (peer : roundPeer comm side round = some root) (here : round ∈ chan.wipRounds)
    (apart : InRounds comm side (fun r => r ∈ chan.wipRounds ∧ r ≠ round) chan) :
    Line comm fits header K (partOp comm side root part c chan task) ∧
      (partOp comm side root part c chan task).wipRounds = chan.wipRounds ∧
      ∀ other ≠ side, InRounds comm other (fun r => r ∈ chan.wipRounds ∧ r ≠ round) chan →
        InRounds comm other (fun r => r ∈ chan.wipRounds ∧ r ≠ round) (partOp comm side root part c chan task) := by
  unfold Plan.partOp
  cases task with
  | none => exact ⟨h, rfl, fun _ _ old => old⟩
  | some task =>
    simp only
    split
    · exact ⟨h, rfl, fun _ _ old => old⟩
    next op made =>
      obtain ⟨-, hc, hp, hr, hpo⟩ := partProxyOp_point made (by omega) rank (allowed task rfl)
      obtain ⟨kept, others⟩ := h.addOp regular few hp hc hpo (hr ▸ peer) here apart
      exact ⟨kept, rfl, others⟩

variable {sendRank recvRank : Nat}

theorem addP2pToPlan_lines (regular : comm.Regular) {send recv : Option P2pTask} (few : K ≤ 2 ^ 63)
    (scheduled : comm.p2pSchedule[p2pRound]? = some (sendRank, recvRank))
    (sendable : Allowed fits .send sendRank send) (receivable : Allowed fits .recv recvRank recv)
    (h : ∀ i, Line comm fits header K (plan.channels i)) :
    ∀ i, Line comm fits header K
      ((addP2pToPlan comm plan p2pRound sendRank recvRank send recv).channels i) := by
  have ranks := regular.ranks _ (mem_of_getElem? scheduled)
  have sends : roundPeer comm .send p2pRound = some sendRank := by simp [roundPeer, scheduled]
  have recvs : roundPeer comm .recv p2pRound = some recvRank := by simp [roundPeer, scheduled]
  refine addP2pToPlan_channels (fun _ => Line comm fits header K) (fun part c chan start => ?_) h
  obtain ⟨_, made, hb, here, ha⟩ := start.addBatch .sendRecv plan.workBytes p2pRound
  simp only [partChannel, made]
  split
  · exact hb
  · obtain ⟨hr, hro, others⟩ := hb.partOp regular part (c := c) few ranks.2 receivable recvs here
      (ha .recv)
    have open' := others .send (by decide) (ha .send)
    rw [← hro] at here open'
    exact (hr.partOp regular part few ranks.1 sendable sends here open').1

structure Lines (comm : Comm) (fits : Side → Nat → Protocol → Prop) (header : Nat → Nat × Protocol)
    (K : Nat) (plan : KernelPlan) (queues : P2pQueues) : Prop where
  count : plan.collOpCount = K
  lines : ∀ c, Line comm fits header K (plan.channels c)
  sends : ∀ r, ∀ t ∈ queues.send r, fits .send r (toProxyProtocol t.direction.protocol)
  recvs : ∀ r, ∀ t ∈ queues.recv r, fits .recv r (toProxyProtocol t.direction.protocol)

variable {queues : P2pQueues}

theorem Lines.dequeue (h : Lines comm fits header K plan queues) (s r : Nat) :
    Lines comm fits header K plan (queues.dequeue s r) := by
  have tail {f : Nat → List P2pTask} {a x : Nat} {t : P2pTask}
      (mem : t ∈ if x = a then (f x).tail else f x) : t ∈ f x := by
    split at mem
    · exact mem_of_mem_tail mem
    · exact mem
  exact ⟨h.count, h.lines, fun x t mem => h.sends x t (tail mem),
    fun x t mem => h.recvs x t (tail mem)⟩

theorem Lines.add (regular : comm.Regular) (few : K ≤ 2 ^ 63) (h : Lines comm fits header K plan queues)
    (copies : List SelfCopy) (scheduled : comm.p2pSchedule[p2pRound]? = some (sendRank, recvRank)) :
    Lines comm fits header K (withP2p comm plan p2pRound sendRank recvRank (queues.send sendRank).head?
        (queues.recv recvRank).head? copies) (queues.dequeue sendRank recvRank) := by
  refine Lines.dequeue ⟨?_, ?_, h.sends, h.recvs⟩ sendRank recvRank
  · exact (addP2pToPlan_same comm _ _ _ _ _ _).collOpCount.trans h.count
  · exact addP2pToPlan_lines regular few scheduled
      (fun t head => h.sends _ t (mem_of_mem_head? head))
      (fun t head => h.recvs _ t (mem_of_mem_head? head)) h.lines

theorem scheduleRound_lines (regular : comm.Regular) (few : K ≤ 2 ^ 63) (budget : Budget)
    (h : Lines comm fits header K plan queues) (scheduled : comm.p2pSchedule[p2pRound]? = some (sendRank, recvRank)) :
    (scheduleRound comm budget plan queues p2pRound sendRank recvRank).All True
      (Lines comm fits header K) (Lines comm fits header K) := by
  have step := scheduleRound_step comm budget plan queues p2pRound sendRank recvRank
  generalize scheduleRound .. = result at step ⊢
  cases step with
  | idle => exact h
  | skip => exact h.dequeue _ _
  | add copies => exact h.add regular few copies scheduled
  | full => exact h
  | invalid => trivial

theorem buildPlan_lines (regular : comm.Regular) {tasks rest : Tasks}
    (sends : ∀ r, ∀ t ∈ tasks.p2ps.send r, fits .send r (toProxyProtocol t.direction.protocol))
    (recvs : ∀ r, ∀ t ∈ tasks.p2ps.recv r, fits .recv r (toProxyProtocol t.direction.protocol))
    (built : buildPlan comm (planBudget comm persistent) tasks = some (plan, rest)) :
    plan.collOpCount ≤ 2 ^ 63 ∧
      ∃ header, ∀ c, Line comm fits header plan.collOpCount (plan.channels c) := by
  obtain ⟨header, drained⟩ := drainColls_lines regular persistent tasks.colls
  have few : (drainColls comm (planBudget comm persistent) tasks.colls).1.collOpCount ≤ 2 ^ 63 := by
    have := drained.few.counted
    have := drained.few.bytes
    omega
  refine buildPlan_plan (fun plan => plan.collOpCount ≤ 2 ^ 63 ∧
    ∃ header, ∀ c, Line comm fits header plan.collOpCount (plan.channels c)) built
    ⟨few, header, fun c => (drained.lines c).toLine⟩ ?_
  have start : Lines comm fits header
      (drainColls comm (planBudget comm persistent) tasks.colls).1.collOpCount
      (p2pKernel (drainColls comm (planBudget comm persistent) tasks.colls).1) tasks.p2ps :=
    ⟨rfl, fun c => (drained.lines c).toLine, sends, recvs⟩
  have kept := scheduleTurns_all (fun _ _ _ _ hs h => scheduleRound_lines regular few
    (planBudget comm persistent) h hs) tasks.p2ps.nTasks start
  generalize scheduleTurns .. = result at kept ⊢
  cases result with
  | invalidUsage => trivial
  | planFull plan' queues => exact ⟨kept.count ▸ few, header, kept.count ▸ kept.lines⟩
  | next plan' queues => exact ⟨kept.count ▸ few, header, kept.count ▸ kept.lines⟩

end

end Vccl.Plan
