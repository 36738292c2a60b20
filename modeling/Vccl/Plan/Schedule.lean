import Vccl.Plan.Work
import Vccl.P2p.Split

/-! How the tasks of a group become kernel plans: `scheduleCollTasksToPlan`,
`scheduleP2pTasksToPlan` and the loop of `ncclLaunchPrepare`, in PASS_SM mode. Sizes are
natural numbers; the subtractions of the channel split do not go below zero. -/
namespace Vccl.Plan

open Proxy (ProxyOp Protocol)

structure CollTask where
  fn : DevFunc
  protocol : Protocol
  count : Nat
  elementSize : Nat
  trafficPerByte : Nat
  trafficBytes : Nat
  nMaxChannels : Nat
  isCollnet : Bool
  isNvls : Bool
  workType : WorkType
  kernelCh : Bool
  isColl : fn ≠ .sendRecv
  collWork : workType ≠ .p2p

structure P2pTask where
  buff : Nat
  direction : P2p.Direction
  kernelCh : Bool
  chunked : direction.hostChunk ≠ 0
  deriving DecidableEq

structure SelfCopy where
  dst : Nat
  src : Nat
  bytes : Nat
  deriving DecidableEq

/-- `calcCollChunking` fills the proxy op of a task for so many channels and elements. Every
rank has its round as a sender and as a receiver; a rank meets itself in one round. -/
structure Comm extends Proxy.Comm where
  nNodes : Nat
  maxLocalRanks : Nat
  nChannels : Nat
  nvlsChannels : Nat
  p2pnChannels : Nat
  p2pnChannelsPerPeer : Nat
  p2pSchedule : List (Nat × Nat)
  workArgsBytes : Nat
  workFifoBytes : Nat
  calcCollChunking : CollTask → Nat → Nat → ProxyOp
  coversSend : ∀ r < nRanks, ∃ p ∈ p2pSchedule, p.1 = r
  coversRecv : ∀ r < nRanks, ∃ p ∈ p2pSchedule, p.2 = r
  selfRound : ∀ p ∈ p2pSchedule, p.1 = rank ↔ p.2 = rank
  someChannel : 0 < nChannels
  channelLimit : nChannels ≤ maxChannels ∧ nvlsChannels ≤ maxChannels ∧
    p2pnChannelsPerPeer ≤ maxChannels

structure KernelPlan where
  kernelSpecialized : Bool
  kernelFn : Option DevFunc
  channelMask : Nat
  collOpCount : Nat
  nWorkBatches : Nat
  workBytes : Nat
  collTasks : List CollTask
  p2pTasks : List P2pTask
  selfCopies : List SelfCopy
  channels : Nat → WipChannel

def KernelPlan.empty : KernelPlan := ⟨false, none, 0, 0, 0, 0, [], [], [], fun _ => .empty⟩

structure Budget where
  inArgsBytes : Int
  outArgsBytes : Int
  deriving DecidableEq

def testBudget (budget : Budget) (nWorkBatches workBytes : Nat) : Bool :=
  let batchBytes : Int := nWorkBatches * sizeofDevWorkBatch
  decide (batchBytes + workBytes ≤ budget.inArgsBytes) ||
    (decide (batchBytes ≤ budget.inArgsBytes) && decide ((workBytes : Int) ≤ budget.outArgsBytes))

def planBudget (comm : Comm) (persistent : Bool) : Budget where
  inArgsBytes := comm.workArgsBytes - sizeofDevKernelArgs
  outArgsBytes := if persistent then 2 ^ 30 else (comm.workFifoBytes / 2 : Nat)

def KernelPlan.setChannel (plan : KernelPlan) (c : Nat) (chan : WipChannel) : KernelPlan :=
  { plan with channels := fun i => if i = c then chan else plan.channels i }

def addWorkBatchToPlan (plan : KernelPlan) (c : Nat) (workType : WorkType) (fn : DevFunc)
    (workOffset p2pRound : Nat) : KernelPlan :=
  let added := addWorkBatch (plan.channels c) workType fn workOffset p2pRound
  { plan.setChannel c added.1 with nWorkBatches := plan.nWorkBatches + added.2 }

def addProxyOps (comm : Comm) (plan : KernelPlan) (op : ProxyOp) : KernelPlan :=
  let chan := plan.channels op.channelId
  let queued := Proxy.addProxyOpIfNeeded comm.toComm op chan.proxyOps
  plan.setChannel op.channelId
    { chan with proxyOps := Proxy.addProfilerProxyOpIfNeeded comm.toComm op queued }

def CollTask.kind (task : CollTask) : Bool × Bool := (task.isCollnet, task.isNvls)

def maxChannelsOf (comm : Comm) (kind : Bool × Bool) : Nat :=
  if kind.2 then comm.nvlsChannels else comm.nChannels

def minTrafficPerChannel : Nat := 16 * 2 ^ 10

structure Estimate where
  nPlanColls : Nat
  workBytes : Nat
  trafficBytes : Bool × Bool → Nat
  nChannels : Bool × Bool → Nat

/-- The first loop: how many tasks fit, and the traffic and channels of each kind. -/
def estimate (comm : Comm) (budget : Budget) : List CollTask → Estimate → Estimate
  | [], est => est
  | task :: rest, est =>
    let size := devWorkSize task.workType
    if testBudget budget (divUp est.nPlanColls 4) (est.workBytes + size) then
      estimate comm budget rest
        { nPlanColls := est.nPlanColls + 1
          workBytes := est.workBytes + size
          trafficBytes := fun kind => if kind = task.kind then
            est.trafficBytes kind + max minTrafficPerChannel task.trafficBytes
            else est.trafficBytes kind
          nChannels := fun kind => if kind = task.kind then
            min (est.nChannels kind + task.nMaxChannels) (maxChannelsOf comm kind)
            else est.nChannels kind }
    else est

def planEstimate (comm : Comm) (budget : Budget) (tasks : List CollTask) : Estimate :=
  estimate comm budget tasks ⟨0, 0, fun _ => 0, fun _ => 0⟩

structure Cursor where
  kindPrev : Option (Bool × Bool)
  trafficPerChannel : Nat
  channelId : Nat
  currentTraffic : Nat
  deriving DecidableEq

def Cursor.start : Cursor := ⟨none, 0, 0, 0⟩

def Cursor.turn (est : Estimate) (kind : Bool × Bool) (cur : Cursor) : Cursor :=
  if cur.kindPrev = some kind then cur
  else
    { kindPrev := some kind
      trafficPerChannel := max minTrafficPerChannel (est.trafficBytes kind / est.nChannels kind)
      channelId := 0
      currentTraffic := 0 }

/-- The cells of a task: `lo` on the first channel, `perChannel` on each of `nMid`, `hi` on
the last. -/
structure Cells where
  channelId : Nat
  lo : Nat
  perChannel : Nat
  nMid : Nat
  hi : Nat
  deriving DecidableEq

def Cells.nChannels (cells : Cells) : Nat :=
  (if cells.lo ≠ 0 then 1 else 0) + cells.nMid + (if cells.hi ≠ 0 then 1 else 0)

def CollTask.trafficRate (task : CollTask) : Nat :=
  task.trafficPerByte * if task.protocol = .ll then 4 else 1

def CollTask.cellSize (task : CollTask) : Nat :=
  divUp (divUp minTrafficPerChannel task.trafficRate) 16 * 16

def CollTask.elementsPerCell (task : CollTask) : Nat := task.cellSize / task.elementSize

def CollTask.cells (task : CollTask) : Nat := divUp (task.count * task.elementSize) task.cellSize

def cutCells (nMax : Nat) (cur : Cursor) (task : CollTask) : Cells :=
  let trafficPerCell := task.cellSize * task.trafficRate
  let perChannel := min task.cells (divUp cur.trafficPerChannel trafficPerCell)
  let lo := if cur.channelId + 1 = nMax then task.cells
    else min task.cells (divUp (cur.trafficPerChannel - cur.currentTraffic) trafficPerCell)
  ⟨cur.channelId, lo, perChannel, (task.cells - lo) / perChannel, (task.cells - lo) % perChannel⟩

def clampCells (nMax total : Nat) (cells : Cells) : Cells :=
  if nMax < cells.channelId + cells.nChannels then
    let nMid := nMax - cells.channelId - 2
    let perChannel := (total - cells.lo) / (nMid + 1)
    { cells with nMid, perChannel, hi := perChannel + (total - cells.lo) % (nMid + 1) }
  else cells

def fillHigh (cells : Cells) : Cells :=
  if cells.hi = 0 ∧ cells.nMid ≠ 0 then
    { cells with hi := cells.perChannel, nMid := cells.nMid - 1 }
  else cells

def skipLow (cells : Cells) : Cells :=
  if cells.lo ≠ 0 then cells
  else if cells.nMid = 0 then { cells with channelId := cells.channelId + 1, lo := cells.hi, hi := 0 }
  else { cells with channelId := cells.channelId + 1, lo := cells.perChannel, nMid := cells.nMid - 1 }

def splitCells (nMax : Nat) (cur : Cursor) (task : CollTask) : Cells :=
  skipLow (fillHigh (clampCells nMax task.cells (cutCells nMax cur task)))

structure CollSplit where
  channelLo : Nat
  nChannels : Nat
  nMid : Nat
  countLo : Nat
  countMid : Nat
  countHi : Nat
  deriving DecidableEq

def countCells (task : CollTask) (cells : Cells) : CollSplit :=
  let perCell := task.elementsPerCell
  let excess := task.cells * perCell - task.count
  let high := cells.hi * perCell ≠ 0
  let countLo := cells.lo * perCell - if high then 0 else excess
  { channelLo := cells.channelId
    nChannels := (if countLo ≠ 0 then 1 else 0) + cells.nMid + (if cells.hi ≠ 0 then 1 else 0)
    nMid := cells.nMid
    countLo
    countMid := if cells.nMid ≠ 0 then cells.perChannel * perCell else 0
    countHi := cells.hi * perCell - if high then excess else 0 }

def advanceCursor (nMax : Nat) (cur : Cursor) (task : CollTask) (cells : Cells)
    (split : CollSplit) : Cursor :=
  let traffic (n : Nat) := n * task.elementsPerCell * (task.elementSize * task.trafficRate)
  let next : Cursor :=
    if split.countHi ≠ 0 then
      { cur with channelId := cells.channelId + split.nChannels - 1, currentTraffic := traffic cells.hi }
    else if cells.nMid ≠ 0 then
      { cur with channelId := cells.channelId + split.nChannels, currentTraffic := 0 }
    else
      { cur with channelId := cells.channelId
                 currentTraffic := cur.currentTraffic + traffic cells.lo }
  if next.trafficPerChannel ≤ next.currentTraffic ∧ next.channelId + 1 ≠ nMax then
    { next with channelId := next.channelId + 1, currentTraffic := 0 }
  else next

def collProxyOp (task : CollTask) (plan : KernelPlan) (c : Nat) (chunking : ProxyOp) : ProxyOp :=
  { chunking with
    channelId := c
    opCount := 2 * plan.collOpCount
    forRecv := false
    kernelCh := task.kernelCh }

def splitProxyOp (comm : Comm) (task : CollTask) (split : CollSplit) (c : Nat) : ProxyOp :=
  if c = split.channelLo then comm.calcCollChunking task 1 split.countLo
  else if c = split.channelLo + split.nChannels - 1 then
    comm.calcCollChunking task 1 split.countHi
  else comm.calcCollChunking task 1 split.countMid

def addCollChannels (comm : Comm) (task : CollTask) (opOf : Nat → ProxyOp) (plan : KernelPlan)
    (lo n : Nat) : KernelPlan :=
  (List.range' lo n).foldl (fun wip c =>
    addProxyOps comm (addWorkBatchToPlan wip c task.workType task.fn plan.workBytes 0)
      (collProxyOp task plan c (opOf c))) plan

def placeColl (task : CollTask) (lo n : Nat) (plan : KernelPlan) : KernelPlan :=
  { plan with
    kernelFn := if plan.kernelSpecialized then plan.kernelFn else some (kernelForFunc task.fn)
    kernelSpecialized := plan.kernelSpecialized || kernelForFuncIsSpecialized task.fn
    channelMask := plan.channelMask ||| (2 <<< (lo + n - 1) - 1 <<< lo)
    collOpCount := plan.collOpCount + 1
    workBytes := plan.workBytes + devWorkSize task.workType
    collTasks := plan.collTasks ++ [task] }

/-- One turn of the scheduling loop; `none` if the task does not fit. -/
def scheduleColl (comm : Comm) (budget : Budget) (est : Estimate) (plan : KernelPlan) (cur : Cursor)
    (task : CollTask) : Option (KernelPlan × Cursor) :=
  let cur := cur.turn est task.kind
  let fits (n : Nat) :=
    testBudget budget (plan.nWorkBatches + n) (plan.workBytes + devWorkSize task.workType)
  if task.isCollnet then
    let n := task.nMaxChannels
    if fits n then
      let opOf _ := comm.calcCollChunking task n task.count
      some (placeColl task 0 n (addCollChannels comm task opOf plan 0 n), cur)
    else none
  else
    let nMax := maxChannelsOf comm task.kind
    let cells := splitCells nMax cur task
    let split := countCells task cells
    if fits split.nChannels then
      some (placeColl task split.channelLo split.nChannels
        (addCollChannels comm task (splitProxyOp comm task split) plan split.channelLo split.nChannels),
        advanceCursor nMax cur task cells split)
    else none

def scheduleColls (comm : Comm) (budget : Budget) (est : Estimate) :
    Nat → List CollTask → KernelPlan → Cursor → KernelPlan × List CollTask
  | _, [], plan, _ => (plan, [])
  | 0, tasks, plan, _ => (plan, tasks)
  | nPlanColls + 1, task :: rest, plan, cur =>
    match scheduleColl comm budget est plan cur task with
    | none => (plan, task :: rest)
    | some (plan', cur') => scheduleColls comm budget est nPlanColls rest plan' cur'

def scheduleCollTasksToPlan (comm : Comm) (budget : Budget) (tasks : List CollTask)
    (plan : KernelPlan) : KernelPlan × List CollTask :=
  let est := planEstimate comm budget tasks
  scheduleColls comm budget est est.nPlanColls tasks plan .start

structure P2pQueues where
  send : Nat → List P2pTask
  recv : Nat → List P2pTask
  nTasks : Nat

def reverseBits (x : Nat) : Nat → Nat
  | 0 => 0
  | nBits + 1 => reverseBits (x / 2) nBits + x % 2 * 2 ^ nBits

def p2pChannelForPart (nP2pChannels base part : Nat) : Nat :=
  (base + reverseBits part (Nat.log2 nP2pChannels)) % nP2pChannels

def p2pChannelBaseForRound (comm : Comm) (p2pRound : Nat) : Nat :=
  if 1 < comm.nNodes then
    (p2pRound / comm.maxLocalRanks * divUp comm.maxLocalRanks maxDevWorkP2pPerBatch +
      p2pRound % comm.maxLocalRanks / maxDevWorkP2pPerBatch) % 2 ^ 8
  else p2pRound % 2 ^ 8

def toProxyProtocol : P2p.Protocol → Protocol
  | .ll => .ll
  | .simple => .simple

/-- The bytes of the op of a part; in PASS_SM mode an unregistered op has the whole part. -/
def partNbytes (d : P2p.Direction) (part : Nat) : Nat :=
  match d.protocol with
  | .simple => d.partSize part
  | .ll => alignUp (2 * d.partSize part) 16

/-- The op of one direction of a part; there is none if it has no steps. -/
def partProxyOp (side : Proxy.Side) (task : P2pTask) (root channelId opCount part : Nat) :
    Option ProxyOp :=
  match P2p.proxyNsteps task.direction part with
  | none => none
  | some nsteps =>
    if nsteps = 0 then none
    else some
      { channelId, opCount
        pattern := match side with
          | .send => .send
          | .recv => .recv
        root
        nbytes := partNbytes task.direction part
        nsteps
        sliceSteps := 1
        protocol := toProxyProtocol task.direction.protocol
        reg := task.direction.netRegistered
        regp := task.direction.ipcRegistered
        forRecv := decide (side = .recv)
        kernelCh := task.kernelCh }

def addPartOp (comm : Comm) (side : Proxy.Side) (root part c : Nat) (plan : KernelPlan) :
    Option P2pTask → KernelPlan
  | none => plan
  | some task =>
    let opCount := 2 * (plan.channels c).nWorkBatchesP2p + 1
    match partProxyOp side task root c opCount part with
    | none => plan
    | some op => addProxyOps comm plan op

def dirChannels : Option P2pTask → Nat
  | none => 0
  | some task => task.direction.nChannels.toNat

def addP2pPart (comm : Comm) (workOffset p2pRound sendRank recvRank : Nat)
    (send recv : Option P2pTask) (wip : KernelPlan) (part : Nat) : KernelPlan :=
  let c := p2pChannelForPart comm.p2pnChannels (p2pChannelBaseForRound comm p2pRound) part
  let masked := { wip with channelMask := wip.channelMask ||| 1 <<< c }
  let batched := addWorkBatchToPlan masked c .p2p .sendRecv workOffset p2pRound
  if sendRank = comm.rank then batched
  else addPartOp comm .send sendRank part c (addPartOp comm .recv recvRank part c batched recv) send

def addP2pToPlan (comm : Comm) (plan : KernelPlan) (p2pRound sendRank recvRank : Nat)
    (send recv : Option P2pTask) : KernelPlan :=
  (List.range (max (dirChannels recv) (dirChannels send))).foldl
    (addP2pPart comm plan.workBytes p2pRound sendRank recvRank send recv)
    { plan with workBytes := plan.workBytes + devWorkSize .p2p }

inductive RoundResult where
  | invalidUsage
  | planFull (plan : KernelPlan) (queues : P2pQueues)
  | next (plan : KernelPlan) (queues : P2pQueues)

def P2pQueues.dequeue (queues : P2pQueues) (sendRank recvRank : Nat) : P2pQueues :=
  { send := fun r => if r = sendRank then (queues.send r).tail else queues.send r
    recv := fun r => if r = recvRank then (queues.recv r).tail else queues.recv r
    nTasks := queues.nTasks - ((queues.send sendRank).head?.toList.length +
      (queues.recv recvRank).head?.toList.length) }

/-- The body of the loop over the rounds for two tasks at hand, at least one of them real. -/
def schedulePair (comm : Comm) (budget : Budget) (plan : KernelPlan) (queues : P2pQueues)
    (p2pRound sendRank recvRank : Nat) (send recv : Option P2pTask) : RoundResult :=
  let rest := queues.dequeue sendRank recvRank
  let add (plan : KernelPlan) : RoundResult :=
    let plan := addP2pToPlan comm plan p2pRound sendRank recvRank send recv
    .next { plan with p2pTasks := plan.p2pTasks ++ send.toList ++ recv.toList } rest
  let fits := testBudget budget (plan.nWorkBatches + comm.p2pnChannelsPerPeer)
    (plan.workBytes + devWorkSize .p2p)
  if sendRank = comm.rank then
    match send, recv with
    | some send, some recv =>
      if send.buff = recv.buff then .next plan rest
      else if fits then
        let copy : SelfCopy := ⟨recv.buff, send.buff, send.direction.bytes⟩
        add { plan with selfCopies := plan.selfCopies ++ [copy] }
      else .planFull plan queues
    | _, _ => .invalidUsage
  else if fits then add plan
  else .planFull plan queues

def scheduleRound (comm : Comm) (budget : Budget) (plan : KernelPlan) (queues : P2pQueues)
    (p2pRound sendRank recvRank : Nat) : RoundResult :=
  match (queues.send sendRank).head?, (queues.recv recvRank).head? with
  | none, none => .next plan queues
  | send, recv => schedulePair comm budget plan queues p2pRound sendRank recvRank send recv

def scheduleRounds (comm : Comm) (budget : Budget) :
    Nat → List (Nat × Nat) → KernelPlan → P2pQueues → RoundResult
  | _, [], plan, queues => .next plan queues
  | p2pRound, (sendRank, recvRank) :: rest, plan, queues =>
    match scheduleRound comm budget plan queues p2pRound sendRank recvRank with
    | .next plan queues => scheduleRounds comm budget (p2pRound + 1) rest plan queues
    | stopped => stopped

/-- `while (nTasksP2p != 0)`; every turn takes a task, so the number of tasks is fuel enough. -/
def scheduleTurns (comm : Comm) (budget : Budget) :
    Nat → KernelPlan → P2pQueues → RoundResult
  | 0, plan, queues => .next plan queues
  | fuel + 1, plan, queues =>
    if queues.nTasks = 0 then .next plan queues
    else
      match scheduleRounds comm budget 0 comm.p2pSchedule plan queues with
      | .next plan queues => scheduleTurns comm budget fuel plan queues
      | stopped => stopped

def scheduleP2pTasksToPlan (comm : Comm) (budget : Budget) (plan : KernelPlan)
    (queues : P2pQueues) : RoundResult :=
  scheduleTurns comm budget queues.nTasks
    { plan with
      kernelFn := if plan.kernelSpecialized then plan.kernelFn else some (kernelForFunc .sendRecv)
      kernelSpecialized := plan.kernelSpecialized || kernelForFuncIsSpecialized .sendRecv }
    queues

structure Tasks where
  colls : List CollTask
  p2ps : P2pQueues

def drainColls (comm : Comm) (budget : Budget) (colls : List CollTask) :
    KernelPlan × List CollTask :=
  if colls.isEmpty then (.empty, []) else scheduleCollTasksToPlan comm budget colls .empty

def buildPlan (comm : Comm) (budget : Budget) (tasks : Tasks) : Option (KernelPlan × Tasks) :=
  let drained := drainColls comm budget tasks.colls
  if drained.2.isEmpty ∧ tasks.p2ps.nTasks ≠ 0 then
    match scheduleP2pTasksToPlan comm budget drained.1 tasks.p2ps with
    | .invalidUsage => none
    | .planFull plan p2ps | .next plan p2ps => some (plan, ⟨drained.2, p2ps⟩)
  else some (drained.1, ⟨drained.2, tasks.p2ps⟩)

inductive Prepared where
  | running
  | invalidUsage
  | plans (queue : List KernelPlan)

/-- The loop over the plans: a plan without work is dropped, the others are queued. -/
def prepareLoop (comm : Comm) (budget : Budget) : Nat → Tasks → List KernelPlan → Prepared
  | 0, _, _ => .running
  | fuel + 1, tasks, queue =>
    match buildPlan comm budget tasks with
    | none => .invalidUsage
    | some (plan, rest) =>
      let queue := if plan.workBytes ≠ 0 then queue ++ [plan] else queue
      if rest.colls.isEmpty ∧ rest.p2ps.nTasks = 0 then .plans queue
      else prepareLoop comm budget fuel rest queue

def launchPrepare (comm : Comm) (persistent : Bool) (tasks : Tasks) (fuel : Nat) : Prepared :=
  if tasks.colls.isEmpty ∧ tasks.p2ps.nTasks = 0 then .plans []
  else prepareLoop comm (planBudget comm persistent) fuel tasks []

/-- `ncclLaunchKernel` in PASS_SM mode: whether it enqueues `hostProxySyncCallback` in the
place of a kernel. -/
def KernelPlan.callback (plan : KernelPlan) : Bool :=
  plan.kernelFn == some (kernelForFunc .sendRecv)

end Vccl.Plan
