import Vccl.Proxy.Op

/-! Device functions with their kernels, and the batches `addWorkBatchToPlan` collects for
a channel of the plan in progress. The kernels are those of a build without a function filter. -/
namespace Vccl.Plan

inductive RedOp where
  | sum
  | prod
  | minMax
  | preMulSum
  | sumPostDiv
  deriving DecidableEq

inductive Ty where
  | i8
  | u8
  | i32
  | u32
  | i64
  | u64
  | f16
  | f32
  | f64
  | bf16
  | f8e4m3
  | f8e5m2
  deriving DecidableEq

inductive Algo where
  | tree
  | ring
  | collnetDirect
  | collnetChain
  | nvls
  | nvlsTree
  | pat
  deriving DecidableEq

inductive GatherFunc where
  | allGather
  | broadcast
  deriving DecidableEq

inductive ReduceFunc where
  | allReduce
  | reduce
  | reduceScatter
  deriving DecidableEq

inductive DevFunc where
  | sendRecv
  | gather (func : GatherFunc) (algo : Algo) (proto : Proxy.Protocol)
  | reduce (func : ReduceFunc) (op : RedOp) (ty : Ty) (algo : Algo) (proto : Proxy.Protocol)
  deriving DecidableEq

def Ty.unsigned : Ty → Ty
  | .i8 => .u8
  | .i32 => .u32
  | .i64 => .u64
  | ty => ty

def Algo.isNvls : Algo → Bool
  | .nvls | .nvlsTree => true
  | _ => false

def equivalentPrimary : DevFunc → DevFunc
  | .reduce func .minMax ty algo proto =>
    .reduce func .minMax (if algo.isNvls then ty else ty.unsigned) algo proto
  | .reduce func op ty algo proto => .reduce func op ty.unsigned algo proto
  | fn => fn

/-- `best_kernel`, on primary functions. -/
def bestKernel : DevFunc → DevFunc
  | .sendRecv => .sendRecv
  | .gather func _ _ => .gather func .ring .ll
  | .reduce func _ ty algo _ =>
    equivalentPrimary (.reduce func .sum ty (if algo = .tree then .tree else .ring) .ll)

/-- `ncclDevKernelForFunc`; a kernel is named by the function it is specialised for. -/
def kernelForFunc (fn : DevFunc) : DevFunc := bestKernel (equivalentPrimary fn)

def kernelForFuncIsSpecialized (fn : DevFunc) : Bool :=
  decide (equivalentPrimary fn = kernelForFunc fn)

theorem kernelForFunc_eq_sendRecv {fn : DevFunc} :
    kernelForFunc fn = .sendRecv ↔ fn = .sendRecv := by
  cases fn with
  | sendRecv => simp [kernelForFunc, equivalentPrimary, bestKernel]
  | gather func algo proto => simp [kernelForFunc, equivalentPrimary, bestKernel]
  | reduce func op ty algo proto =>
    cases op <;> simp [kernelForFunc, equivalentPrimary, bestKernel]

inductive WorkType where
  | p2p
  | coll
  | collReg
  deriving DecidableEq

def devWorkSize : WorkType → Nat
  | .p2p => 48
  | .coll => 96
  | .collReg => 288

theorem devWorkSize_pos (workType : WorkType) : 0 < devWorkSize workType := by
  cases workType <;> decide

def sizeofDevWorkBatch : Nat := 16
def sizeofDevKernelArgs : Nat := 32
def maxDevWorkBatchBytes : Nat := 1024
def maxDevWorkP2pPerBatch : Nat := 8
def maxChannels : Nat := 64

structure Batch where
  nextExtends : Bool
  workType : WorkType
  funcId : DevFunc
  offsetBase : Nat
  offsetBitset : Nat
  deriving DecidableEq

/-- `WipPlan::Channel`; `wipRounds` holds the `nP2ps` rounds of the batch in progress. The
queues are in order, the tail comes last. -/
structure WipChannel where
  wipBytes : Nat
  wipRounds : List Nat
  nWorkBatchesP2p : Nat
  batches : List Batch
  proxyOps : List Proxy.ProxyOp
  deriving DecidableEq

def WipChannel.empty : WipChannel := ⟨0, [], 0, [], []⟩

def newBatch (chan : WipChannel) (workType : WorkType) (funcId : DevFunc) (p2pRound : Nat) : Bool :=
  match chan.batches.getLast? with
  | none => true
  | some batch =>
    decide (batch.workType ≠ workType) || decide (batch.funcId ≠ funcId) ||
      decide (maxDevWorkBatchBytes < chan.wipBytes + devWorkSize workType) ||
      (workType == .p2p && (chan.wipRounds.length == maxDevWorkP2pPerBatch ||
        chan.wipRounds.contains p2pRound))

def tailOffset (chan : WipChannel) (workOffset : Nat) : Nat :=
  match chan.batches.getLast? with
  | none => 0
  | some batch => workOffset - batch.offsetBase

def extendBatch (workType : WorkType) (offset : Nat) : Bool :=
  decide (63 * devWorkSize workType < offset) || decide (offset % devWorkSize workType ≠ 0)

def updateTail (f : Batch → Batch) (batches : List Batch) : List Batch :=
  match batches.getLast? with
  | none => []
  | some batch => batches.dropLast ++ [f batch]

/-- The channel after `addWorkBatchToPlan`, with what is added to `plan->nWorkBatches`. -/
def addWorkBatch (chan : WipChannel) (workType : WorkType) (funcId : DevFunc)
    (workOffset p2pRound : Nat) : WipChannel × Nat :=
  let fresh := newBatch chan workType funcId p2pRound
  let offset := if fresh then 0 else tailOffset chan workOffset
  let opens := fresh || extendBatch workType offset
  let blank : Batch := ⟨false, workType, funcId, workOffset, 1⟩
  let batches :=
    if fresh then chan.batches ++ [blank]
    else if opens then updateTail (fun batch => { batch with nextExtends := true }) chan.batches ++ [blank]
    else updateTail (fun batch =>
      { batch with offsetBitset := batch.offsetBitset ||| 1 <<< (offset / devWorkSize workType) })
      chan.batches
  let rounds := if fresh then [] else chan.wipRounds
  ({ wipBytes := (if fresh then 0 else chan.wipBytes) + devWorkSize workType
     wipRounds := if workType = .p2p then rounds ++ [p2pRound] else rounds
     nWorkBatchesP2p := chan.nWorkBatchesP2p + if fresh && workType == .p2p then 1 else 0
     batches
     proxyOps := chan.proxyOps },
   if opens then 1 else 0)

end Vccl.Plan
