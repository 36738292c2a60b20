import Vccl.Lib.Exits

/-! The group calls of one thread, and the calls that open a group of their own: `ncclEnqueueCheck`,
`ncclCommFinalize`, `ncclCommDestroy`, `ncclCommAbort` and `ncclCommSplit`. What the rest of the library answers
them is a parameter. -/
namespace Vccl.Group

open Exits

inductive Result where
  | success
  | unhandledCudaError
  | systemError
  | internalError
  | invalidArgument
  | invalidUsage
  | remoteError
  | inProgress
  deriving DecidableEq

/-- What `NCCLCHECK` and `NCCLCHECKGOTO` stop at. -/
def Result.failed : Result → Bool
  | .success => false
  | .inProgress => false
  | _ => true

inductive JobFunc where
  | commDestroySync
  | commReclaim
  | commInitRankFunc
  deriving DecidableEq

structure Job where
  func : JobFunc
  comm : Nat
  destroyFlag : Bool
  deriving DecidableEq

/-- What is read of an `ncclConnector`; `netProgress` says that its progress function is that of the network. -/
structure Connector where
  noUsePxnTransport : Bool
  connected : Bool
  netProgress : Bool

/-- What the calls read and write of an `ncclComm`. `recv` is `none` where there is no peer. -/
structure Comm where
  magic : Bool
  rank : Int
  nRanks : Int
  cudaDev : Int
  busId : Int
  blocking : Bool
  checkPointers : Bool
  splitShare : Bool
  asyncResult : Result
  proxyResult : Option Result
  groupJob : Bool
  abortFlag : Bool
  destroyFlag : Bool
  finalizeCalled : Bool
  recv : Nat → Int → Nat → Option Connector

/-- The thread's own variables. A communicator that needs a preconnect is in `groupComms` too. -/
structure Thread where
  depth : Nat
  error : Result
  groupComms : List Nat
  asyncJobs : List Job
  blocking : Option Bool

/-- `running` are the jobs that were given threads of their own. -/
structure State where
  thread : Thread
  comms : Nat → Comm
  running : List Job

def State.depth (s : State) : Nat := s.thread.depth

def State.setComm (s : State) (c : Nat) (f : Comm → Comm) : State :=
  { s with comms := fun c' => if c' = c then f (s.comms c) else s.comms c' }

structure Turn where
  i : Nat
  c : Nat
  connIndex : Nat
  deriving DecidableEq

/-- What the rest of the library answers during one call. -/
structure Callees where
  groupJobComplete : Result
  cudaGetDevice : Option Int
  cudaSetDevice : Bool
  restoreDevice : Bool
  argsCheck : Result
  checkIfNeedSync : Turn → Result × Bool
  streamSynchronize : Turn → Bool
  refreshState : Turn → Result
  taskAppend : Result
  joins : Bool
  calloc : Bool
  callocChild : Bool
  abortFlags : Result
  config : Result
  func : Result
  savedDevice : Bool
  groupLaunch : Result
  created : Nat
  resetDevice : Bool
  pthreadCreate : Bool

def ncclGroupStartInternal (s : State) : State :=
  { s with thread := { s.thread with depth := s.thread.depth + 1 } }

def ncclGroupErrCheck (ret : Result) (s : State) : State :=
  if 0 < s.thread.depth ∧ ret ≠ .success ∧ ret ≠ .inProgress then { s with thread := { s.thread with error := ret } }
  else s

/-- Where in the list the communicator is put does not matter here. -/
def ncclGroupCommJoin (c : Nat) (s : State) : State :=
  { s with thread := { s.thread with
    groupComms := if c ∈ s.thread.groupComms then s.thread.groupComms else c :: s.thread.groupComms
    blocking := some (s.comms c).blocking } }

def ncclCommSetAsyncError (c : Nat) (nextState : Result) (s : State) : State :=
  s.setComm c fun comm => { comm with asyncResult := nextState }

def setAsyncErrors (cs : List Nat) (error : Result) (s : State) : State :=
  cs.foldl (fun s c => if (s.comms c).blocking then s else ncclCommSetAsyncError c error s) s

def Thread.reset (t : Thread) : Thread :=
  { t with error := .success, groupComms := [], asyncJobs := [], blocking := none }

def jobComms (jobs : List Job) : List Nat := (jobs.filter fun job => !job.destroyFlag).map Job.comm

def groupCleanup (error : Result) (s : State) : State :=
  let s := setAsyncErrors s.thread.groupComms error s
  let s := setAsyncErrors (jobComms s.thread.asyncJobs) error s
  { s with thread := s.thread.reset }

section

variable (callees : Callees)

def ncclAsyncLaunch (func : JobFunc) (c : Nat) (s : State) : Result × State :=
  let comm := s.comms c
  let job : Job := ⟨func, c, comm.destroyFlag⟩
  if s.thread.depth = 0 then (callees.func, { s with running := s.running ++ [job] })
  else
    let accept (blocking : Option Bool) : State :=
      { s with thread := { s.thread with blocking, asyncJobs := s.thread.asyncJobs ++ [job] } }
    if comm.destroyFlag then (.success, accept (some true))
    else
      match s.thread.blocking with
      | none => (.success, accept (some comm.blocking))
      | some blocking => if blocking = comm.blocking then (.success, accept (some blocking)) else (.invalidArgument, s)

/-- Jobs run in threads of their own; when one of those is not created, it and the ones behind it do not run. -/
def groupLaunch (s : State) : Result × State :=
  let ret := callees.groupLaunch
  if ret.failed then
    (ret, groupCleanup ret { s with running := s.running ++ s.thread.asyncJobs.take callees.created })
  else
    let s := { s with running := s.running ++ s.thread.asyncJobs }
    let s := setAsyncErrors (jobComms s.thread.asyncJobs) ret s
    let s := setAsyncErrors s.thread.groupComms ret s
    (ret, { s with thread := { s.thread with asyncJobs := [] } })

/-- A group that does not block: its communicators are busy until the thread of the group is done. -/
def linkGroupJob (s : State) : State :=
  (s.thread.asyncJobs.map Job.comm ++ s.thread.groupComms).foldl
    (fun s c => s.setComm c fun comm => { comm with asyncResult := .inProgress, groupJob := true }) s

/-- The part of `ncclGroupEndInternal` for the outermost group. -/
def groupEndOutermost (s : State) : Result × State :=
  let fail (ret : Result) (s : State) : Result × State := (ret, groupCleanup ret s)
  if s.thread.error ≠ .success then fail s.thread.error s
  else if s.thread.groupComms = [] ∧ s.thread.asyncJobs = [] then (.success, s)
  else if s.thread.blocking = some false then
    let s := linkGroupJob s
    if callees.pthreadCreate then
      (.inProgress, { s with running := s.running ++ s.thread.asyncJobs, thread := s.thread.reset })
    else fail .systemError s
  else if callees.savedDevice = false then fail .unhandledCudaError s
  else
    match groupLaunch callees s with
    | (ret, s) =>
      if ret.failed then fail ret s
      else if callees.resetDevice = false then fail .unhandledCudaError s
      else (ret, { s with thread := s.thread.reset })

def ncclGroupEndInternal (s : State) : Result × State :=
  if s.thread.depth = 0 then (.invalidUsage, s)
  else
    let s := { s with thread := { s.thread with depth := s.thread.depth - 1 } }
    if 0 < s.thread.depth then (.success, s) else groupEndOutermost callees s

/-- `CommCheck`; there is no communicator behind a null pointer. -/
def commCheck (s : State) : Option Nat → Result
  | none => .invalidArgument
  | some c => if (s.comms c).magic then .success else .invalidArgument

def ncclCommGetAsyncError (c : Nat) (s : State) : (Result × Result) × State :=
  let comm := s.comms c
  if comm.magic = false then ((.invalidArgument, .success), s)
  else
    let asyncError := if comm.asyncResult = .success then comm.proxyResult.getD .success else comm.asyncResult
    if asyncError = .success ∧ comm.groupJob then
      if callees.groupJobComplete.failed then ((callees.groupJobComplete, asyncError), s)
      else ((.success, asyncError), s.setComm c fun comm => { comm with groupJob := false })
    else ((.success, asyncError), s)

def ncclCommEnsureReady (c : Nat) (s : State) : Result × State :=
  if (s.comms c).abortFlag then (.success, s)
  else
    match ncclCommGetAsyncError callees c s with
    | ((ret, asyncError), s) =>
      if ret.failed then (ret, s) else if asyncError = .inProgress then (.invalidArgument, s) else (asyncError, s)

/-- What a call that opened a group returns after it has closed it: a communicator that does not block is asked
for its state. -/
def groupExit (comm : Option Nat) (ret : Result) (s : State) : Result × State :=
  match ncclGroupEndInternal callees (ncclGroupErrCheck ret s) with
  | (ended, s) =>
    if ended.failed then (ended, s)
    else
      match comm with
      | none => (ret, s)
      | some c =>
        if (s.comms c).blocking then (ret, s)
        else
          match ncclCommGetAsyncError callees c s with
          | ((code, asyncError), s) => if code.failed then (code, s) else (asyncError, s)

def storeError (comm : Option Nat) (ret : Result) (s : State) : State :=
  match comm with
  | none => s
  | some c => if (s.comms c).blocking then s else ncclCommSetAsyncError c ret s

def setFinalizeCalled (c : Nat) (s : State) : State :=
  s.setComm c fun comm => { comm with finalizeCalled := true }

def finalizeBody (comm : Option Nat) : Prog State Result Result Result :=
  match comm with
  | none => pure .success
  | some c => do
    let ret ← .lift (ncclCommEnsureReady callees c)
    .failIf (ret.failed = true) ret
    let finalizeCalled ← .read fun s => (s.comms c).finalizeCalled
    .failIf (finalizeCalled = true) .invalidArgument
    .modify (setFinalizeCalled c)
    .failIf (callees.calloc = false) .systemError
    let ret ← .lift (ncclAsyncLaunch callees .commDestroySync c)
    .failIf (ret.failed = true) ret
    pure ret

def ncclCommFinalize (comm : Option Nat) (s : State) : Result × State :=
  ((finalizeBody callees comm).onFail (storeError comm)).label (groupExit callees comm) (ncclGroupStartInternal s)

def Comm.destroyed (comm : Comm) : Prop :=
  comm.rank = -1 ∨ comm.nRanks = -1 ∨ comm.cudaDev = -1 ∨ comm.busId = -1

instance (comm : Comm) : Decidable comm.destroyed :=
  inferInstanceAs (Decidable (comm.rank = -1 ∨ comm.nRanks = -1 ∨ comm.cudaDev = -1 ∨ comm.busId = -1))

def setDestroyFlag (c : Nat) (s : State) : State :=
  s.setComm c fun comm => { comm with destroyFlag := true }

def destroyBody (c : Nat) : Prog State Result Result Result := do
  let destroyed ← .read fun s => decide (s.comms c).destroyed
  -- These two return from inside the group.
  .retIf (destroyed = true) .invalidArgument
  .modify (setDestroyFlag c)
  let ret ← .lift (ncclCommEnsureReady callees c)
  .retIf (ret.failed = true) ret
  .failIf (callees.calloc = false) .systemError
  let res ← .lift (ncclAsyncLaunch callees .commReclaim c)
  .failIf (res.failed = true) res
  pure res

def ncclCommDestroy (comm : Option Nat) (s : State) : Result × State :=
  match comm with
  | none => (.success, s)
  | some c => (destroyBody callees c).label (groupExit callees none) (ncclGroupStartInternal s)

def setAbortFlag (c : Nat) (s : State) : State :=
  s.setComm c fun comm => { comm with abortFlag := true, destroyFlag := true }

def abortBody (c : Nat) : Prog State Result Result Result := do
  .modify (setAbortFlag c)
  let _ ← .lift (ncclCommEnsureReady callees c)
  .failIf (callees.calloc = false) .systemError
  let res ← .lift (ncclAsyncLaunch callees .commReclaim c)
  .failIf (res.failed = true) res
  pure res

def abortExit (res : Result) (s : State) : Result × State :=
  match ncclGroupEndInternal callees (ncclGroupErrCheck res s) with
  | (ended, s) => (if ended.failed then ended else .success, s)

def ncclCommAbort (comm : Option Nat) (s : State) : Result × State :=
  match comm with
  | none => (.success, s)
  | some c => (abortBody callees c).label (abortExit callees) (ncclGroupStartInternal s)

/-- Which communicator is split, whether there is a place for the new one, whether this rank gets a colour, and
whether it brings its own configuration. -/
structure Split where
  comm : Option Nat
  newcomm : Bool
  color : Option Nat
  config : Bool

def splitBody (split : Split) : Prog State Result Result Result := do
  let res ← .read fun s => commCheck s split.comm
  .failIf (res.failed = true) res
  .failIf (split.newcomm = false) .invalidArgument
  match split.comm with
  | none => pure .success
  | some c => do
    let res ← .lift (ncclCommEnsureReady callees c)
    .failIf (res.failed = true) res
    .failIf (callees.cudaSetDevice = false) .unhandledCudaError
    let splitShare ← .read fun s => (s.comms c).splitShare
    .failIf (split.color.isSome = true ∧ callees.callocChild = false) .systemError
    .failIf (split.color.isSome = true ∧ splitShare = false ∧ callees.abortFlags.failed = true) callees.abortFlags
    .failIf (split.color.isSome = true ∧ callees.config.failed = true) callees.config
    .failIf (callees.calloc = false) .systemError
    let res ← .lift (ncclAsyncLaunch callees .commInitRankFunc c)
    .failIf (res.failed = true) res
    pure res

def ncclCommSplit (split : Split) (s : State) : Result × State :=
  if callees.cudaGetDevice = none then (.unhandledCudaError, s)
  else (splitBody callees split).label (groupExit callees none) (ncclGroupStartInternal s)

inductive Func where
  | send
  | recv
  | collective
  deriving DecidableEq

structure Info where
  comm : Option Nat
  coll : Func

def maxChannels : Nat := 64

def maxConns : Nat := 2

/-- The turns of the three loops, in their order. A send leaves the innermost one at once. -/
def turns (comm : Comm) (coll : Func) : List Turn :=
  if coll = .send then []
  else
    (List.range 129).flatMap fun (i : Nat) =>
      if 1 ≤ i ∧ (i : Int) < comm.nRanks then
        (List.range maxChannels).flatMap fun c => (List.range maxConns).map fun connIndex => ⟨i, c, connIndex⟩
      else []

def Comm.fills (comm : Comm) (turn : Turn) : Bool :=
  match comm.recv turn.c ((comm.rank - turn.i + comm.nRanks) % comm.nRanks) turn.connIndex with
  | none => false
  | some conn => conn.noUsePxnTransport && conn.connected && conn.netProgress

def refreshTurn (comm : Comm) (ifCudaSync : Bool) (turn : Turn) : Except Result Bool :=
  if comm.fills turn then
    if ifCudaSync = false ∧ (callees.checkIfNeedSync turn).1.failed = true then
      .error (callees.checkIfNeedSync turn).1
    else if ifCudaSync = false ∧ (callees.checkIfNeedSync turn).2 = true ∧ callees.streamSynchronize turn = false then
      .error .unhandledCudaError
    else if (callees.refreshState turn).failed then .error (callees.refreshState turn)
    else .ok (ifCudaSync || (callees.checkIfNeedSync turn).2)
  else .ok ifCudaSync

def refreshLoop (comm : Comm) (coll : Func) : Except Result Bool :=
  (turns comm coll).foldlM (refreshTurn callees comm) false

def enqueueBody (faultTolerance : Bool) (info : Info) : Prog State (Result × Int) Result (Result × Int) := do
  let ret ← .read fun s => commCheck s info.comm
  .failIf (ret.failed = true) (ret, -1)
  match info.comm with
  | none => pure (.success, -1)
  | some c => do
    let ret ← .lift (ncclCommEnsureReady callees c)
    .failIf (ret.failed = true) (ret, -1)
    let comm ← .read fun s => s.comms c
    .failIf (comm.checkPointers = true ∧ callees.cudaGetDevice = none) (.unhandledCudaError, -1)
    let devOld := if comm.checkPointers then callees.cudaGetDevice.getD (-1) else -1
    .failIf (comm.checkPointers = true ∧ callees.cudaSetDevice = false) (.unhandledCudaError, devOld)
    .failIf (callees.argsCheck.failed = true) (callees.argsCheck, devOld)
    .retIf (faultTolerance = true ∧ (refreshLoop callees comm info.coll).isOk = false)
      (match refreshLoop callees comm info.coll with
        | .error ret => ret
        | .ok _ => .success)
    .modify fun s => if callees.joins then ncclGroupCommJoin c s else s
    .failIf (callees.taskAppend.failed = true) (callees.taskAppend, devOld)
    pure (callees.taskAppend, devOld)

/-- The first line of the label `exit`: it returns when the device cannot be set back. -/
def restoreBody (l : Result × Int) : Prog State Result Result Result := do
  .retIf (l.2 ≠ -1 ∧ callees.restoreDevice = false) .unhandledCudaError
  pure l.1

def ncclEnqueueCheck (faultTolerance : Bool) (info : Info) (s : State) : Result × State :=
  (((enqueueBody callees faultTolerance info).onFail fun l => storeError info.comm l.1).atLabel
    (restoreBody callees)).label (groupExit callees info.comm) (ncclGroupStartInternal s)

end

end Vccl.Group
