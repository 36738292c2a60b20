import Vccl.Group.Calls

/-! What the calls do to the nesting depth of their thread. -/
namespace Vccl.Group

open Exits List

/-- A part of the state that the error of the thread and the results of the communicators are not in. -/
structure Blind {γ : Type} (f : State → γ) : Prop where
  error : ∀ s error, f { s with thread := { s.thread with error } } = f s
  comm : ∀ s c {g : Comm → Comm}, (∀ comm, (g comm).finalizeCalled = comm.finalizeCalled) → f (s.setComm c g) = f s

section

variable {γ : Type} {f : State → γ} (blind : Blind f)
include blind

theorem Blind.errCheck (ret : Result) (s : State) : f (ncclGroupErrCheck ret s) = f s := by
  unfold ncclGroupErrCheck
  split
  · exact blind.error s ret
  · rfl

theorem Blind.storeError (comm : Option Nat) (ret : Result) (s : State) : f (storeError comm ret s) = f s := by
  unfold Group.storeError
  split
  · rfl
  · split
    · rfl
    · exact blind.comm s _ fun _ => rfl

theorem Blind.setAsyncErrors (cs : List Nat) (error : Result) (s : State) : f (setAsyncErrors cs error s) = f s := by
  unfold Group.setAsyncErrors
  induction cs generalizing s with
  | nil => rfl
  | cons c rest ih =>
    rw [foldl_cons, ih]
    split
    · rfl
    · exact blind.comm s c fun _ => rfl

theorem Blind.linkGroupJob (s : State) : f (linkGroupJob s) = f s := by
  unfold Group.linkGroupJob
  generalize s.thread.asyncJobs.map Job.comm ++ s.thread.groupComms = cs
  induction cs generalizing s with
  | nil => rfl
  | cons c rest ih =>
    rw [foldl_cons, ih]
    exact blind.comm s c fun _ => rfl

theorem Blind.getAsyncError (callees : Callees) (c : Nat) (s : State) :
    f (ncclCommGetAsyncError callees c s).2 = f s := by
  simp only [ncclCommGetAsyncError]
  generalize (if (s.comms c).asyncResult = .success then _ else _) = asyncError
  split
  · rfl
  · split
    · split
      · rfl
      · exact blind.comm s c (g := fun comm => { comm with groupJob := false }) fun _ => rfl
    · rfl

theorem Blind.ensureReady (callees : Callees) (c : Nat) (s : State) : f (ncclCommEnsureReady callees c s).2 = f s := by
  have asked := blind.getAsyncError callees c s
  simp only [ncclCommEnsureReady]
  split
  · rfl
  · repeat' split
    all_goals exact asked

end

theorem depth_blind : Blind State.depth := ⟨fun _ _ => rfl, fun _ _ _ _ => rfl⟩

theorem depth_groupCleanup (error : Result) (s : State) : (groupCleanup error s).depth = s.depth :=
  (depth_blind.setAsyncErrors _ error _).trans (depth_blind.setAsyncErrors s.thread.groupComms error s)

variable (callees : Callees)

@[simp] theorem depth_asyncLaunch (func : JobFunc) (c : Nat) (s : State) :
    (ncclAsyncLaunch callees func c s).2.depth = s.depth := by
  simp only [ncclAsyncLaunch]
  repeat' split
  all_goals rfl

theorem depth_groupLaunch (s : State) : (groupLaunch callees s).2.depth = s.depth := by
  simp only [groupLaunch]
  split
  · exact depth_groupCleanup _ _
  · have jobs := depth_blind.setAsyncErrors (jobComms s.thread.asyncJobs) callees.groupLaunch
      { s with running := s.running ++ s.thread.asyncJobs }
    exact (depth_blind.setAsyncErrors _ _ _).trans jobs

theorem depth_groupEndOutermost (s : State) : (groupEndOutermost callees s).2.depth = s.depth := by
  have linked := depth_blind.linkGroupJob s
  have launched := depth_groupLaunch callees s
  simp only [groupEndOutermost]
  split
  · exact depth_groupCleanup _ s
  split
  · rfl
  split
  · split
    · exact linked
    · exact (depth_groupCleanup _ _).trans linked
  split
  · exact depth_groupCleanup _ s
  · split
    · exact (depth_groupCleanup _ _).trans launched
    · split
      · exact (depth_groupCleanup _ _).trans launched
      · exact launched

theorem depth_groupEnd (s : State) : (ncclGroupEndInternal callees s).2.depth = s.depth - 1 := by
  simp only [ncclGroupEndInternal]
  split
  next zero => simp [State.depth, zero]
  · split
    · rfl
    · exact depth_groupEndOutermost callees _

theorem depth_groupExit (comm : Option Nat) (ret : Result) (s : State) :
    (groupExit callees comm ret s).2.depth = s.depth - 1 := by
  have ended := depth_groupEnd callees (ncclGroupErrCheck ret s)
  rw [depth_blind.errCheck] at ended
  simp only [groupExit]
  split
  · exact ended
  split
  · exact ended
  · split
    · exact ended
    next c _ =>
      have asked := depth_blind.getAsyncError callees c (ncclGroupEndInternal callees (ncclGroupErrCheck ret s)).2
      split <;> exact asked.trans ended

theorem depth_abortExit (res : Result) (s : State) : (abortExit callees res s).2.depth = s.depth - 1 := by
  have ended := depth_groupEnd callees (ncclGroupErrCheck res s)
  rwa [depth_blind.errCheck] at ended

@[simp] theorem depth_ensureReady (c : Nat) (s : State) : (ncclCommEnsureReady callees c s).2.depth = s.depth :=
  depth_blind.ensureReady callees c s

@[simp] theorem depth_setComm (s : State) (c : Nat) (g : Comm → Comm) : (s.setComm c g).depth = s.depth := rfl

theorem frame_finalizeBody (comm : Option Nat) :
    Frame State.depth ((finalizeBody callees comm).onFail (storeError comm)) := by
  cases comm <;> simp [frame_iff, finalizeBody, setFinalizeCalled, depth_blind.storeError]

theorem frame_destroyBody (c : Nat) : Frame State.depth (destroyBody callees c) := by
  simp [frame_iff, destroyBody, setDestroyFlag]

theorem frame_abortBody (c : Nat) : Frame State.depth (abortBody callees c) := by
  simp [frame_iff, abortBody, setAbortFlag]

theorem frame_splitBody (split : Split) : Frame State.depth (splitBody callees split) := by
  unfold splitBody
  cases split.comm <;> simp [frame_iff]

theorem frame_enqueueBody (faultTolerance : Bool) (info : Info) :
    Frame State.depth (((enqueueBody callees faultTolerance info).onFail fun l => storeError info.comm l.1).atLabel
      (restoreBody callees)) := by
  have joined (c : Nat) (s : State) : (if callees.joins then ncclGroupCommJoin c s else s).depth = s.depth := by
    split <;> rfl
  unfold enqueueBody
  cases info.comm <;> simp [frame_iff, restoreBody, joined, depth_blind.storeError]

theorem depth_label {L : Type} {body : Prog State L Result L} {exit : L → State → Result × State}
    (kept : Frame State.depth body) (exits : ∀ l s, (exit l s).2.depth = s.depth - 1) (s : State) :
    (body.label exit (ncclGroupStartInternal s)).2.depth = s.depth ↔
      ¬ Returns body (ncclGroupStartInternal s) :=
  label_frame (g := fun depth => depth - 1) (ncclGroupStartInternal s) kept exits
    (Nat.ne_of_lt (Nat.lt_succ_self s.depth))

theorem not_returns_finalizeBody (comm : Option Nat) (s : State) :
    ¬ Returns ((finalizeBody callees comm).onFail (storeError comm)) s := by
  cases comm <;> simp [returns_iff, finalizeBody]

theorem not_returns_abortBody (c : Nat) (s : State) : ¬ Returns (abortBody callees c) s := by
  simp [returns_iff, abortBody]

theorem not_returns_splitBody (split : Split) (s : State) : ¬ Returns (splitBody callees split) s := by
  unfold splitBody
  cases split.comm <;> simp [returns_iff]

theorem returns_destroyBody (c : Nat) (s : State) : Returns (destroyBody callees c) s ↔
    (s.comms c).destroyed ∨ (ncclCommEnsureReady callees c (setDestroyFlag c s)).1.failed = true := by
  simp [returns_iff, destroyBody, or_iff_not_imp_left]

def Syncs (comm : Comm) (turn : Turn) : Prop :=
  comm.fills turn = true ∧ (callees.checkIfNeedSync turn).2 = true

/-- Nothing that these turns call fails. Whether to synchronise is only asked, and only done, as long as no
earlier turn has. -/
def TurnsPass (comm : Comm) (ifCudaSync : Bool) (turns : List Turn) : Prop :=
  ∀ before turn after, turns = before ++ turn :: after → comm.fills turn = true →
    (callees.refreshState turn).failed = false ∧
    (ifCudaSync = false → (∀ earlier ∈ before, ¬ Syncs callees comm earlier) →
      (callees.checkIfNeedSync turn).1.failed = false ∧
      ((callees.checkIfNeedSync turn).2 = true → callees.streamSynchronize turn = true))

def TurnPasses (comm : Comm) (ifCudaSync : Bool) (turn : Turn) : Prop :=
  comm.fills turn = true → (callees.refreshState turn).failed = false ∧
    (ifCudaSync = false → (callees.checkIfNeedSync turn).1.failed = false ∧
      ((callees.checkIfNeedSync turn).2 = true → callees.streamSynchronize turn = true))

theorem turnsPass_nil (comm : Comm) (ifCudaSync : Bool) : TurnsPass callees comm ifCudaSync [] := by
  intro before turn after hn
  cases before <;> cases hn

theorem turnsPass_cons (comm : Comm) (ifCudaSync : Bool) (turn : Turn) (rest : List Turn) :
    TurnsPass callees comm ifCudaSync (turn :: rest) ↔
      TurnPasses callees comm ifCudaSync turn ∧
      TurnsPass callees comm (ifCudaSync || (comm.fills turn && (callees.checkIfNeedSync turn).2)) rest := by
  constructor
  · intro hp
    refine ⟨fun fills => ?_, ?_⟩
    · obtain ⟨hr, ha⟩ := hp [] turn rest rfl fills
      exact ⟨hr, fun hu => ha hu (by simp)⟩
    intro before turn' after split fills
    obtain ⟨hr, ha⟩ := hp (turn :: before) turn' after (by rw [split]; rfl) fills
    refine ⟨hr, fun hu earlier => ha ?_ ?_⟩
    · cases ifCudaSync <;> simp_all
    · refine forall_mem_cons.mpr ⟨?_, earlier⟩
      rintro ⟨hf, hn⟩
      simp [hf, hn] at hu
  · rintro ⟨first, ho⟩ before turn' after split fills
    cases before with
    | nil =>
      cases split
      obtain ⟨hr, ha⟩ := first fills
      exact ⟨hr, fun hu _ => ha hu⟩
    | cons turn'' before =>
      cases split
      obtain ⟨hr, ha⟩ := ho before turn' after rfl fills
      refine ⟨hr, fun hu earlier => ha ?_ fun e hi => earlier e (mem_cons_of_mem _ hi)⟩
      have not_first := earlier turn mem_cons_self
      simp only [Syncs, not_and] at not_first
      cases hf : comm.fills turn with
      | true => simp [hu, not_first hf]
      | false => simp [hu]

theorem refreshTurn_cases (comm : Comm) (ifCudaSync : Bool) (turn : Turn) :
    (TurnPasses callees comm ifCudaSync turn ∧
      refreshTurn callees comm ifCudaSync turn =
        .ok (ifCudaSync || (comm.fills turn && (callees.checkIfNeedSync turn).2))) ∨
    (¬ TurnPasses callees comm ifCudaSync turn ∧
      ∃ ret, refreshTurn callees comm ifCudaSync turn = .error ret) := by
  unfold TurnPasses refreshTurn
  cases fills : comm.fills turn with
  | false => simp
  | true =>
    cases ifCudaSync with
    | true => cases (callees.refreshState turn).failed <;> simp
    | false =>
      cases (callees.refreshState turn).failed <;> cases (callees.checkIfNeedSync turn).1.failed <;>
        cases (callees.checkIfNeedSync turn).2 <;> cases callees.streamSynchronize turn <;> simp

theorem refreshTurns_ok (comm : Comm) (ifCudaSync : Bool) (turns : List Turn) :
    (turns.foldlM (refreshTurn callees comm) ifCudaSync).isOk = true ↔
      TurnsPass callees comm ifCudaSync turns := by
  induction turns generalizing ifCudaSync with
  | nil => exact ⟨fun _ => turnsPass_nil callees comm ifCudaSync, fun _ => rfl⟩
  | cons turn rest ih =>
    rw [turnsPass_cons, ← ih, foldlM_cons]
    rcases refreshTurn_cases callees comm ifCudaSync turn with ⟨hp, next⟩ | ⟨hs, _, next⟩
    · rw [next]
      exact ⟨fun ho => ⟨hp, ho⟩, fun both => both.2⟩
    · rw [next]
      exact ⟨fun hi => (by cases hi), fun both => absurd both.1 hs⟩

/-- What has to go well when the communicator can be used: the device can be set back if it was changed, and no
turn of the loops fails if they are reached. -/
structure EnqueuePasses (faultTolerance : Bool) (coll : Func) (comm : Comm) : Prop where
  restores : ∀ devOld, comm.checkPointers = true → callees.cudaGetDevice = some devOld → devOld ≠ -1 →
    callees.restoreDevice = true
  turns : faultTolerance = true →
    (comm.checkPointers = true → callees.cudaGetDevice ≠ none ∧ callees.cudaSetDevice = true) →
    callees.argsCheck.failed = false → TurnsPass callees comm false (turns comm coll)

theorem enqueuePasses_iff (faultTolerance : Bool) (coll : Func) (comm : Comm) :
    EnqueuePasses callees faultTolerance coll comm ↔
      (∀ devOld, comm.checkPointers = true → callees.cudaGetDevice = some devOld → devOld ≠ -1 →
        callees.restoreDevice = true) ∧
      (faultTolerance = true →
        (comm.checkPointers = true → callees.cudaGetDevice ≠ none ∧ callees.cudaSetDevice = true) →
        callees.argsCheck.failed = false → (refreshLoop callees comm coll).isOk = true) := by
  rw [refreshLoop, refreshTurns_ok]
  exact ⟨fun h => ⟨h.restores, h.turns⟩, fun h => ⟨h.1, h.2⟩⟩

theorem returns_enqueue (faultTolerance : Bool) (info : Info) (s : State) :
    Returns (((enqueueBody callees faultTolerance info).onFail fun l => storeError info.comm l.1).atLabel
      (restoreBody callees)) s ↔
      ∃ c, info.comm = some c ∧ (s.comms c).magic = true ∧ (ncclCommEnsureReady callees c s).1.failed = false ∧
        ¬ EnqueuePasses callees faultTolerance info.coll ((ncclCommEnsureReady callees c s).2.comms c) := by
  unfold enqueueBody
  cases hf : info.comm with
  | none => simp [returns_iff, restoreBody]
  | some c =>
    have checked : (commCheck s (some c)).failed = true ↔ (s.comms c).magic = false := by
      rw [commCheck]
      cases (s.comms c).magic <;> simp [Result.failed]
    simp only [returns_iff, restoreBody, wp_onFail, wp_atLabel, wp_read_bind, wp_failIf_bind, wp_lift_bind, checked, Option.some.injEq, exists_eq_left', enqueuePasses_iff]
    generalize (ncclCommEnsureReady callees c s).2.comms c = comm
    cases (s.comms c).magic <;> cases (ncclCommEnsureReady callees c s).1.failed
    any_goals simp
    cases comm.checkPointers <;> cases callees.cudaGetDevice <;> cases callees.cudaSetDevice <;>
      cases callees.argsCheck.failed <;> cases callees.taskAppend.failed <;> cases faultTolerance <;>
      cases (refreshLoop callees comm info.coll).isOk <;> simp

inductive Call where
  | enqueueCheck (faultTolerance : Bool) (info : Info)
  | finalize (comm : Option Nat)
  | destroy (comm : Option Nat)
  | abort (comm : Option Nat)
  | split (request : Split)

def Call.exec : Call → State → Result × State
  | .enqueueCheck faultTolerance info => ncclEnqueueCheck callees faultTolerance info
  | .finalize comm => ncclCommFinalize callees comm
  | .destroy comm => ncclCommDestroy callees comm
  | .abort comm => ncclCommAbort callees comm
  | .split request => ncclCommSplit callees request

/-- The call finds its communicator usable, or is told so behind its label. -/
def Call.Closes (s : State) : Call → Prop
  | .enqueueCheck faultTolerance info =>
    ∀ c, info.comm = some c → (s.comms c).magic = true →
      (ncclCommEnsureReady callees c (ncclGroupStartInternal s)).1.failed = false →
      EnqueuePasses callees faultTolerance info.coll
        ((ncclCommEnsureReady callees c (ncclGroupStartInternal s)).2.comms c)
  | .destroy (some c) => ¬ (s.comms c).destroyed ∧
      (ncclCommEnsureReady callees c (setDestroyFlag c (ncclGroupStartInternal s))).1.failed = false
  | _ => True

/-- A call leaves the nesting depth of its thread as it was exactly when no error makes it return from inside
the group it opened. -/
theorem depth_exec_iff (call : Call) (s : State) :
    (call.exec callees s).2.depth = s.depth ↔ call.Closes callees s := by
  cases call with
  | enqueueCheck faultTolerance info =>
    refine (depth_label (frame_enqueueBody callees faultTolerance info) (depth_groupExit callees info.comm) s).trans ?_
    rw [returns_enqueue]
    simp only [not_exists, not_and, Classical.not_not]
    rfl
  | finalize comm =>
    refine (depth_label (frame_finalizeBody callees comm) (depth_groupExit callees comm) s).trans ?_
    simp [Call.Closes, not_returns_finalizeBody]
  | destroy comm =>
    cases comm with
    | none => simp [Call.exec, ncclCommDestroy, Call.Closes]
    | some c =>
      refine (depth_label (frame_destroyBody callees c) (depth_groupExit callees none) s).trans ?_
      rw [returns_destroyBody, not_or, Bool.not_eq_true]
      rfl
  | abort comm =>
    cases comm with
    | none => simp [Call.exec, ncclCommAbort, Call.Closes]
    | some c =>
      refine (depth_label (frame_abortBody callees c) (depth_abortExit callees) s).trans ?_
      simp [Call.Closes, not_returns_abortBody]
  | split request =>
    simp only [Call.exec, ncclCommSplit, Call.Closes, iff_true]
    split
    · rfl
    · exact (depth_label (frame_splitBody callees request) (depth_groupExit callees none) s).mpr
        (not_returns_splitBody callees request _)

def allWell : Callees where
  groupJobComplete := .success
  cudaGetDevice := some 0
  cudaSetDevice := true
  restoreDevice := true
  argsCheck := .success
  checkIfNeedSync _ := (.success, false)
  streamSynchronize _ := true
  refreshState _ := .success
  taskAppend := .success
  joins := true
  calloc := true
  callocChild := true
  abortFlags := .success
  config := .success
  func := .success
  savedDevice := true
  groupLaunch := .success
  created := 0
  resetDevice := true
  pthreadCreate := true

def idleComm : Comm where
  magic := true
  rank := 0
  nRanks := 1
  cudaDev := 0
  busId := 0
  blocking := true
  checkPointers := false
  splitShare := false
  asyncResult := .success
  proxyResult := none
  groupJob := false
  abortFlag := false
  destroyFlag := false
  finalizeCalled := false
  recv _ _ _ := none

def outside (comm : Comm) : State := ⟨⟨0, .success, [], [], none⟩, fun _ => comm, []⟩

/-- A communicator that was destroyed before, and one with an earlier error, each leave the thread inside the
group that `ncclCommDestroy` opened. -/
theorem destroy_leaves_group_open :
    (ncclCommDestroy allWell (some 0) (outside { idleComm with rank := -1 })).1 = .invalidArgument ∧
    (ncclCommDestroy allWell (some 0) (outside { idleComm with rank := -1 })).2.depth = 1 ∧
    (ncclCommDestroy allWell (some 0) (outside { idleComm with asyncResult := .remoteError })).2.depth = 1 := by
  decide

end Vccl.Group
