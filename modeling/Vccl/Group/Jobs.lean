import Vccl.Group.Depth

/-! What the calls do to the jobs that are queued or running, and to `finalizeCalled`. -/
namespace Vccl.Group

open Exits List

def State.jobs (s : State) : List Job := s.thread.asyncJobs ++ s.running

def State.finalized (s : State) (c : Nat) : Bool := (s.comms c).finalizeCalled

def State.view (s : State) : List Job × List Job × (Nat → Bool) := (s.thread.asyncJobs, s.running, s.finalized)

theorem view_setComm (s : State) (c : Nat) {f : Comm → Comm}
    (same : ∀ comm, (f comm).finalizeCalled = comm.finalizeCalled) : (s.setComm c f).view = s.view := by
  have flags : (s.setComm c f).finalized = s.finalized := by
    funext c'
    simp only [State.finalized, State.setComm]
    split
    next here => rw [same, here]
    · rfl
  simp only [State.view, flags]
  rfl

theorem view_blind : Blind State.view := ⟨fun _ _ => rfl, view_setComm⟩

structure Adds (new : List Job) (s s' : State) : Prop where
  jobs : s'.jobs.Subperm (new ++ s.jobs)
  finalized : s'.finalized = s.finalized

theorem Adds.of_view {s s' : State} (same : s'.view = s.view) (new : List Job) : Adds new s s' := by
  simp only [State.view, Prod.mk.injEq] at same
  obtain ⟨hq, hr, finalized⟩ := same
  refine ⟨?_, finalized⟩
  rw [State.jobs, hq, hr]
  exact (sublist_append_right _ _).subperm

variable {s₁ s₂ s₃ : State} {new : List Job}

theorem Adds.trans (first : Adds new s₁ s₂) (second : Adds [] s₂ s₃) :
    Adds new s₁ s₃ :=
  ⟨second.jobs.trans first.jobs, second.finalized.trans first.finalized⟩

def Started (k : Nat) (s s' : State) : Prop :=
  s'.view = ([], s.running ++ s.thread.asyncJobs.take k, s.finalized)

theorem Adds.of_started {s s' : State} {k : Nat} (started : Started k s s') : Adds [] s s' := by
  simp only [Started, State.view, Prod.mk.injEq] at started
  obtain ⟨hq, hr, finalized⟩ := started
  refine ⟨?_, finalized⟩
  rw [State.jobs, hq, hr, nil_append]
  have some_jobs : (s.thread.asyncJobs.take k ++ s.running).Subperm (s.thread.asyncJobs ++ s.running) :=
    ((take_sublist k _).append_right _).subperm
  exact perm_append_comm.subperm.trans some_jobs

theorem view_groupCleanup (error : Result) (s : State) :
    (groupCleanup error s).view = ([], s.running, s.finalized) := by
  have both := (view_blind.setAsyncErrors (jobComms (setAsyncErrors s.thread.groupComms error s).thread.asyncJobs) error
    _).trans (view_blind.setAsyncErrors s.thread.groupComms error s)
  simp only [State.view, Prod.mk.injEq] at both
  obtain ⟨-, running, finalized⟩ := both
  exact congrArg (Prod.mk []) (Prod.ext running finalized)

theorem started_groupCleanup (error : Result) (s : State) : Started 0 s (groupCleanup error s) := by
  rw [Started, view_groupCleanup, take_zero, append_nil]

variable (callees : Callees)

theorem adds_asyncLaunch (func : JobFunc) (c : Nat) (s : State) :
    Adds [⟨func, c, (s.comms c).destroyFlag⟩] s (ncclAsyncLaunch callees func c s).2 := by
  have queued : ∀ blocking, Adds [⟨func, c, (s.comms c).destroyFlag⟩] s { s with
      thread := { s.thread with
        blocking, asyncJobs := s.thread.asyncJobs ++ [⟨func, c, (s.comms c).destroyFlag⟩] } } := by
    intro blocking
    refine ⟨?_, rfl⟩
    simp only [State.jobs, append_assoc]
    exact perm_middle.subperm
  simp only [ncclAsyncLaunch]
  split
  · refine ⟨?_, rfl⟩
    simp only [State.jobs, ← append_assoc]
    exact perm_append_comm.subperm
  split
  · exact queued _
  · split
    · exact queued _
    · split
      · exact queued _
      · exact Adds.of_view rfl _

theorem started_groupLaunch (s : State) : ∃ k, Started k s (groupLaunch callees s).2 := by
  simp only [groupLaunch]
  split
  · exact ⟨callees.created, view_groupCleanup _ _⟩
  refine ⟨s.thread.asyncJobs.length, ?_⟩
  have jobs := view_blind.setAsyncErrors (jobComms s.thread.asyncJobs) callees.groupLaunch
    { s with running := s.running ++ s.thread.asyncJobs }
  have both := (view_blind.setAsyncErrors (setAsyncErrors (jobComms s.thread.asyncJobs) callees.groupLaunch
    { s with running := s.running ++ s.thread.asyncJobs }).thread.groupComms callees.groupLaunch _).trans jobs
  simp only [State.view, Prod.mk.injEq] at both
  obtain ⟨-, running, finalized⟩ := both
  rw [Started, take_length]
  exact congrArg (Prod.mk []) (Prod.ext running finalized)

theorem adds_groupEndOutermost (s : State) : Adds [] s (groupEndOutermost callees s).2 := by
  simp only [groupEndOutermost]
  split
  · exact .of_started (started_groupCleanup _ s)
  split
  · exact .of_view rfl []
  split
  · have linked := view_blind.linkGroupJob s
    split
    · simp only [State.view, Prod.mk.injEq] at linked
      obtain ⟨hq, hr, finalized⟩ := linked
      refine Adds.of_started (k := s.thread.asyncJobs.length) ?_
      rw [Started, take_length]
      refine congrArg (Prod.mk []) (Prod.ext ?_ finalized)
      rw [hq, hr]
    · exact (Adds.of_view linked []).trans (.of_started (started_groupCleanup _ _))
  · split
    · exact .of_started (started_groupCleanup _ s)
    obtain ⟨k, hl⟩ := started_groupLaunch callees s
    have added := Adds.of_started hl
    split
    · exact added.trans (.of_started (started_groupCleanup _ _))
    · split
      · exact added.trans (.of_started (started_groupCleanup _ _))
      · exact added.trans ⟨(sublist_append_right _ _).subperm, rfl⟩

theorem adds_groupEnd (s : State) : Adds [] s (ncclGroupEndInternal callees s).2 := by
  have lowered : Adds [] s { s with thread := { s.thread with depth := s.thread.depth - 1 } } :=
    .of_view (by rfl) []
  simp only [ncclGroupEndInternal]
  split
  · exact .of_view rfl []
  · split
    · exact lowered
    · exact lowered.trans (adds_groupEndOutermost callees _)

theorem adds_groupExit (comm : Option Nat) (ret : Result) (s : State) :
    Adds [] s (groupExit callees comm ret s).2 := by
  have ended := (Adds.of_view (view_blind.errCheck ret s) []).trans (adds_groupEnd callees (ncclGroupErrCheck ret s))
  simp only [groupExit]
  split
  · exact ended
  split
  · exact ended
  · split
    · exact ended
    next c _ =>
      have asked := view_blind.getAsyncError callees c (ncclGroupEndInternal callees (ncclGroupErrCheck ret s)).2
      split <;> exact ended.trans (.of_view asked [])

theorem adds_abortExit (res : Result) (s : State) : Adds [] s (abortExit callees res s).2 :=
  (Adds.of_view (view_blind.errCheck res s) []).trans (adds_groupEnd callees (ncclGroupErrCheck res s))

structure Finalizes (c : Nat) (s s' : State) : Prop where
  fresh : s.finalized c = false
  finalized : s'.finalized = Function.update s.finalized c true
  jobs : ∃ flag, s'.jobs.Subperm (⟨.commDestroySync, c, flag⟩ :: s.jobs)

variable {c : Nat}

theorem Finalizes.trans (first : Finalizes c s₁ s₂) (second : Adds [] s₂ s₃) :
    Finalizes c s₁ s₃ := by
  refine ⟨first.fresh, second.finalized.trans first.finalized, ?_⟩
  obtain ⟨flag, jobs⟩ := first.jobs
  exact ⟨flag, second.jobs.trans jobs⟩

variable {s s' : State}

theorem Adds.weaken (fewer : Adds [] s s') : Adds new s s' :=
  ⟨fewer.jobs.trans (sublist_append_right _ _).subperm, fewer.finalized⟩

theorem finalized_setFinalizeCalled (s : State) (c : Nat) :
    (setFinalizeCalled c s).finalized = Function.update s.finalized c true := by
  funext c'
  by_cases here : c' = c
  all_goals simp [State.finalized, setFinalizeCalled, State.setComm, here]

theorem finalize_effect (comm : Option Nat) (s : State) :
    Adds [] s (ncclCommFinalize callees comm s).2 ∨
      ∃ c, comm = some c ∧ Finalizes c s (ncclCommFinalize callees comm s).2 := by
  cases comm with
  | none =>
    have before : Adds [] s (ncclGroupStartInternal s) := .of_view (by rfl) []
    exact .inl (before.trans (adds_groupExit callees none .success _))
  | some c =>
    let P : State → Prop := fun s' => Adds [] s s' ∨ ∃ c', some c = some c' ∧ Finalizes c' s s'
    have later {s' s'' : State} (before : P s') (more : Adds [] s' s'') : P s'' := by
      rcases before with hfe | ⟨c, hfo, finalizes⟩
      · exact .inl (hfe.trans more)
      · exact .inr ⟨c, hfo, finalizes.trans more⟩
    have fails {s' : State} (before : P s') (l : Result) : P (storeError (some c) l s') :=
      later before (.of_view (view_blind.storeError (some c) l s') [])
    refine label_of_wp (P := P) ?_ fun l s' here => later here (adds_groupExit callees (some c) l s')
    have asked : _ = s.view := view_blind.ensureReady callees c (ncclGroupStartInternal s)
    have unchanged : P (ncclCommEnsureReady callees c (ncclGroupStartInternal s)).2 := .inl (.of_view asked [])
    simp only [finalizeBody, wp_onFail, wp_lift_bind, wp_failIf_bind, wp_read_bind, wp_modify_bind]
    generalize (ncclCommEnsureReady callees c (ncclGroupStartInternal s)).2 = ready at asked unchanged
    refine ⟨fun _ => fails unchanged _, fun _ => ⟨fun _ => fails unchanged _, fun hf => ?_⟩⟩
    have same : (setFinalizeCalled c ready).jobs = s.jobs := congrArg (fun view => view.1 ++ view.2.1) asked
    have finalized : ready.finalized = s.finalized := congrArg (fun view => view.2.2) asked
    have marked : Finalizes c s (setFinalizeCalled c ready) := by
      refine ⟨?_, ?_, false, ?_⟩
      · rw [← finalized]
        exact Bool.eq_false_iff.mpr hf
      · rw [finalized_setFinalizeCalled, finalized]
      · rw [same]
        exact (sublist_cons_self _ _).subperm
    have launched := adds_asyncLaunch callees .commDestroySync c (setFinalizeCalled c ready)
    have queued : P (ncclAsyncLaunch callees .commDestroySync c (setFinalizeCalled c ready)).2 := by
      have added := launched.jobs
      rw [same] at added
      exact .inr ⟨c, rfl, marked.fresh, launched.finalized.trans marked.finalized, _, added⟩
    exact ⟨fun _ => fails (.inr ⟨c, rfl, marked⟩) _, fun _ => ⟨fun _ => fails queued _, fun _ => queued⟩⟩

variable {func : JobFunc}

theorem Adds.launched {ready : State} (same : ready.view = s.view) :
    ∃ flag, Adds [⟨func, c, flag⟩] s (ncclAsyncLaunch callees func c ready).2 := by
  have launched := adds_asyncLaunch callees func c ready
  have finalized : ready.finalized = s.finalized := congrArg (fun view => view.2.2) same
  have jobs : ready.jobs = s.jobs := congrArg (fun view => view.1 ++ view.2.1) same
  exact ⟨_, jobs ▸ launched.jobs, launched.finalized.trans finalized⟩

def Launches (func : JobFunc) (c : Nat) (s s' : State) : Prop := ∃ flag, Adds [⟨func, c, flag⟩] s s'

theorem Launches.of_view (same : s'.view = s.view) :
    Launches func c s s' := ⟨false, .of_view same _⟩

theorem Launches.trans (first : Launches func c s₁ s₂) (second : Adds [] s₂ s₃) :
    Launches func c s₁ s₃ := by
  obtain ⟨flag, added⟩ := first
  exact ⟨flag, added.trans second⟩

theorem destroy_effect (c : Nat) (s : State) :
    Launches .commReclaim c s (ncclCommDestroy callees (some c) s).2 := by
  have before : Launches .commReclaim c s (ncclGroupStartInternal s) := .of_view rfl
  have flagged : (setDestroyFlag c (ncclGroupStartInternal s)).view = s.view := view_setComm _ c fun _ => rfl
  have ready := (view_blind.ensureReady callees c _).trans flagged
  have unchanged : Launches .commReclaim c s _ := .of_view ready
  have launched : Launches .commReclaim c s _ := Adds.launched callees ready
  refine label_of_wp ?_ fun l s' here => here.trans (adds_groupExit callees none l s')
  simp [destroyBody, before, unchanged, launched]

theorem abort_effect (c : Nat) (s : State) :
    Launches .commReclaim c s (ncclCommAbort callees (some c) s).2 := by
  have flagged : (setAbortFlag c (ncclGroupStartInternal s)).view = s.view := view_setComm _ c fun _ => rfl
  have ready := (view_blind.ensureReady callees c _).trans flagged
  have unchanged : Launches .commReclaim c s _ := .of_view ready
  have launched : Launches .commReclaim c s _ := Adds.launched callees ready
  refine label_of_wp ?_ fun l s' here => here.trans (adds_abortExit callees l s')
  simp [abortBody, unchanged, launched]

theorem split_effect (split : Split) (s : State) :
    ∃ c, Launches .commInitRankFunc c s (ncclCommSplit callees split s).2 := by
  refine ⟨split.comm.getD 0, ?_⟩
  unfold ncclCommSplit
  split
  · exact .of_view rfl
  refine label_of_wp ?_ fun l s' here => here.trans (adds_groupExit callees none l s')
  have before (c : Nat) : Launches .commInitRankFunc c s (ncclGroupStartInternal s) := .of_view rfl
  have ready (c : Nat) : _ = s.view := view_blind.ensureReady callees c (ncclGroupStartInternal s)
  have unchanged (c : Nat) : Launches .commInitRankFunc c s _ := .of_view (ready c)
  have launched (c : Nat) : Launches .commInitRankFunc c s _ := Adds.launched callees (ready c)
  unfold splitBody
  cases split.comm <;> simp [before, unchanged, launched]

theorem enqueue_effect (faultTolerance : Bool) (info : Info) (s : State) :
    Adds [] s (ncclEnqueueCheck callees faultTolerance info s).2 := by
  have fails (comm : Option Nat) (l : Result) (s' : State) (here : Adds [] s s') : Adds [] s (storeError comm l s') :=
    here.trans (.of_view (view_blind.storeError comm l s') [])
  have before : Adds [] s (ncclGroupStartInternal s) := .of_view (by rfl) []
  have ready (c : Nat) : Adds [] s (ncclCommEnsureReady callees c (ncclGroupStartInternal s)).2 :=
    .of_view (s := s) (view_blind.ensureReady callees c (ncclGroupStartInternal s)) []
  have joined (c : Nat) (s' : State) (here : Adds [] s s') :
      Adds [] s (if callees.joins then ncclGroupCommJoin c s' else s') := by
    split
    · exact here.trans (.of_view (by rfl) [])
    · exact here
  refine label_of_wp ?_ fun l s' here => here.trans (adds_groupExit callees info.comm l s')
  unfold enqueueBody restoreBody
  cases info.comm <;> simp [fails, before, ready, joined]

end Vccl.Group
