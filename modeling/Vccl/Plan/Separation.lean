import Vccl.Plan.Queues
import Vccl.Plan.Cells

/-! Which plans of a group run as a kernel and which through `hostProxySyncCallback`. -/
namespace Vccl.Plan

open List

/-- Every task is in a plan that runs it, and no plan mixes the two kinds. Tasks between the
rank and itself have no proxy op. -/
structure Separated (comm : Comm) (tasks : Tasks) (plans : List KernelPlan) : Prop where
  colls : ∀ t ∈ tasks.colls, ∃ plan ∈ plans, t ∈ plan.collTasks ∧ plan.callback = false
  sends : ∀ r ≠ comm.rank, ∀ t ∈ tasks.p2ps.send r,
    ∃ plan ∈ plans, t ∈ plan.p2pTasks ∧ plan.callback = true
  recvs : ∀ r ≠ comm.rank, ∀ t ∈ tasks.p2ps.recv r,
    ∃ plan ∈ plans, t ∈ plan.p2pTasks ∧ plan.callback = true
  apart : ∀ plan ∈ plans, (plan.callback = true → plan.collTasks = []) ∧
    (plan.callback = false → plan.p2pTasks = [])

inductive DrainsTo (comm : Comm) (budget : Budget) : List CollTask → KernelPlan → Prop where
  | last {colls : List CollTask} (some' : colls ≠ [])
      (done : (scheduleCollTasksToPlan comm budget colls .empty).2 = []) :
      DrainsTo comm budget colls (scheduleCollTasksToPlan comm budget colls .empty).1
  | more {colls : List CollTask} {plan : KernelPlan}
      (left : (scheduleCollTasksToPlan comm budget colls .empty).2 ≠ [])
      (rest : DrainsTo comm budget (scheduleCollTasksToPlan comm budget colls .empty).2 plan) :
      DrainsTo comm budget colls plan

theorem drainColls_eq {comm : Comm} {budget : Budget} {colls : List CollTask} (some' : colls ≠ []) :
    drainColls comm budget colls = scheduleCollTasksToPlan comm budget colls .empty := by
  rw [drainColls, if_neg (by simpa using some')]

/-- The group has tasks of one kind only; or the plan that holds its last collective has the
kernel of one of them and no send or recv gets into it. -/
def KindsApart (comm : Comm) (budget : Budget) (tasks : Tasks) : Prop :=
  tasks.colls = [] ∨ tasks.p2ps.nTasks = 0 ∨
    ∃ plan, DrainsTo comm budget tasks.colls plan ∧ plan.kernelSpecialized = true ∧
      (OnlyInPlace comm tasks.p2ps ∨
        testBudget budget (plan.nWorkBatches + comm.p2pnChannelsPerPeer)
          (plan.workBytes + devWorkSize .p2p) = false)

def Apart (plan : KernelPlan) : Prop :=
  (plan.callback = true → plan.collTasks = []) ∧ (plan.callback = false → plan.p2pTasks = [])

variable {comm : Comm} {budget : Budget}

variable {colls : List CollTask}

theorem DrainsTo.unique {p q : KernelPlan} (left : DrainsTo comm budget colls p)
    (right : DrainsTo comm budget colls q) : p = q := by
  induction left with
  | last some' done =>
    cases right with
    | last => rfl
    | more left rest => exact absurd done left
  | more left rest ih =>
    cases right with
    | last some' done => exact absurd done left
    | more left' rest' => exact ih rest'

variable {plan : KernelPlan}

theorem DrainsTo.rest_iff (left : (scheduleCollTasksToPlan comm budget colls .empty).2 ≠ []) :
    DrainsTo comm budget (scheduleCollTasksToPlan comm budget colls .empty).2 plan ↔
      DrainsTo comm budget colls plan := by
  constructor
  · exact DrainsTo.more left
  · intro hd
    cases hd with
    | last some' done => exact absurd done left
    | more _ rest => exact rest

theorem CollPlan.apart (h : CollPlan plan) (work : plan.workBytes ≠ 0) :
    Apart plan := by
  have some' : plan.collTasks ≠ [] := fun none' => work (h.blank none').2
  refine ⟨fun hc => ?_, fun _ => h.p2pTasks⟩
  rw [(h.kernel some').1] at hc
  cases hc

variable {queues : P2pQueues} {queues₀ : P2pQueues} {d : KernelPlan}

theorem CollPlan.some_of_specialized (h : CollPlan d) (hs : d.kernelSpecialized = true) : d.collTasks ≠ [] := by
  intro none'
  rw [(h.blank none').1] at hs
  cases hs

theorem callback_of_scheduled (h : CollPlan d) (s : Scheduled comm budget (p2pKernel d) queues₀ plan queues) :
    plan.callback = !d.kernelSpecialized := by
  unfold KernelPlan.callback
  rw [s.kernelFn]
  cases hs : d.kernelSpecialized with
  | false => simp [p2pKernel, hs]
  | true =>
    have kernel := (h.kernel (h.some_of_specialized hs)).1
    simpa [p2pKernel, hs, KernelPlan.callback] using kernel

theorem apart_of_scheduled (h : CollPlan d) (s : Scheduled comm budget (p2pKernel d) queues₀ plan queues) :
    Apart plan ↔ d.collTasks = [] ∨ d.kernelSpecialized = true ∧ plan.p2pTasks = [] := by
  have callback := callback_of_scheduled h s
  have tasks : plan.collTasks = d.collTasks := s.collTasks
  unfold Apart
  rw [callback, tasks]
  cases hs : d.kernelSpecialized with
  | false => simp
  | true => simp [h.some_of_specialized hs]

variable {tasks : Tasks}

theorem buildPlan_colls (early : (drainColls comm budget tasks.colls).2 ≠ [] ∨ tasks.p2ps.nTasks = 0) :
    buildPlan comm budget tasks = some ((drainColls comm budget tasks.colls).1,
      ⟨(drainColls comm budget tasks.colls).2, tasks.p2ps⟩) := by
  unfold buildPlan
  rw [if_neg]
  rintro ⟨drained, some'⟩
  rcases early with left | none'
  · exact left (isEmpty_iff.mp drained)
  · exact some' none'

theorem buildPlan_p2ps (valid : tasks.p2ps.Valid comm) (drained : (drainColls comm budget tasks.colls).2 = [])
    (some' : tasks.p2ps.nTasks ≠ 0) :
    ∃ plan queues, buildPlan comm budget tasks = some (plan, ⟨[], queues⟩) ∧
      P2pOutcome comm budget (drainColls comm budget tasks.colls).1 tasks.p2ps plan queues := by
  have blank := (drainColls_spec comm budget tasks.colls).1.p2pTasks
  obtain ⟨plan, queues, hr, outcome⟩ :=
    scheduleP2pTasksToPlan_outcome comm budget blank valid
  refine ⟨plan, queues, ?_, outcome⟩
  unfold buildPlan
  rw [if_pos ⟨by rw [drained]; rfl, some'⟩]
  rcases hr with next | full
  · rw [next, drained]
  · rw [full, drained]

structure Placed (comm : Comm) (tasks : Tasks) (plans : List KernelPlan) : Prop where
  colls : ∀ t ∈ tasks.colls, ∃ plan ∈ plans, t ∈ plan.collTasks
  p2ps : ∃ log after, Logged comm tasks.p2ps after (plans.flatMap KernelPlan.p2pTasks) log ∧
    ∀ side r, after.of side r = []

theorem Placed.mem_p2ps {plans : List KernelPlan} (placed : Placed comm tasks plans) (side : Proxy.Side) {r : Nat}
    (other : r ≠ comm.rank) {t : P2pTask} (queued : t ∈ tasks.p2ps.of side r) :
    ∃ plan ∈ plans, t ∈ plan.p2pTasks := by
  obtain ⟨_, _, hlo, he⟩ := placed.p2ps
  rcases hlo.mem_tasks other queued with hl | ht
  · rw [he] at hl
    cases hl
  · exact mem_flatMap.mp ht

theorem separated_iff {plans : List KernelPlan} (placed : Placed comm tasks plans) :
    Separated comm tasks plans ↔ ∀ plan ∈ plans, Apart plan := by
  constructor
  · intro h plan mem
    exact h.apart plan mem
  intro ha
  have callback : ∀ plan ∈ plans, ∀ t ∈ plan.p2pTasks, plan.callback = true := by
    intro plan mem t here
    cases kind : plan.callback with
    | true => rfl
    | false =>
      rw [(ha plan mem).2 kind] at here
      cases here
  refine ⟨?_, ?_, ?_, ha⟩
  · intro t mem
    obtain ⟨plan, ht, placedHere⟩ := placed.colls t mem
    refine ⟨plan, ht, placedHere, ?_⟩
    cases kind : plan.callback with
    | false => rfl
    | true =>
      rw [(ha plan ht).1 kind] at placedHere
      cases placedHere
  · intro r other t mem
    obtain ⟨plan, ht, placedHere⟩ := placed.mem_p2ps .send other mem
    exact ⟨plan, ht, placedHere, callback plan ht t placedHere⟩
  · intro r other t mem
    obtain ⟨plan, ht, placedHere⟩ := placed.mem_p2ps .recv other mem
    exact ⟨plan, ht, placedHere, callback plan ht t placedHere⟩

def Settles (comm : Comm) (budget : Budget) (tasks : Tasks) (new : List KernelPlan) : Prop :=
  Placed comm tasks new ∧ ((∀ plan ∈ new, Apart plan) ↔ KindsApart comm budget tasks)

theorem settles_nil (valid : tasks.p2ps.Valid comm) (noColl : tasks.colls = []) (noP2p : tasks.p2ps.nTasks = 0) :
    Settles comm budget tasks [] := by
  refine ⟨⟨by simp [noColl], [], tasks.p2ps, ⟨fun _ _ => rfl, rfl, nofun⟩, ?_⟩, by simp [KindsApart, noColl]⟩
  intro side r
  cases side with
  | send => exact (valid.empty noP2p r).1
  | recv => exact (valid.empty noP2p r).2

def queued (plan : KernelPlan) : List KernelPlan := if plan.workBytes ≠ 0 then [plan] else []

theorem mem_queued {p : KernelPlan} : p ∈ queued plan ↔ p = plan ∧ plan.workBytes ≠ 0 := by
  unfold queued
  split
  all_goals
    rename_i work
    simp [work]

theorem flatMap_queued (idle : plan.workBytes = 0 → plan.p2pTasks = []) :
    (queued plan).flatMap KernelPlan.p2pTasks = plan.p2pTasks := by
  unfold queued
  split
  · simp
  next work =>
    rw [idle (not_not.mp work), flatMap_nil]

variable {new : List KernelPlan}

theorem settles_coll (left : (drainColls comm budget tasks.colls).2 ≠ [] ∨ tasks.p2ps.nTasks = 0)
    (rest : Settles comm budget ⟨(drainColls comm budget tasks.colls).2, tasks.p2ps⟩ new) :
    Settles comm budget tasks (queued (drainColls comm budget tasks.colls).1 ++ new) := by
  obtain ⟨coll, split⟩ := drainColls_spec comm budget tasks.colls
  obtain ⟨hp, ha⟩ := rest
  refine ⟨⟨?_, ?_⟩, ?_⟩
  · intro t mem
    rw [split] at mem
    rcases mem_append.mp mem with here | hl
    · have some' : (drainColls comm budget tasks.colls).1.collTasks ≠ [] := ne_nil_of_mem here
      exact ⟨_, mem_append_left _ (mem_queued.mpr ⟨rfl, (coll.kernel some').2⟩), here⟩
    · obtain ⟨plan, ht, holds⟩ := hp.colls t hl
      exact ⟨plan, mem_append_right _ ht, holds⟩
  · rw [flatMap_append, flatMap_queued fun _ => coll.p2pTasks, coll.p2pTasks]
    exact hp.p2ps
  · have first : ∀ plan ∈ queued (drainColls comm budget tasks.colls).1, Apart plan := by
      intro plan mem
      obtain ⟨rfl, work⟩ := mem_queued.mp mem
      exact coll.apart work
    have rest_iff : KindsApart comm budget ⟨(drainColls comm budget tasks.colls).2, tasks.p2ps⟩ ↔
        KindsApart comm budget tasks := by
      rcases left with more | none'
      · have some' : tasks.colls ≠ [] := by
          intro none'
          rw [none'] at more
          exact more rfl
        rw [drainColls_eq some'] at more ⊢
        simp [KindsApart, more, some', DrainsTo.rest_iff more]
      · simp [KindsApart, none']
    rw [← rest_iff, ← ha, forall_mem_append, and_iff_right first]

theorem settles_p2p (drained : (drainColls comm budget tasks.colls).2 = []) (some' : tasks.p2ps.nTasks ≠ 0)
    (outcome : P2pOutcome comm budget (drainColls comm budget tasks.colls).1 tasks.p2ps plan queues)
    (rest : Settles comm budget ⟨[], queues⟩ new) :
    Settles comm budget tasks (queued plan ++ new) := by
  obtain ⟨coll, split⟩ := drainColls_spec comm budget tasks.colls
  rw [drained, append_nil] at split
  obtain ⟨hp, ha⟩ := rest
  have s := outcome.scheduled
  have collTasks : plan.collTasks = tasks.colls := s.collTasks.trans split.symm
  have bytes : (drainColls comm budget tasks.colls).1.workBytes ≤ plan.workBytes := s.workBytes
  have idle : plan.workBytes = 0 → plan.p2pTasks = [] := fun zero => not_not.mp fun some' => s.work some' zero
  have work : tasks.colls ≠ [] → plan.workBytes ≠ 0 := by
    intro colls
    have before := (coll.kernel (split ▸ colls)).2
    omega
  refine ⟨⟨?_, ?_⟩, ?_⟩
  · intro t mem
    refine ⟨plan, mem_append_left _ (mem_queued.mpr ⟨rfl, ?_⟩), collTasks ▸ mem⟩
    exact work (ne_nil_of_mem mem)
  · obtain ⟨log, hl⟩ := s.log
    obtain ⟨log', after, hla, he⟩ := hp.p2ps
    refine ⟨log ++ log', after, ?_, he⟩
    rw [flatMap_append, flatMap_queued idle]
    exact hl.trans hla
  · have tail : ∀ plan ∈ new, Apart plan := ha.mpr (.inl rfl)
    have first : (∀ p ∈ queued plan ++ new, Apart p) ↔ (plan.workBytes ≠ 0 → Apart plan) := by
      rw [forall_mem_append, and_iff_left tail]
      simp [mem_queued]
    rw [first, apart_of_scheduled coll s, outcome.nothing, ← split]
    by_cases colls : tasks.colls = []
    · simp [KindsApart, colls]
    have drains : DrainsTo comm budget tasks.colls (drainColls comm budget tasks.colls).1 := by
      rw [drainColls_eq colls] at drained ⊢
      exact .last colls drained
    simp only [work colls, ne_eq, not_false_eq_true, true_imp_iff, colls, false_or, KindsApart,
      some']
    constructor
    · intro hs
      exact ⟨_, drains, hs.1, hs.2⟩
    · rintro ⟨_, hd', hs⟩
      obtain rfl := drains.unique hd'
      exact hs

theorem prepareLoop_settles (fuel : Nat) {queue out : List KernelPlan} (valid : tasks.p2ps.Valid comm)
    (ran : prepareLoop comm budget fuel tasks queue = .plans out) :
    ∃ new, out = queue ++ new ∧ Settles comm budget tasks new := by
  induction fuel generalizing tasks queue with
  | zero => cases ran
  | succ fuel ih =>
    -- what is left after the plan, whether the loop ends here or goes on
    have after : ∀ (plan : KernelPlan) (rest : Tasks), rest.p2ps.Valid comm →
        buildPlan comm budget tasks = some (plan, rest) →
        ∃ new, out = queue ++ queued plan ++ new ∧ Settles comm budget rest new := by
      intro plan rest hv' hb
      have append : (if plan.workBytes ≠ 0 then queue ++ [plan] else queue) =
          queue ++ queued plan := by
        unfold queued
        split <;> simp
      simp only [prepareLoop, hb, append] at ran
      split at ran
      next finished =>
        simp only [Prepared.plans.injEq] at ran
        exact ⟨[], by simp [ran], settles_nil hv' (isEmpty_iff.mp finished.1) finished.2⟩
      · exact ih hv' ran
    by_cases he : (drainColls comm budget tasks.colls).2 ≠ [] ∨ tasks.p2ps.nTasks = 0
    · obtain ⟨new, rfl, hs⟩ :=
        after _ ⟨(drainColls comm budget tasks.colls).2, tasks.p2ps⟩ valid (buildPlan_colls he)
      exact ⟨_, append_assoc _ _ _, settles_coll he hs⟩
    · rw [not_or, not_not] at he
      obtain ⟨plan, _, hb, outcome⟩ := buildPlan_p2ps valid he.1 he.2
      obtain ⟨new, rfl, hs⟩ := after plan _ outcome.valid hb
      exact ⟨_, append_assoc _ _ _, settles_p2p he.1 he.2 outcome hs⟩

/-- What `ncclPrepareTasks` leaves in a task: empty collectives are discarded, and a task has
channels of its kind. -/
structure CollTask.Valid (comm : Comm) (task : CollTask) : Prop where
  count : 0 < task.count
  elementSize : 0 < task.elementSize
  trafficPerByte : 0 < task.trafficPerByte
  channels : task.nMaxChannels ≤ maxChannels
  nvls : task.isNvls = true → 0 < comm.nvlsChannels

structure Tasks.Valid (comm : Comm) (tasks : Tasks) : Prop where
  colls : ∀ t ∈ tasks.colls, t.Valid comm
  p2ps : tasks.p2ps.Valid comm

/-- An empty plan has room for any one task, as it has with the default sizes. -/
def Comm.Roomy (comm : Comm) (persistent : Bool) : Prop :=
  testBudget (planBudget comm persistent) maxChannels (devWorkSize .collReg) = true

theorem testBudget_iff {n w : Nat} : testBudget budget n w = true ↔
    ((n : Int) * 16 + w ≤ budget.inArgsBytes ∨
      (n : Int) * 16 ≤ budget.inArgsBytes ∧ (w : Int) ≤ budget.outArgsBytes) := by
  simp only [testBudget, Bool.or_eq_true, Bool.and_eq_true, decide_eq_true_eq]
  rfl

theorem testBudget_mono {n n' w w' : Nat} (batches : n ≤ n') (work : w ≤ w')
    (fits : testBudget budget n' w' = true) : testBudget budget n w = true := by
  rw [testBudget_iff] at fits ⊢
  omega

theorem devWorkSize_le (workType : WorkType) : devWorkSize workType ≤ devWorkSize .collReg := by
  cases workType <;> decide

theorem estimate_grows (tasks : List CollTask) (est : Estimate) :
    est.nPlanColls ≤ (estimate comm budget tasks est).nPlanColls := by
  induction tasks generalizing est with
  | nil => exact le_rfl
  | cons task rest ih =>
    simp only [estimate]
    split
    · refine Nat.le_trans ?_ (ih _)
      simp
    · exact le_rfl

variable {task : CollTask} {persistent : Bool}

theorem scheduleColl_first (roomy : comm.Roomy persistent) (valid : task.Valid comm) (est : Estimate) :
    scheduleColl comm (planBudget comm persistent) est .empty .start task ≠ none := by
  have limits := comm.channelLimit
  have fits : ∀ n ≤ maxChannels, testBudget (planBudget comm persistent)
      (KernelPlan.empty.nWorkBatches + n) (KernelPlan.empty.workBytes + devWorkSize task.workType) =
      true := by
    intro n few
    refine testBudget_mono ?_ ?_ roomy
    · simpa [KernelPlan.empty] using few
    · simpa [KernelPlan.empty] using devWorkSize_le task.workType
  unfold scheduleColl
  split
  · rw [if_pos (fits _ valid.channels)]
    simp
  have channels : maxChannelsOf comm task.kind ≤ maxChannels := by
    unfold maxChannelsOf
    split
    · exact limits.2.1
    · exact limits.1
  have sized := CollTask.sized valid.count valid.elementSize valid.trafficPerByte
  have few := splitCells_fits sized (turn_ok est valid.nvls (nofun : Cursor.start.Follows comm)).1
  rw [if_pos (fits _ (few.trans channels))]
  simp

theorem drainColls_progress (roomy : comm.Roomy persistent) (valid : ∀ t ∈ colls, t.Valid comm) (some' : colls ≠ []) :
    (drainColls comm (planBudget comm persistent) colls).2.length < colls.length := by
  cases colls with
  | nil => exact absurd rfl some'
  | cons task rest =>
    have split := (scheduleCollTasksToPlan_spec comm (planBudget comm persistent) (task :: rest)).2
    have placed : (scheduleCollTasksToPlan comm (planBudget comm persistent) (task :: rest)
        .empty).1.collTasks ≠ [] := by
      have first : 0 < (planEstimate comm (planBudget comm persistent) (task :: rest)).nPlanColls := by
        have fits : testBudget (planBudget comm persistent) (divUp 0 4)
            (0 + devWorkSize task.workType) = true :=
          testBudget_mono (Nat.zero_le _) (by simpa using devWorkSize_le task.workType) roomy
        simp only [planEstimate, estimate, fits]
        refine Nat.lt_of_lt_of_le ?_ (estimate_grows rest _)
        simp
      unfold scheduleCollTasksToPlan
      simp only
      cases hc : (planEstimate comm (planBudget comm persistent) (task :: rest)).nPlanColls with
      | zero => omega
      | succ n =>
        simp only [scheduleColls]
        cases step : scheduleColl comm (planBudget comm persistent)
            (planEstimate comm (planBudget comm persistent) (task :: rest)) .empty .start task with
        | none => exact absurd step (scheduleColl_first roomy (valid task (by simp)) _)
        | some next =>
          apply scheduleColls_induct (P := fun plan _ => plan.collTasks ≠ [])
          · intro plan cur task rest next _ taken
            simp [(scheduleColl_places taken).collTasks]
          · simp [(scheduleColl_places step).collTasks]
    have lengths := congrArg length split
    rw [length_append] at lengths
    have more := length_pos_iff.mpr placed
    change (scheduleCollTasksToPlan comm (planBudget comm persistent) (task :: rest)
      .empty).2.length < (task :: rest).length
    omega

theorem fitsPair_empty (roomy : comm.Roomy persistent) :
    fitsPair comm (planBudget comm persistent) .empty = true := by
  refine testBudget_mono ?_ ?_ roomy
  · simpa [KernelPlan.empty] using comm.channelLimit.2.2
  · simpa [KernelPlan.empty] using devWorkSize_le .p2p

theorem prepareLoop_ends {good : CollTask → Prop} (pair : fitsPair comm budget .empty = true)
    (progress : ∀ colls, (∀ t ∈ colls, good t) → colls ≠ [] → (drainColls comm budget colls).2.length < colls.length)
    (fuel : Nat) (queue : List KernelPlan) (colls : ∀ t ∈ tasks.colls, good t) (valid : tasks.p2ps.Valid comm)
    (enough : tasks.colls.length + tasks.p2ps.nTasks < fuel) :
    ∃ plans, prepareLoop comm budget fuel tasks queue = .plans plans := by
  induction fuel generalizing tasks queue with
  | zero => omega
  | succ fuel ih =>
    -- a plan that leaves fewer tasks, all of them valid, or none
    have after : ∀ (plan : KernelPlan) (rest : Tasks), (∀ t ∈ rest.colls, good t) → rest.p2ps.Valid comm →
        (rest.colls ≠ [] ∨ rest.p2ps.nTasks ≠ 0 →
          rest.colls.length + rest.p2ps.nTasks < tasks.colls.length + tasks.p2ps.nTasks) →
        buildPlan comm budget tasks = some (plan, rest) →
        ∃ plans, prepareLoop comm budget (fuel + 1) tasks queue = .plans plans := by
      intro plan rest colls' hv' hf hb
      simp only [prepareLoop, hb]
      split
      · exact ⟨_, rfl⟩
      next hu =>
        rw [List.isEmpty_iff, not_and_or] at hu
        have := hf hu
        exact ih _ colls' hv' (by omega)
    have split := (drainColls_spec comm budget tasks.colls).2
    by_cases he : (drainColls comm budget tasks.colls).2 ≠ [] ∨ tasks.p2ps.nTasks = 0
    · refine after _ ⟨(drainColls comm budget tasks.colls).2, tasks.p2ps⟩ ?_ valid ?_ (buildPlan_colls he)
      · intro t mem
        rw [split] at colls
        exact colls t (mem_append_right _ mem)
      intro hu
      refine Nat.add_lt_add_right (progress _ colls ?_) _
      intro none'
      rw [none'] at he hu
      rcases he with more | hn
      · exact more rfl
      · simp [drainColls, hn] at hu
    · rw [not_or, not_not] at he
      obtain ⟨plan, queues, hb, outcome⟩ := buildPlan_p2ps valid he.1 he.2
      refine after plan ⟨[], queues⟩ (by simp) outcome.valid ?_ hb
      intro _
      have bound := outcome.bound
      by_cases none' : tasks.colls = []
      · have progress := outcome.progress (by rw [none']; exact pair) he.2
        simp only [length_nil]
        omega
      · have more := length_pos_iff.mpr none'
        simp only [length_nil]
        omega

theorem plans_separated_iff (comm : Comm) (persistent : Bool) (tasks : Tasks)
    (valid : tasks.Valid comm) :
    (comm.Roomy persistent →
      ∃ fuel plans, launchPrepare comm persistent tasks fuel = .plans plans) ∧
    ∀ fuel plans, launchPrepare comm persistent tasks fuel = .plans plans →
      (Separated comm tasks plans ↔ KindsApart comm (planBudget comm persistent) tasks) := by
  constructor
  · intro hr
    by_cases none' : tasks.colls.isEmpty ∧ tasks.p2ps.nTasks = 0
    · exact ⟨0, [], by rw [launchPrepare, if_pos none']⟩
    · refine ⟨tasks.colls.length + tasks.p2ps.nTasks + 1, ?_⟩
      rw [launchPrepare, if_neg none']
      exact prepareLoop_ends (fitsPair_empty hr) (fun _ => drainColls_progress hr) _ [] valid.colls
        valid.p2ps (Nat.lt_succ_self _)
  · intro fuel plans ran
    unfold launchPrepare at ran
    split at ran
    next none' =>
      simp only [Prepared.plans.injEq] at ran
      subst ran
      have settles : Settles comm (planBudget comm persistent) tasks [] :=
        settles_nil valid.p2ps (isEmpty_iff.mp none'.1) none'.2
      rw [separated_iff settles.1, settles.2]
    · obtain ⟨_, rfl, hp, ha⟩ := prepareLoop_settles fuel valid.p2ps ran
      rw [separated_iff hp, ha]

def pairComm : Comm where
  rank := 0
  nRanks := 2
  channels := fun _ => ⟨1, 1, id, -1, [], -1, -1, -1, -1, -1, -1⟩
  connector := fun _ _ _ connIndex =>
    if connIndex = 1 then ⟨.psmNet, true, 0, true⟩ else ⟨.net, false, 0, true⟩
  patSteps := fun _ => []
  profilerPluginLoaded := false
  psmIndex := by
    intro _ _ _ i psm
    by_contra other
    simp [other, Proxy.Transport.isPsm] at psm
  sharedTransport := by
    intro _ _ _ i shared
    by_cases first : i = 1 <;> simp [first] at shared ⊢
  nNodes := 2
  maxLocalRanks := 1
  nChannels := 1
  nvlsChannels := 0
  p2pnChannels := 1
  p2pnChannelsPerPeer := 1
  p2pSchedule := [(0, 0), (1, 1)]
  workArgsBytes := 4096
  workFifoBytes := 2 ^ 20
  calcCollChunking := fun _ _ _ => ⟨0, 0, .ring, 0, 4096, 1, 1, .simple, false, false, false, false⟩
  coversSend := by decide
  coversRecv := by decide
  selfRound := by decide
  someChannel := Nat.one_pos
  channelLimit := by decide

def smallSend : P2pTask where
  buff := 1
  direction := ⟨.simple, 4096, 112, false, false, 1⟩
  kernelCh := false
  chunked := by decide

def ringAllReduce : CollTask where
  fn := .reduce .allReduce .sum .f32 .ring .simple
  protocol := .simple
  count := 1024
  elementSize := 4
  trafficPerByte := 2
  trafficBytes := 8192
  nMaxChannels := 1
  isCollnet := false
  isNvls := false
  workType := .coll
  kernelCh := false
  isColl := by decide
  collWork := by decide

def oneSend : P2pQueues where
  send := fun r => if r = 1 then [smallSend] else []
  recv := fun _ => []
  nTasks := 1

theorem oneSend_valid : oneSend.Valid pairComm := by
  refine ⟨by decide, ?_, rfl⟩
  intro r far
  have other : r ≠ 1 := by
    have ranks : pairComm.nRanks = 2 := rfl
    omega
  simp [oneSend, other]

theorem send_group_separated :
    ∃ fuel plans, launchPrepare pairComm false ⟨[], oneSend⟩ fuel = .plans plans ∧
      Separated pairComm ⟨[], oneSend⟩ plans := by
  have both := plans_separated_iff pairComm false ⟨[], oneSend⟩ ⟨by simp, oneSend_valid⟩
  obtain ⟨fuel, plans, ran⟩ := both.1 (by rw [Comm.Roomy]; decide)
  exact ⟨fuel, plans, ran, (both.2 fuel plans ran).mpr (.inl rfl)⟩

/-- An all-reduce and a send in one group: both end up in one plan, whose kernel is replaced by
the callback. -/
theorem mixed_group_not_separated :
    ∃ plans, launchPrepare pairComm false ⟨[ringAllReduce], oneSend⟩ 1 = .plans plans ∧
      ¬ Separated pairComm ⟨[ringAllReduce], oneSend⟩ plans := by
  have mixes : (match launchPrepare pairComm false ⟨[ringAllReduce], oneSend⟩ 1 with
      | .plans plans => plans.any fun plan => plan.callback && !plan.collTasks.isEmpty
      | _ => false) = true := by decide +kernel
  cases ran : launchPrepare pairComm false ⟨[ringAllReduce], oneSend⟩ 1 with
  | running => simp [ran] at mixes
  | invalidUsage => simp [ran] at mixes
  | plans plans =>
    refine ⟨plans, rfl, fun hs => ?_⟩
    simp only [ran, any_eq_true, Bool.and_eq_true] at mixes
    obtain ⟨plan, mem, hc, colls⟩ := mixes
    rw [(hs.apart plan mem).1 hc] at colls
    cases colls

end Vccl.Plan
