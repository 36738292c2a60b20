import Vccl.Plan.Separation

/-! The continuous byte distribution of a collective over channels: what the host puts into the work
struct and the proxy ops, and what `ncclCollCbdPart` reads from it on the device. -/
namespace Vccl.Plan

open List
open Proxy (ProxyOp)

def funcTrafficPerByte (fn : DevFunc) (nRanks : Nat) : Nat :=
  match fn with
  | .reduce .allReduce _ _ _ _ => 2
  | .gather .allGather _ _ => nRanks
  | .reduce .reduceScatter _ _ _ _ => nRanks
  | _ => 1

/-- A task as `taskAppend` makes it: collectives without elements are dropped there, and tasks on
NVLS channels need some. -/
structure CollTask.Prepared (comm : Comm) (task : CollTask) : Prop where
  count : 0 < task.count
  elementSize : task.elementSize ∈ [1, 2, 4, 8]
  traffic : task.trafficPerByte = funcTrafficPerByte task.fn comm.nRanks
  nvls : task.isNvls = true → 0 < comm.nvlsChannels

structure DevWorkColl where
  channelLo : Nat
  channelHi : Nat
  countLo : Nat
  countMid : Nat
  countHi : Nat
  deriving DecidableEq

def CollSplit.devWork (split : CollSplit) : DevWorkColl :=
  ⟨split.channelLo, split.channelLo + split.nChannels - 1, split.countLo, split.countMid, split.countHi⟩

structure CbdPart where
  partOffset : Nat
  partCount : Nat
  deriving DecidableEq

def collCbdPart (work : DevWorkColl) (channelId : Nat) : CbdPart :=
  let nMidChannels := work.channelHi - work.channelLo - 1
  if channelId = work.channelLo then ⟨0, work.countLo⟩
  else if channelId = work.channelHi then ⟨work.countLo + nMidChannels * work.countMid, work.countHi⟩
  else ⟨work.countLo + (channelId - work.channelLo - 1) * work.countMid, work.countMid⟩

/-- The `count` that `ncclCollCbdPart` returns; there are -1 channels in the middle of one. -/
def collCbdCount (work : DevWorkColl) : Int :=
  work.countLo + work.countMid * ((work.channelHi : Int) - work.channelLo - 1) + work.countHi

structure CollOp extends ProxyOp where
  loopOffset : Nat
  channelSize : Nat

def splitOp (comm : Comm) (task : CollTask) (plan : KernelPlan) (split : CollSplit) (c : Nat) : CollOp where
  toProxyOp := collProxyOp task plan c (splitProxyOp comm task split c)
  loopOffset :=
    if c = split.channelLo then 0
    else if c = split.channelLo + split.nChannels - 1 then
      (split.countLo + split.nMid * split.countMid) * task.elementSize
    else (split.countLo + (c - split.channelLo - 1) * split.countMid) * task.elementSize
  channelSize :=
    if c = split.channelLo then split.countLo * task.elementSize
    else if c = split.channelLo + split.nChannels - 1 then split.countHi * task.elementSize
    else split.countMid * task.elementSize

variable {comm : Comm} {task : CollTask} {cur : Cursor} {nMax : Nat}

structure CollSplit.Ok (nMax : Nat) (task : CollTask) (split : CollSplit) : Prop where
  lo : 0 < split.countLo
  mid : split.nMid ≠ 0 → 0 < split.countMid
  shape : split.nChannels = 1 ∧ split.nMid = 0 ∧ split.countHi = 0 ∨
    split.nChannels = split.nMid + 2 ∧ 0 < split.countHi
  sum : split.countLo + split.nMid * split.countMid + split.countHi = task.count
  none : split.nMid = 0 → split.countMid = 0
  inside : split.channelLo + split.nChannels ≤ nMax

section Prepared

variable (h : task.Prepared comm)
include h

theorem CollTask.Prepared.elements :
    0 < task.elementSize ∧ task.elementsPerCell * task.elementSize = task.cellSize := by
  have divides : task.elementSize ∣ 16 := by
    have sizes := h.elementSize
    simp only [mem_cons, not_mem_nil, or_false] at sizes
    rcases sizes with size | size | size | size <;> rw [size] <;> decide
  exact ⟨Nat.pos_of_dvd_of_pos divides (by decide), Nat.div_mul_cancel (divides.mul_left _)⟩

variable (ranks : 0 < comm.nRanks)
include ranks

theorem CollTask.Prepared.sized : task.Sized := by
  refine CollTask.sized h.count h.elements.1 ?_
  rw [h.traffic]
  unfold funcTrafficPerByte
  split <;> omega

theorem CollTask.Prepared.cells_count :
    task.count ≤ task.cells * task.elementsPerCell ∧
      task.cells * task.elementsPerCell - task.count < task.elementsPerCell := by
  have size := (h.sized ranks).cellSize
  obtain ⟨he, hw⟩ := h.elements
  obtain ⟨hl, most⟩ := divUp_bounds (task.count * task.elementSize) size
  have bytes : task.cells * task.elementsPerCell * task.elementSize = task.cells * task.cellSize := by
    rw [Nat.mul_assoc, hw]
  have covers : task.count ≤ task.cells * task.elementsPerCell := by
    refine Nat.le_of_mul_le_mul_right ?_ he
    rw [bytes]
    exact hl
  refine ⟨covers, ?_⟩
  refine Nat.lt_of_mul_lt_mul_right (a := task.elementSize) ?_
  rw [Nat.sub_mul]
  have : task.cells * task.cellSize < task.count * task.elementSize + task.cellSize := most
  omega

theorem countCells_ok {cells : Cells}
    (ok : cells.Ok nMax task.cells) : (countCells task cells).Ok nMax task := by
  obtain ⟨_, _⟩ := h.cells_count ranks
  have perCell : 0 < task.elementsPerCell := by omega
  have low : task.elementsPerCell ≤ cells.lo * task.elementsPerCell := Nat.le_mul_of_pos_left _ ok.lo
  have total : cells.lo * task.elementsPerCell + cells.nMid * (cells.perChannel * task.elementsPerCell) +
      cells.hi * task.elementsPerCell = task.cells * task.elementsPerCell := by
    rw [← ok.sum]
    ring
  have inside := ok.inside
  have lo := ok.lo
  by_cases hi : cells.hi = 0
  · have nMid : cells.nMid = 0 := by
      by_contra some'
      exact (ok.mid some').2.ne' hi
    have count : 0 < cells.lo * task.elementsPerCell -
        (task.cells * task.elementsPerCell - task.count) := by omega
    simp only [Cells.nChannels, hi, nMid] at inside
    refine ⟨?_, ?_, ?_, ?_, ?_, ?_⟩
    all_goals simp only [countCells, hi, nMid, Nat.zero_mul, ne_eq, not_true, if_false, count.ne', not_false_eq_true,
      if_true]
    · exact count
    · exact fun ha' => ha'.elim
    · exact Or.inl ⟨trivial, trivial, trivial⟩
    · rw [hi, nMid] at total
      omega
    · exact fun _ => trivial
    · simpa [lo.ne'] using inside
  · have high : task.elementsPerCell ≤ cells.hi * task.elementsPerCell :=
      Nat.le_mul_of_pos_left _ (Nat.pos_of_ne_zero hi)
    have nonzero : cells.hi * task.elementsPerCell ≠ 0 := by omega
    have nonzero' : cells.lo * task.elementsPerCell ≠ 0 := by omega
    simp only [Cells.nChannels, lo.ne', hi, ne_eq, not_false_eq_true, if_true] at inside
    refine ⟨?_, ?_, ?_, ?_, ?_, ?_⟩
    all_goals simp only [countCells, hi, ne_eq, nonzero, nonzero', not_false_eq_true, if_true, Nat.sub_zero]
    · omega
    · intro nMid
      rw [if_pos nMid]
      exact Nat.mul_pos (ok.mid nMid).1 perCell
    · right
      omega
    · by_cases nMid : cells.nMid = 0
      · rw [nMid] at total ⊢
        omega
      · rw [if_pos nMid]
        omega
    · intro nMid
      simp [nMid]
    · omega

end Prepared

variable {split : CollSplit}

theorem advanceCursor_ok {cells : Cells} (ok : cur.Ok nMax) (count : split.Ok nMax task)
    (same : split.channelLo = cells.channelId ∧ split.nMid = cells.nMid) :
    (advanceCursor nMax cur task cells split).Ok nMax := by
  have inside := count.inside
  have settle : ∀ next : Cursor, next.channelId < nMax → 0 < next.trafficPerChannel →
      Cursor.Ok nMax (if next.trafficPerChannel ≤ next.currentTraffic ∧ next.channelId + 1 ≠ nMax then
        { next with channelId := next.channelId + 1, currentTraffic := 0 } else next) := by
    intro next here positive
    split
    next hm =>
      exact ⟨by simp only; omega, fun _ => positive, positive⟩
    next hs =>
      exact ⟨here, fun hno => by by_contra full; exact hs ⟨by omega, hno⟩, positive⟩
  refine settle _ ?_ ?_
  · rcases count.shape with ⟨hn, nMid, hi⟩ | ⟨hn, hi⟩
    · rw [same.2] at nMid
      simp only [hi, ne_eq, not_true, if_false, nMid]
      omega
    · simp only [hi.ne', ne_eq, not_false_eq_true, if_true]
      omega
  · have positive := ok.positive
    split
    · exact positive
    · split
      all_goals exact positive

structure Partition (parts : List CbdPart) (count : Nat) : Prop where
  nonempty : ∀ part ∈ parts, 0 < part.partCount
  covers : (parts.flatMap fun part => range' part.partOffset part.partCount) = range count

theorem flatMap_equal_parts (start width n : Nat) :
    ((range n).flatMap fun k => range' (start + k * width) width) = range' start (n * width) := by
  induction n with
  | zero => simp
  | succ n ih =>
    rw [range_succ, flatMap_append, ih, flatMap_singleton, Nat.succ_mul]
    exact range'_append_1

theorem CollSplit.Ok.partition (ok : split.Ok nMax task) :
    Partition ((range' split.channelLo split.nChannels).map (collCbdPart split.devWork)) task.count := by
  have first : collCbdPart split.devWork split.channelLo = ⟨0, split.countLo⟩ := by
    simp [collCbdPart, CollSplit.devWork]
  rcases ok.shape with ⟨nChannels, nMid, hi⟩ | ⟨nChannels, hi⟩
  · have sum := ok.sum
    rw [nMid] at sum
    rw [nChannels]
    constructor
    · simp [first, ok.lo]
    · have whole : split.countLo = task.count := by omega
      simp [first, whole, range_eq_range']
  · have last : collCbdPart split.devWork (split.channelLo + 1 + split.nMid) =
        ⟨split.countLo + split.nMid * split.countMid, split.countHi⟩ := by
      have differs : split.channelLo + 1 + split.nMid ≠ split.channelLo := by omega
      have isLast : split.channelLo + 1 + split.nMid = split.channelLo + split.nChannels - 1 := by omega
      have middle : split.channelLo + split.nChannels - 1 - split.channelLo - 1 = split.nMid := by omega
      simp only [collCbdPart, CollSplit.devWork, if_neg differs, if_pos isLast, middle]
    have mids : ∀ k < split.nMid, collCbdPart split.devWork (split.channelLo + 1 + k) =
        ⟨split.countLo + k * split.countMid, split.countMid⟩ := by
      intro k hb
      have differs : split.channelLo + 1 + k ≠ split.channelLo := by omega
      have notLast : split.channelLo + 1 + k ≠ split.channelLo + split.nChannels - 1 := by omega
      have offset : split.channelLo + 1 + k - split.channelLo - 1 = k := by omega
      simp only [collCbdPart, CollSplit.devWork, if_neg differs, if_neg notLast, offset]
    have middle : (range' (split.channelLo + 1) split.nMid).map (collCbdPart split.devWork) =
        (range split.nMid).map fun k => ⟨split.countLo + k * split.countMid, split.countMid⟩ := by
      rw [range'_eq_map_range, map_map]
      exact map_congr_left fun k mem => mids k (mem_range.mp mem)
    rw [nChannels, range'_succ, range'_1_concat, map_cons, map_append, map_singleton, first, middle, last]
    constructor
    · intro part mem
      simp only [mem_cons, mem_append, mem_map, mem_range, not_mem_nil, or_false] at mem
      rcases mem with rfl | ⟨k, hb, rfl⟩ | rfl
      · exact ok.lo
      · exact ok.mid (by omega)
      · exact hi
    · rw [flatMap_cons, flatMap_append, flatMap_map, flatMap_equal_parts, range_eq_range', ← append_assoc]
      have join : range' 0 split.countLo ++ range' split.countLo (split.nMid * split.countMid) =
          range' 0 (split.countLo + split.nMid * split.countMid) := by
        simpa using range'_append_1 (s := 0) (m := split.countLo) (n := split.nMid * split.countMid)
      rw [join, ← ok.sum]
      simpa using range'_append_1 (s := 0) (m := split.countLo + split.nMid * split.countMid) (n := split.countHi)

structure CollWork where
  task : CollTask
  work : DevWorkColl
  ops : List CollOp

def scheduledWorks (comm : Comm) (budget : Budget) (est : Estimate) :
    Nat → List CollTask → KernelPlan → Cursor → List CollWork
  | _, [], _, _ => []
  | 0, _, _, _ => []
  | nPlanColls + 1, task :: rest, plan, cur =>
    match scheduleColl comm budget est plan cur task with
    | none => []
    | some (plan', cur') =>
      let later := scheduledWorks comm budget est nPlanColls rest plan' cur'
      if task.isCollnet then later
      else
        let nMax := maxChannelsOf comm task.kind
        let split := countCells task (splitCells nMax (cur.turn est task.kind) task)
        ⟨task, split.devWork,
          (range' split.channelLo split.nChannels).map (splitOp comm task plan split)⟩ :: later

variable {budget : Budget} {est : Estimate} {cur' : Cursor}

theorem scheduledWorks_tasks (comm : Comm) (budget : Budget) (est : Estimate) (n : Nat) (tasks : List CollTask)
    (plan : KernelPlan) (cur : Cursor) :
    (scheduleColls comm budget est n tasks plan cur).1.collTasks.filter (!·.isCollnet) =
      plan.collTasks.filter (!·.isCollnet) ++
        (scheduledWorks comm budget est n tasks plan cur).map CollWork.task := by
  induction tasks generalizing n plan cur with
  | nil => cases n <;> simp [scheduleColls, scheduledWorks]
  | cons task rest ih =>
    cases n with
    | zero => simp [scheduleColls, scheduledWorks]
    | succ n =>
      rw [scheduleColls, scheduledWorks]
      cases hp : scheduleColl comm budget est plan cur task with
      | none => simp
      | some next =>
        obtain ⟨_, _⟩ := next
        have tasks := (scheduleColl_places hp).collTasks
        simp only [ih, tasks]
        cases hc : task.isCollnet <;> simp [hc]

theorem advanceCursor_kindPrev (nMax : Nat) (cur : Cursor) (task : CollTask) (cells : Cells) (split : CollSplit) :
    (advanceCursor nMax cur task cells split).kindPrev = cur.kindPrev := by
  unfold advanceCursor
  simp only
  split <;> split <;> (try rfl) <;> split <;> rfl

/-- What the parts of an accepted task are: inside the channels of its kind, a partition of its
elements, and the same on the device and in the proxy ops. -/
structure CollWork.Exact (comm : Comm) (sch : CollWork) : Prop where
  channels : sch.work.channelLo ≤ sch.work.channelHi ∧ sch.work.channelHi < maxChannelsOf comm sch.task.kind
  count : collCbdCount sch.work = sch.task.count
  partition : Partition ((range' sch.work.channelLo (sch.work.channelHi + 1 - sch.work.channelLo)).map
    (collCbdPart sch.work)) sch.task.count
  ops : sch.ops.map (fun op => (op.channelId, op.loopOffset, op.channelSize)) =
    (range' sch.work.channelLo (sch.work.channelHi + 1 - sch.work.channelLo)).map fun c =>
      (c, (collCbdPart sch.work c).partOffset * sch.task.elementSize,
        (collCbdPart sch.work c).partCount * sch.task.elementSize)

theorem CollSplit.Ok.exact (plan : KernelPlan) (ok : split.Ok (maxChannelsOf comm task.kind) task) :
    CollWork.Exact comm ⟨task, split.devWork,
      (range' split.channelLo split.nChannels).map (splitOp comm task plan split)⟩ := by
  have inside := ok.inside
  have some' : 0 < split.nChannels := by
    rcases ok.shape with hs | hs <;> omega
  have number : split.devWork.channelHi + 1 - split.devWork.channelLo = split.nChannels := by
    simp only [CollSplit.devWork]
    omega
  have hi : split.devWork.channelHi = split.channelLo + split.nChannels - 1 := rfl
  refine ⟨?_, ?_, ?_, ?_⟩
  · simp only [hi]
    omega
  · have sum := ok.sum
    simp only [collCbdCount, CollSplit.devWork]
    rcases ok.shape with ⟨nChannels, nMid, hi⟩ | ⟨nChannels, -⟩
    · have whole : split.countLo = task.count := by
        rw [nMid] at sum
        omega
      rw [ok.none nMid, hi, whole]
      simp
    · have middle : ((split.channelLo + split.nChannels - 1 : Nat) : Int) - split.channelLo - 1 = split.nMid := by
        omega
      rw [middle, ← sum]
      push_cast
      ring
  · rw [number]
    exact ok.partition
  · rw [number, map_map]
    refine map_congr_left fun c _ => ?_
    have nMid : c = split.channelLo + split.nChannels - 1 → c ≠ split.channelLo →
        split.channelLo + split.nChannels - 1 - split.channelLo - 1 = split.nMid := by
      rcases ok.shape with hs | hs <;> omega
    simp only [Function.comp_apply, splitOp, collProxyOp, collCbdPart, CollSplit.devWork]
    by_cases first : c = split.channelLo
    · simp [first]
    · by_cases last : c = split.channelLo + split.nChannels - 1
      · simp [first, if_pos last, nMid last first]
      · simp [first, last]

theorem scheduleColl_follows {plan plan' : KernelPlan} (h : task.Prepared comm) (ranks : 0 < comm.nRanks)
    (follows : cur.Follows comm) (placed : scheduleColl comm budget est plan cur task = some (plan', cur')) :
    cur'.Follows comm := by
  obtain ⟨ok, kind⟩ := turn_ok est h.nvls follows
  simp only [scheduleColl] at placed
  split at placed
  · split at placed
    · obtain ⟨-, rfl⟩ := placed
      intro kind' same
      rw [kind] at same
      obtain rfl := Option.some.inj same
      exact ok
    · contradiction
  · split at placed
    · simp only [Option.some.injEq, Prod.mk.injEq] at placed
      obtain ⟨-, rfl⟩ := placed
      intro kind' same
      rw [advanceCursor_kindPrev, kind] at same
      obtain rfl := Option.some.inj same
      exact advanceCursor_ok ok (countCells_ok h ranks (splitCells_ok (h.sized ranks) ok)) ⟨rfl, rfl⟩
    · contradiction

theorem scheduledWorks_exact (ranks : 0 < comm.nRanks) (budget : Budget) (est : Estimate) (n : Nat)
    (tasks : List CollTask) (valid : ∀ task ∈ tasks, task.Prepared comm) (plan : KernelPlan)
    (follows : cur.Follows comm) :
    ∀ sch ∈ scheduledWorks comm budget est n tasks plan cur, sch.Exact comm := by
  induction tasks generalizing n plan cur with
  | nil => cases n <;> simp [scheduledWorks]
  | cons task rest ih =>
    cases n with
    | zero => simp [scheduledWorks]
    | succ n =>
      rw [scheduledWorks]
      have h := valid task mem_cons_self
      cases hp : scheduleColl comm budget est plan cur task with
      | none => simp
      | some next =>
        obtain ⟨plan', _⟩ := next
        have later := ih n (fun task mem => valid task (mem_cons_of_mem _ mem)) plan'
          (scheduleColl_follows h ranks follows hp)
        simp only
        split
        · exact later
        · refine forall_mem_cons.mpr ⟨?_, later⟩
          have ok := (turn_ok est h.nvls follows).1
          exact (countCells_ok h ranks (splitCells_ok (h.sized ranks) ok)).exact plan

def collWorks (comm : Comm) (budget : Budget) (tasks : List CollTask) (plan : KernelPlan) : List CollWork :=
  let est := planEstimate comm budget tasks
  scheduledWorks comm budget est est.nPlanColls tasks plan .start

/-- Every task that is accepted and not a CollNet one is cut exactly. -/
theorem accepted_colls_exact (comm : Comm) (ranks : 0 < comm.nRanks) (budget : Budget) (tasks : List CollTask)
    (valid : ∀ task ∈ tasks, task.Prepared comm) (plan : KernelPlan) :
    (scheduleCollTasksToPlan comm budget tasks plan).1.collTasks.filter (!·.isCollnet) =
        plan.collTasks.filter (!·.isCollnet) ++ (collWorks comm budget tasks plan).map CollWork.task ∧
      ∀ sch ∈ collWorks comm budget tasks plan, sch.Exact comm := by
  refine ⟨scheduledWorks_tasks comm budget _ _ tasks plan .start, ?_⟩
  refine scheduledWorks_exact ranks budget _ _ tasks valid plan ?_
  intro kind same
  contradiction

/- Two all-gathers of a megabyte and a kilobyte between two ranks. -/
def allGatherTask (count : Nat) : CollTask where
  fn := .gather .allGather .ring .simple
  protocol := .simple
  count
  elementSize := 1
  trafficPerByte := 2
  trafficBytes := 2 * count
  nMaxChannels := 4
  isCollnet := false
  isNvls := false
  workType := .coll
  kernelCh := false
  isColl := by decide
  collWork := ringAllReduce.collWork

theorem four_channels : 0 < 4 := by decide

def fourChannels : Comm :=
  { pairComm with nChannels := 4, someChannel := four_channels, channelLimit := by decide }

theorem allGathers_exact :
    ((collWorks fourChannels (planBudget fourChannels false) [allGatherTask (2 ^ 20), allGatherTask 1024] .empty).map
        CollWork.work = [⟨0, 3, 270336, 270336, 237568⟩, ⟨3, 3, 1024, 0, 0⟩]) ∧
      ∀ sch ∈ collWorks fourChannels (planBudget fourChannels false)
        [allGatherTask (2 ^ 20), allGatherTask 1024] .empty, sch.Exact fourChannels := by
  refine ⟨by decide +kernel, ?_⟩
  refine (accepted_colls_exact fourChannels (by decide) _ _ ?_ _).2
  intro task mem
  simp only [mem_cons, not_mem_nil, or_false] at mem
  rcases mem with rfl | rfl
  all_goals exact ⟨by decide, by decide, rfl, by decide⟩

end Vccl.Plan
