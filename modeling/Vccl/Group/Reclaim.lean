import Vccl.Lib.Transition
import Vccl.Group.Jobs

/-! The communicators of one process that share an intra-process group, destroyed by any number of threads:
`commDestroySync`, `commReclaim` and `commCleanup` as the jobs of those threads run them, in any interleaving. -/
namespace Vccl.Group.Reclaim

open List Transition

/-- The list that begins at `intraComm0` and goes on by `intraNext`. -/
structure Family where
  order : List Nat
  distinct : order.Nodup
  some_comm : order ≠ []

inductive Event where
  | sync (c : Nat)
  | clean (c caller : Nat)
  deriving DecidableEq

/-- Where the last caller of `commReclaim` is in its two loops: the communicators it has yet to come to. -/
inductive Phase where
  | sync (todo : List Nat)
  | clean (todo : List Nat)

structure Walker where
  caller : Nat
  phase : Phase

/-- `workers` are the jobs whose threads have not begun. `counted` and `log` are history. -/
structure Proc where
  threads : List Thread
  comms : Nat → Comm
  workers : List Job
  walkers : List Walker
  finalizeRankCnt : Nat
  counted : List Nat
  log : List Event

def initial (threads : List Thread) (comms : Nat → Comm) : Proc := ⟨threads, comms, [], [], 0, [], []⟩

def Proc.finalized (s : Proc) (c : Nat) : Bool := (s.comms c).finalizeCalled

def Proc.pending (s : Proc) : List Job := s.threads.flatMap Thread.asyncJobs ++ s.workers

def isJob (func : JobFunc) (c : Nat) (job : Job) : Bool := decide (job.func = func ∧ job.comm = c)

def Proc.queued (s : Proc) (func : JobFunc) (c : Nat) : Nat := s.pending.countP (isJob func c)

def Proc.Retired (s : Proc) (c : Nat) : Prop := 0 < s.queued .commReclaim c + s.counted.count c

instance (s : Proc) (c : Nat) : Decidable (s.Retired c) := Nat.decLt _ _

def callComm : Call → Option Nat
  | .enqueueCheck _ info => info.comm
  | .finalize comm => comm
  | .destroy comm => comm
  | .abort comm => comm
  | .split request => request.comm

def Proc.usable (s : Proc) (call : Call) : Bool :=
  match callComm call with
  | none => true
  | some c => !decide (s.Retired c)

def Proc.view (s : Proc) (thread : Thread) : State := ⟨thread, s.comms, s.workers⟩

def Proc.put (s : Proc) (t : Nat) (v : State) : Proc :=
  { s with threads := s.threads.set t v.thread, comms := v.comms, workers := v.running }

/-- `settle` is the end of a group that does not block: its thread stores the result. -/
inductive Action where
  | call (t : Nat) (callees : Callees) (call : Call)
  | groupStart (t : Nat)
  | groupEnd (t : Nat) (callees : Callees)
  | settle (c : Nat) (result : Result)
  | work (i : Nat)
  | walk (i : Nat)

section

variable (family : Family)

/-- A job up to the point where it goes on to the loops of `commReclaim`. A communicator of another group counts
there. -/
def startJob (s : Proc) (job : Job) : Proc :=
  match job.func with
  | .commDestroySync => { s with log := s.log ++ [.sync job.comm] }
  | .commInitRankFunc => s
  | .commReclaim =>
    if job.comm ∈ family.order then
      let curRankCnt := s.finalizeRankCnt + 1
      let s := { s with finalizeRankCnt := curRankCnt, counted := s.counted ++ [job.comm] }
      if curRankCnt = family.order.length then
        { s with walkers := s.walkers ++ [⟨job.comm, .sync family.order⟩] }
      else s
    else s

def poison (comm : Comm) : Comm :=
  { comm with rank := -1, nRanks := -1, cudaDev := -1, busId := -1, magic := false }

def walkTurn (s : Proc) (i : Nat) (w : Walker) : Proc :=
  match w.phase with
  | .sync (c :: todo) =>
    { s with
      log := if s.finalized c then s.log else s.log ++ [.sync c]
      walkers := s.walkers.set i ⟨w.caller, .sync todo⟩ }
  | .sync [] => { s with walkers := s.walkers.set i ⟨w.caller, .clean family.order⟩ }
  | .clean (c :: todo) =>
    { s with
      log := s.log ++ [.clean c w.caller]
      comms := fun c' => if c' = c then poison (s.comms c) else s.comms c'
      walkers := s.walkers.set i ⟨w.caller, .clean todo⟩ }
  | .clean [] => { s with walkers := s.walkers.eraseIdx i }

def step (s : Proc) : Action → Option Proc
  | .call t callees call =>
    match s.threads[t]? with
    | none => none
    | some thread => if s.usable call then some (s.put t (call.exec callees (s.view thread)).2) else none
  | .groupStart t =>
    match s.threads[t]? with
    | none => none
    | some thread => some (s.put t (ncclGroupStartInternal (s.view thread)))
  | .groupEnd t callees =>
    match s.threads[t]? with
    | none => none
    | some thread => some (s.put t (ncclGroupEndInternal callees (s.view thread)).2)
  | .settle c result =>
    some { s with
      comms := fun c' => if c' = c then { s.comms c with asyncResult := result } else s.comms c' }
  | .work i =>
    match s.workers[i]? with
    | none => none
    | some job => some (startJob family { s with workers := s.workers.eraseIdx i } job)
  | .walk i =>
    match s.walkers[i]? with
    | none => none
    | some w => some (walkTurn family s i w)

def cleaned (log : List Event) : List Nat :=
  log.filterMap fun
    | .clean c _ => some c
    | .sync _ => none

/-- No communicator is synchronised or cleaned up twice, all of the family are synchronised before the first is
cleaned up, and the caller who came last cleans up. When the call for every communicator has been counted and
nobody is in the loops, nothing is left out. -/
structure Safe (s : Proc) : Prop where
  sync_once : ∀ c, s.log.count (.sync c) ≤ 1
  before : ∀ earlier c caller later, s.log = earlier ++ .clean c caller :: later →
    ∀ c' ∈ family.order, earlier.count (.sync c') = 1
  last_caller : ∀ c caller, .clean c caller ∈ s.log → s.counted.Perm family.order ∧ s.counted.getLast? = some caller
  clean_once : ∀ c, (cleaned s.log).count c ≤ 1
  complete : s.walkers = [] → (∀ c ∈ family.order, c ∈ s.counted) →
    ∀ c ∈ family.order, s.log.count (.sync c) = 1 ∧ (cleaned s.log).count c = 1

end

/-- When a communicator that was finalized is destroyed or aborted, its synchronisation is over. -/
def Settled (s : Proc) : Action → Prop
  | .call _ _ (.destroy (some c)) => s.finalized c = true → .sync c ∈ s.log
  | .call _ _ (.abort (some c)) => s.finalized c = true → .sync c ∈ s.log
  | _ => True

section

variable (family : Family)

def Proc.done (s : Proc) (c : Nat) : Nat := s.log.count (.sync c)

def SyncedFirst (log : List Event) : Prop :=
  ∀ earlier c caller later, log = earlier ++ .clean c caller :: later →
    ∀ c' ∈ family.order, earlier.count (.sync c') = 1

/-- The last caller is in its first loop; `past` are the communicators it has been to. -/
structure Syncing (s : Proc) (caller : Nat) (past todo : List Nat) : Prop where
  walker : s.walkers = [⟨caller, .sync todo⟩]
  order : family.order = past ++ todo
  all : s.counted.length = family.order.length
  last : s.counted.getLast? = some caller
  visited : ∀ c ∈ past, s.done c = 1
  unsynced : ∀ c ∉ past, s.finalized c = false → s.done c = 0
  unclean : cleaned s.log = []

/-- It is in its second loop, or has left it. -/
structure Cleaning (s : Proc) (caller : Nat) (past todo : List Nat) : Prop where
  walker : s.walkers = [⟨caller, .clean todo⟩] ∨ todo = [] ∧ s.walkers = []
  order : family.order = past ++ todo
  all : s.counted.length = family.order.length
  last : s.counted.getLast? = some caller
  synced : ∀ c ∈ family.order, s.done c = 1
  unsynced : ∀ c ∉ family.order, s.finalized c = false → s.done c = 0
  clean : cleaned s.log = past
  caller_only : ∀ c caller', .clean c caller' ∈ s.log → caller' = caller

inductive Walk (s : Proc) : Prop where
  | before (waiting : s.counted.length < family.order.length) (nobody : s.walkers = [])
      (unsynced : ∀ c, s.finalized c = false → s.done c = 0) (unclean : cleaned s.log = [])
  | syncing (caller : Nat) (past todo : List Nat) (loop : Syncing family s caller past todo)
  | cleaning (caller : Nat) (past todo : List Nat) (loop : Cleaning family s caller past todo)

structure Single (s : Proc) (c : Nat) : Prop where
  once : s.queued .commReclaim c + s.counted.count c ≤ 1
  marked : 0 < s.queued .commDestroySync c → s.finalized c = true
  synced : s.queued .commDestroySync c + s.done c ≤ 1
  settled : s.Retired c → s.finalized c = true → s.done c = 1

structure Inv (s : Proc) : Prop where
  single : ∀ c, Single s c
  members : ∀ c ∈ s.counted, c ∈ family.order
  cnt : s.finalizeRankCnt = s.counted.length
  first : SyncedFirst family s.log
  walk : Walk family s

variable {family} {s s' : Proc}

theorem Inv.counted_nodup (h : Inv family s) : s.counted.Nodup := by
  rw [nodup_iff_count_le_one]
  intro c
  have := (h.single c).once
  omega

theorem Inv.counted_perm (h : Inv family s) (all : s.counted.length = family.order.length) :
    s.counted.Perm family.order :=
  (subperm_of_subset h.counted_nodup h.members).perm_of_length_le (Nat.le_of_eq all.symm)

variable {c : Nat}

theorem Inv.retired_of_all (h : Inv family s) (all : s.counted.length = family.order.length)
    (mem : c ∈ family.order) : s.Retired c := by
  have := count_pos_iff.mpr ((h.counted_perm all).mem_iff.mpr mem)
  unfold Proc.Retired
  omega

variable {caller : Nat}

theorem mem_cleaned {log : List Event} (inside : .clean c caller ∈ log) : c ∈ cleaned log :=
  mem_filterMap.mpr ⟨_, inside, rfl⟩

theorem Inv.safe (h : Inv family s) : Safe family s where
  sync_once c := by
    have := (h.single c).synced
    simp only [Proc.done] at this
    omega
  before := h.first
  last_caller c caller inside := by
    have clean := mem_cleaned inside
    cases h.walk with
    | before _ _ _ unclean => simp [unclean] at clean
    | syncing _ _ _ loop => simp [loop.unclean] at clean
    | cleaning _ _ _ loop =>
      cases loop.caller_only c caller inside
      exact ⟨h.counted_perm loop.all, loop.last⟩
  clean_once c := by
    cases h.walk with
    | before _ _ _ unclean => simp [unclean]
    | syncing _ _ _ loop => simp [loop.unclean]
    | cleaning _ past todo loop =>
      have distinct := loop.order ▸ family.distinct
      rw [loop.clean]
      exact nodup_iff_count_le_one.mp (nodup_append.mp distinct).1 c
  complete hn counted c mem := by
    have enough := (subperm_of_subset family.distinct counted).length_le
    cases h.walk with
    | before => omega
    | syncing _ _ _ loop => cases hn.symm.trans loop.walker
    | cleaning _ past todo loop =>
      have ended : cleaned s.log = family.order := by grind [Cleaning]
      rw [ended]
      exact ⟨loop.synced c mem, count_eq_one_of_mem family.distinct mem⟩

theorem Inv.unsynced (h : Inv family s) (flag : s.finalized c = false) (used : ¬ s.Retired c) :
    s.done c = 0 := by
  cases h.walk with
  | before _ _ unsynced _ => exact unsynced c flag
  | syncing _ past todo loop =>
    refine loop.unsynced c (fun hi => used (h.retired_of_all loop.all ?_)) flag
    rw [loop.order]
    exact mem_append_left _ hi
  | cleaning _ _ _ loop => exact loop.unsynced c (fun hi => used (h.retired_of_all loop.all hi)) flag

theorem Walk.carry (walk : Walk family s) (walkers : s'.walkers = s.walkers) (counted : s'.counted = s.counted)
    (clean : cleaned s'.log = cleaned s.log) (cleans : ∀ c caller, .clean c caller ∈ s'.log → .clean c caller ∈ s.log)
    (one : ∀ c, s.done c = 1 → s'.done c = 1)
    (unflagged : ∀ c, s'.finalized c = false → s.finalized c = false ∧ (s.done c = 0 → s'.done c = 0)) :
    Walk family s' := by
  cases walk with
  | before => apply Walk.before <;> grind
  | syncing caller past todo loop => exact .syncing caller past todo (by constructor <;> grind [Syncing])
  | cleaning caller past todo loop => exact .cleaning caller past todo (by constructor <;> grind [Cleaning])

theorem Inv.of_call (h : Inv family s) (log : s'.log = s.log) (walkers : s'.walkers = s.walkers)
    (counted : s'.counted = s.counted) (cnt : s'.finalizeRankCnt = s.finalizeRankCnt)
    (reclaims : ∀ c, s'.queued .commReclaim c ≤ s.queued .commReclaim c ∨
      (s'.queued .commReclaim c ≤ s.queued .commReclaim c + 1 ∧ ¬ s.Retired c ∧
        (s.finalized c = true → .sync c ∈ s.log) ∧ s'.finalized c = s.finalized c))
    (syncs : ∀ c, s'.queued .commDestroySync c ≤ s.queued .commDestroySync c ∨
      (s'.queued .commDestroySync c ≤ s.queued .commDestroySync c + 1 ∧
        s.finalized c = false ∧ s'.finalized c = true ∧ ¬ s.Retired c))
    (flags : ∀ c, s'.finalized c = s.finalized c ∨ (s.finalized c = false ∧ ¬ s.Retired c)) : Inv family s' := by
  have same_done : ∀ c, s'.done c = s.done c := fun c => by rw [Proc.done, log]; rfl
  have unsynced : ∀ c, s.finalized c = false → ¬ s.Retired c → s.done c = 0 := fun c => h.unsynced
  refine ⟨fun c => ?_, counted ▸ h.members, by rw [cnt, h.cnt, counted], log ▸ h.first, ?_⟩
  · obtain ⟨_, _, _, _⟩ := h.single c
    constructor <;> grind [Proc.Retired, Proc.done]
  · exact h.walk.carry walkers counted (by rw [log]) (by simp [log]) (by grind) (by grind)

theorem Inv.of_fewer (h : Inv family s) (fewer : ∀ func c, s'.queued func c ≤ s.queued func c) (log : s'.log = s.log)
    (walkers : s'.walkers = s.walkers) (counted : s'.counted = s.counted)
    (cnt : s'.finalizeRankCnt = s.finalizeRankCnt) (flags : s'.finalized = s.finalized) : Inv family s' :=
  h.of_call log walkers counted cnt (fun c => .inl (fewer _ c)) (fun c => .inl (fewer _ c))
    fun c => .inl (congrFun flags c)

variable {t : Nat} {thread : Thread} {v : State} {func : JobFunc} {flag : Bool}

theorem queued_put (found : s.threads[t]? = some thread)
    (added : v.jobs.Subperm (⟨func, c, flag⟩ :: (s.view thread).jobs)) (func' : JobFunc) (c' : Nat) :
    (s.put t v).queued func' c' ≤ s.queued func' c' + if func = func' ∧ c = c' then 1 else 0 := by
  obtain ⟨hb, rfl⟩ := List.getElem?_eq_some_iff.mp found
  have after := ((set_perm_cons_eraseIdx hb v.thread).flatMap_right Thread.asyncJobs).countP_eq (isJob func' c')
  have before := ((getElem_cons_eraseIdx_perm hb).flatMap_right Thread.asyncJobs).countP_eq (isJob func' c')
  have more := added.countP_le (isJob func' c')
  simp only [State.jobs, Proc.view, flatMap_cons, countP_append, countP_cons, isJob, decide_eq_true_eq] at *
  simp only [Proc.queued, Proc.pending, Proc.put, countP_append]
  omega

theorem Inv.of_launches (h : Inv family s) (found : s.threads[t]? = some thread)
    (launches : Launches func c (s.view thread) v) (no_sync : func ≠ .commDestroySync)
    (ready : func = .commReclaim → ¬ s.Retired c ∧ (s.finalized c = true → .sync c ∈ s.log)) :
    Inv family (s.put t v) := by
  obtain ⟨_, added⟩ := launches
  have more := queued_put found added.jobs
  have same : ∀ c', (s.put t v).finalized c' = s.finalized c' := fun c' => congrFun added.finalized c'
  refine h.of_call rfl rfl rfl rfl ?_ ?_ fun c' => .inl (same c')
  · intro c'
    grind
  · intro c'
    have := more .commDestroySync c'
    rw [if_neg fun both => no_sync both.1] at this
    exact .inl this

theorem Inv.of_adds (h : Inv family s) (found : s.threads[t]? = some thread) (added : Adds [] (s.view thread) v) :
    Inv family (s.put t v) := by
  have launches : Launches .commInitRankFunc 0 (s.view thread) v := ⟨false, added.weaken⟩
  exact h.of_launches found launches (by decide) nofun

theorem Inv.of_finalizes (h : Inv family s) (found : s.threads[t]? = some thread)
    (finalizes : Finalizes c (s.view thread) v) (used : ¬ s.Retired c) : Inv family (s.put t v) := by
  obtain ⟨hf, finalized, _, added⟩ := finalizes
  have more := queued_put found added
  have flags : ∀ c', (s.put t v).finalized c' = if c' = c then true else s.finalized c' := by
    intro c'
    rw [← Function.update_apply]
    exact congrFun finalized c'
  replace hf : s.finalized c = false := hf
  refine h.of_call rfl rfl rfl rfl (fun c' => ?_) (fun c' => ?_) (fun c' => ?_)
  · have := more .commReclaim c'
    exact .inl this
  · grind
  · grind

variable {i : Nat} {job : Job}

theorem queued_eraseIdx (found : s.workers[i]? = some ⟨func, c, flag⟩) (func' : JobFunc) (c' : Nat) :
    s.queued func' c' = { s with workers := s.workers.eraseIdx i }.queued func' c' +
      if func = func' ∧ c = c' then 1 else 0 := by
  obtain ⟨hb, here⟩ := List.getElem?_eq_some_iff.mp found
  have perm := (getElem_cons_eraseIdx_perm hb).countP_eq (isJob func' c')
  rw [here, countP_cons] at perm
  simp only [isJob, decide_eq_true_eq] at perm
  simp only [Proc.queued, Proc.pending, countP_append]
  omega

theorem cleaned_sync (log : List Event) (c : Nat) : cleaned (log ++ [.sync c]) = cleaned log := by
  simp [cleaned]

theorem cleaned_clean (log : List Event) (c caller : Nat) :
    cleaned (log ++ [.clean c caller]) = cleaned log ++ [c] := by
  simp [cleaned]

theorem SyncedFirst.concat {log : List Event} {e : Event} (first : SyncedFirst family log)
    (new : ∀ c caller, e = .clean c caller → ∀ c' ∈ family.order, log.count (.sync c') = 1) :
    SyncedFirst family (log ++ [e]) := by
  intro earlier c caller later split
  rcases eq_nil_or_concat later with rfl | ⟨later', last, rfl⟩
  · obtain ⟨rfl, here⟩ := append_inj' split rfl
    exact new c caller (singleton_inj.mp here)
  · rw [concat_eq_append, ← cons_append, ← append_assoc] at split
    exact first earlier c caller later' (append_inj' split rfl).1

theorem SyncedFirst.sync {log : List Event} (first : SyncedFirst family log) (c : Nat) :
    SyncedFirst family (log ++ [.sync c]) :=
  first.concat fun _ _ hi => by cases hi

theorem done_sync (log : s'.log = s.log ++ [.sync c]) (c' : Nat) :
    s'.done c' = s.done c' + if c' = c then 1 else 0 := by
  rw [Proc.done, log]
  by_cases here : c' = c
  · simp [here, Proc.done]
  · simp [here, Ne.symm here, Proc.done]

theorem Inv.sync_job (h : Inv family s) (found : s.workers[i]? = some ⟨.commDestroySync, c, flag⟩) :
    Inv family { s with workers := s.workers.eraseIdx i, log := s.log ++ [.sync c] } := by
  generalize next : ({ s with workers := s.workers.eraseIdx i, log := s.log ++ [.sync c] } : Proc) = s'
  have log : s'.log = s.log ++ [.sync c] := by rw [← next]
  have queued : ∀ func' c', s.queued func' c' = s'.queued func' c' +
      if JobFunc.commDestroySync = func' ∧ c = c' then 1 else 0 := by
    intro func' c'
    rw [← next]
    exact queued_eraseIdx found func' c'
  have done := done_sync log
  have flags : ∀ c', s'.finalized c' = s.finalized c' := fun c' => by rw [← next]; rfl
  have counted : s'.counted = s.counted := by rw [← next]
  have marked := (h.single c).marked (by grind)
  have walk : Walk family s' := by
    have := (h.single c).synced
    refine h.walk.carry (by rw [← next]) counted (by rw [log, cleaned_sync]) ?_ ?_ ?_
    · simp [log]
    · grind
    · grind
  refine ⟨fun c' => ?_, counted ▸ h.members, by rw [counted, ← h.cnt, ← next], log ▸ h.first.sync c, walk⟩
  obtain ⟨_, _, hs, _⟩ := h.single c'
  constructor <;> grind [Proc.Retired]

theorem Inv.reclaim_job (h : Inv family s) (found : s.workers[i]? = some ⟨.commReclaim, c, flag⟩) :
    Inv family (startJob family { s with workers := s.workers.eraseIdx i } ⟨.commReclaim, c, flag⟩) := by
  have queued := queued_eraseIdx found
  simp only [startJob]
  split
  next mem =>
    have uncounted : c ∉ s.counted := by
      intro inside
      have := (h.single c).once
      grind
    have waiting : s.counted.length < family.order.length := by
      have distinct : (c :: s.counted).Nodup := nodup_cons.mpr ⟨uncounted, h.counted_nodup⟩
      exact (subperm_of_subset distinct (cons_subset.mpr ⟨mem, h.members⟩)).length_le
    obtain ⟨unsynced, unclean, nobody⟩ :
        (∀ c', s.finalized c' = false → s.done c' = 0) ∧ cleaned s.log = [] ∧ s.walkers = [] := by
      cases h.walk with
      | before _ nobody unsynced unclean => exact ⟨unsynced, unclean, nobody⟩
      | syncing _ _ _ loop => exact absurd loop.all (by omega)
      | cleaning _ _ _ loop => exact absurd loop.all (by omega)
    have kept : ∀ s' : Proc, s'.pending = { s with workers := s.workers.eraseIdx i }.pending →
        s'.log = s.log → s'.comms = s.comms → s'.counted = s.counted ++ [c] →
        s'.finalizeRankCnt = s.finalizeRankCnt + 1 → Walk family s' → Inv family s' := by
      intro s' pending log comms counted cnt walk
      have flags : ∀ c', s'.finalized c' = s.finalized c' := fun c' => by rw [Proc.finalized, comms]; rfl
      have done : ∀ c', s'.done c' = s.done c' := fun c' => by rw [Proc.done, log]; rfl
      have queued' : ∀ func' c', s.queued func' c' = s'.queued func' c' +
          if JobFunc.commReclaim = func' ∧ c = c' then 1 else 0 := by
        intro func' c'
        rw [queued, Proc.queued, ← pending]
        rfl
      refine ⟨fun c' => ?_, ?_, by simp [cnt, counted, h.cnt], log ▸ h.first, walk⟩
      · obtain ⟨once, _, _, _⟩ := h.single c'
        constructor <;> grind [Proc.Retired]
      · grind [h.members]
    split
    next last =>
      refine kept _ rfl rfl rfl rfl rfl (.syncing c [] family.order ?_)
      exact
        { walker := by simp [nobody]
          order := rfl
          all := by rw [length_append, ← h.cnt]; exact last
          last := getLast?_concat
          visited := nofun
          unsynced := fun c' _ off => unsynced c' off
          unclean }
    next more =>
      refine kept _ rfl rfl rfl rfl rfl (.before ?_ nobody unsynced unclean)
      rw [length_append, length_singleton]
      rw [h.cnt] at more
      omega
  · exact h.of_fewer (fun func' c' => by rw [queued]; exact Nat.le_add_right _ _) rfl rfl rfl rfl rfl

theorem Inv.of_walk (h : Inv family s) (pending : s'.pending = s.pending) (flags : s'.finalized = s.finalized)
    (counted : s'.counted = s.counted) (cnt : s'.finalizeRankCnt = s.finalizeRankCnt)
    (done : ∀ c, s'.done c = s.done c ∨ (s.finalized c = false ∧ s'.done c = 1))
    (first : SyncedFirst family s'.log) (walk : Walk family s') : Inv family s' := by
  have queued : ∀ func c, s'.queued func c = s.queued func c := fun func c => by rw [Proc.queued, pending]; rfl
  replace flags := congrFun flags
  refine ⟨fun c => ?_, counted ▸ h.members, by rw [cnt, h.cnt, counted], first, walk⟩
  obtain ⟨_, _, _, _⟩ := h.single c
  constructor <;> grind [Proc.Retired]

variable {past todo : List Nat}

theorem Inv.sync_turn (h : Inv family s) (loop : Syncing family s caller past (c :: todo)) :
    Inv family { s with
      log := if s.finalized c then s.log else s.log ++ [.sync c]
      walkers := [⟨caller, .sync todo⟩] } := by
  have distinct := family.distinct
  rw [loop.order] at distinct
  have order : family.order = (past ++ [c]) ++ todo := by simpa using loop.order
  by_cases hm : s.finalized c = true
  · rw [if_pos hm]
    have synced := (h.single c).settled (h.retired_of_all loop.all (by rw [loop.order]; simp)) hm
    refine h.of_walk rfl rfl rfl rfl (fun c' => .inl rfl) h.first (.syncing caller (past ++ [c]) todo ?_)
    refine { loop with walker := rfl, order, visited := ?_, unsynced := ?_ }
    · intro c' hi
      rcases mem_append.mp hi with hb | here
      · exact loop.visited c' hb
      · exact mem_singleton.mp here ▸ synced
    · exact fun c' ho => loop.unsynced c' fun hi => ho (mem_append_left _ hi)
  · rw [if_neg hm]
    generalize next : ({ s with log := s.log ++ [.sync c], walkers := [⟨caller, .sync todo⟩] } : Proc) = s'
    have done := @done_sync s s' c (by rw [← next])
    have flags : ∀ c', s'.finalized c' = s.finalized c' := fun c' => by rw [← next]; rfl
    have unsynced := loop.unsynced
    refine h.of_walk (by rw [← next]; rfl) (funext flags) (by rw [← next]) (by rw [← next]) (by grind)
      (by rw [← next]; exact h.first.sync c) (.syncing caller (past ++ [c]) todo ?_)
    exact
      { walker := by rw [← next]
        order
        all := by rw [← next]; exact loop.all
        last := by rw [← next]; exact loop.last
        visited := by grind [loop.visited]
        unsynced := by grind
        unclean := by rw [← next]; exact (cleaned_sync s.log c).trans loop.unclean }

theorem finalized_poison (s : Proc) (c : Nat) :
    (fun c' => (if c' = c then poison (s.comms c) else s.comms c').finalizeCalled) = s.finalized := by
  funext c'
  split
  next here =>
    subst here
    rfl
  · rfl

theorem Inv.clean_turn (h : Inv family s) (loop : Cleaning family s caller past (c :: todo)) :
    Inv family { s with
      log := s.log ++ [.clean c caller]
      comms := fun c' => if c' = c then poison (s.comms c) else s.comms c'
      walkers := [⟨caller, .clean todo⟩] } := by
  have done : ∀ c', (s.log ++ [Event.clean c caller]).count (Event.sync c') = s.done c' := by
    intro c'
    simp [Proc.done]
  refine h.of_walk rfl (finalized_poison s c) rfl rfl (fun c' => .inl (done c'))
    (h.first.concat fun _ _ _ => loop.synced) (.cleaning caller (past ++ [c]) todo ?_)
  exact
    { loop with
      walker := .inl rfl
      order := by simpa using loop.order
      synced := fun c' hi => (done c').trans (loop.synced c' hi)
      unsynced := by
        intro c' ho off
        refine (done c').trans (loop.unsynced c' ho ?_)
        rw [← congrFun (finalized_poison s c) c']
        exact off
      clean := by rw [cleaned_clean, loop.clean]
      caller_only := by grind [loop.caller_only] }

theorem Inv.walk_turn (h : Inv family s) {w : Walker} (found : s.walkers[i]? = some w) :
    Inv family (walkTurn family s i w) := by
  cases h.walk with
  | before _ hn =>
    rw [hn] at found
    cases found
  | syncing caller past todo loop =>
    have walker := loop.walker
    obtain ⟨rfl, rfl⟩ : i = 0 ∧ ⟨caller, .sync todo⟩ = w := by
      cases i <;> simp_all
    cases todo with
    | nil =>
      have order := loop.order
      rw [append_nil] at order
      simp only [walkTurn, walker]
      refine h.of_walk rfl rfl rfl rfl (fun c => .inl rfl) h.first (.cleaning caller [] family.order ?_)
      exact
        { loop with
          walker := .inl rfl
          order := rfl
          synced := order ▸ loop.visited
          unsynced := order ▸ loop.unsynced
          clean := loop.unclean
          caller_only := by
            intro c caller' hi
            have clean := mem_cleaned hi
            rw [loop.unclean] at clean
            cases clean }
    | cons c todo =>
      simp only [walkTurn, walker]
      exact h.sync_turn loop
  | cleaning caller past todo loop =>
    obtain ⟨walker, rfl, rfl⟩ : s.walkers = [⟨caller, .clean todo⟩] ∧ i = 0 ∧ ⟨caller, .clean todo⟩ = w := by
      rcases loop.walker with walker | ⟨-, hn⟩
      · cases i <;> simp_all
      · simp [hn] at found
    cases todo with
    | nil =>
      simp only [walkTurn, walker]
      exact h.of_walk rfl rfl rfl rfl (fun c => .inl rfl) h.first
        (.cleaning caller past [] { loop with walker := .inr ⟨rfl, rfl⟩ })
    | cons c todo =>
      simp only [walkTurn, walker]
      exact h.clean_turn loop

theorem Inv.call (h : Inv family s) (found : s.threads[t]? = some thread) {callees : Callees} {call : Call}
    (usable : s.usable call = true) (settled : Settled s (.call t callees call)) :
    Inv family (s.put t (call.exec callees (s.view thread)).2) := by
  have used : ∀ c, callComm call = some c → ¬ s.Retired c := by
    intro c at_c
    simpa [Proc.usable, at_c] using usable
  cases call with
  | enqueueCheck faultTolerance info => exact h.of_adds found (enqueue_effect callees faultTolerance info _)
  | finalize comm =>
    rcases finalize_effect callees comm (s.view thread) with hf | ⟨c, rfl, finalizes⟩
    · exact h.of_adds found hf
    · exact h.of_finalizes found finalizes (used c rfl)
  | destroy comm =>
    cases comm with
    | none => exact h.of_adds found (.of_view rfl [])
    | some c =>
      exact h.of_launches found (destroy_effect callees c _) (by decide) (fun _ => ⟨used c rfl, settled⟩)
  | abort comm =>
    cases comm with
    | none => exact h.of_adds found (.of_view rfl [])
    | some c =>
      exact h.of_launches found (abort_effect callees c _) (by decide) (fun _ => ⟨used c rfl, settled⟩)
  | split request =>
    obtain ⟨c, launches⟩ := split_effect callees request (s.view thread)
    exact h.of_launches found launches (by decide) (fun hi => by cases hi)

theorem Inv.step {a : Action} (h : Inv family s) (settled : Settled s a)
    (next : step family s a = some s') : Inv family s' := by
  cases a with
  | call t callees call =>
    simp only [Reclaim.step] at next
    split at next
    · cases next
    next thread hf =>
      obtain ⟨hu, ⟨⟩⟩ := Option.ite_none_right_eq_some.mp next
      exact h.call hf hu settled
  | groupStart t =>
    simp only [Reclaim.step] at next
    split at next <;> cases next
    next thread hf => exact h.of_adds hf (.of_view (by rfl) [])
  | groupEnd t callees =>
    simp only [Reclaim.step] at next
    split at next <;> cases next
    next thread hf => exact h.of_adds hf (adds_groupEnd callees _)
  | settle c result =>
    cases next
    refine h.of_fewer (fun _ _ => Nat.le_refl _) rfl rfl rfl rfl (funext fun c' => ?_)
    simp only [Proc.finalized]
    split
    next here => rw [here]
    · rfl
  | work i =>
    simp only [Reclaim.step] at next
    split at next <;> cases next
    next job hf =>
      obtain ⟨func, c, _⟩ := job
      cases func with
      | commDestroySync => exact h.sync_job hf
      | commReclaim => exact h.reclaim_job hf
      | commInitRankFunc =>
        refine h.of_fewer (fun func' c' => ?_) rfl rfl rfl rfl rfl
        rw [queued_eraseIdx hf]
        exact Nat.le_add_right _ _
  | walk i =>
    simp only [Reclaim.step] at next
    split at next <;> cases next
    next w hf => exact h.walk_turn hf

structure Fresh (threads : List Thread) (comms : Nat → Comm) : Prop where
  queues : ∀ thread ∈ threads, thread.asyncJobs = []
  flags : ∀ c, (comms c).finalizeCalled = false

theorem Fresh.inv {threads : List Thread} {comms : Nat → Comm} (fresh : Fresh threads comms) :
    Inv family (initial threads comms) := by
  have nothing : ∀ func c, (initial threads comms).queued func c = 0 := by
    have empty : (initial threads comms).pending = [] := by
      simpa [initial, Proc.pending] using fresh.queues
    simp [Proc.queued, empty]
  have some_order : 0 < family.order.length := length_pos_iff.mpr family.some_comm
  refine ⟨fun c => ?_, nofun, rfl, ?_, .before some_order rfl (fun _ _ => rfl) rfl⟩
  · constructor <;> simp [nothing, Proc.Retired, Proc.done, show (initial threads comms).log = [] from rfl,
      show (initial threads comms).counted = [] from rfl]
  · simp [SyncedFirst, initial]

def Walker.weight (n : Nat) (w : Walker) : Nat :=
  match w.phase with
  | .sync todo => todo.length + 1 + (n + 2)
  | .clean todo => todo.length + 1

def Proc.weight (n : Nat) (s : Proc) : Nat :=
  s.workers.length * (2 * n + 4) + (s.walkers.map (Walker.weight n)).sum

def Called (family : Family) (s : Proc) : Prop :=
  ∀ c ∈ family.order, c ∈ s.counted ∨ ∃ flag, ⟨.commReclaim, c, flag⟩ ∈ s.workers

theorem startJob_frame (s : Proc) (job : Job) : (startJob family s job).workers = s.workers ∧
    (∃ more, (startJob family s job).counted = s.counted ++ more) ∧
    ((startJob family s job).walkers = s.walkers ∨
      ∃ c, (startJob family s job).walkers = s.walkers ++ [⟨c, .sync family.order⟩]) := by
  unfold startJob
  split
  · exact ⟨rfl, ⟨[], by simp⟩, .inl rfl⟩
  · exact ⟨rfl, ⟨[], by simp⟩, .inl rfl⟩
  split
  · simp only
    split
    · exact ⟨rfl, ⟨_, rfl⟩, .inr ⟨_, rfl⟩⟩
    · exact ⟨rfl, ⟨_, rfl⟩, .inl rfl⟩
  · exact ⟨rfl, ⟨[], by simp⟩, .inl rfl⟩

variable {rest : List Job}

theorem called_work (called : Called family s) (workers : s.workers = job :: rest) :
    Called family (startJob family { s with workers := rest } job) := by
  obtain ⟨same, ⟨_, hc⟩, -⟩ := @startJob_frame family { s with workers := rest } job
  intro c mem
  rw [same, hc]
  rcases called c mem with old | ⟨flag, running⟩
  · exact .inl (mem_append_left _ old)
  rw [workers] at running
  rcases mem_cons.mp running with rfl | hl
  · refine .inl ?_
    rw [← hc]
    simp only [startJob, mem, ↓reduceIte]
    split <;> simp
  · exact .inr ⟨flag, hl⟩

theorem weight_work (workers : s.workers = job :: rest) :
    (startJob family { s with workers := rest } job).weight family.order.length < s.weight family.order.length := by
  obtain ⟨same, -, hw⟩ := @startJob_frame family { s with workers := rest } job
  rw [Proc.weight, Proc.weight, same, workers, length_cons, Nat.add_mul]
  rcases hw with hw | ⟨c, hw⟩
  · rw [hw]
    change rest.length * _ + (s.walkers.map _).sum < _
    omega
  · rw [hw, map_append, sum_append]
    simp only [map_cons, map_nil, sum_cons, sum_nil, Walker.weight]
    omega

theorem weight_walk {w : Walker} {rest : List Walker} (walkers : s.walkers = w :: rest) :
    (walkTurn family s 0 w).weight family.order.length < s.weight family.order.length := by
  obtain ⟨_, phase⟩ := w
  rcases phase with (- | ⟨c, todo⟩) | (- | ⟨c, todo⟩)
  all_goals
    simp only [walkTurn, Proc.weight, walkers, set_cons_zero, eraseIdx_cons_zero, map_cons,
      sum_cons, Walker.weight, length_cons]
    omega

theorem walkTurn_frame (s : Proc) (i : Nat) (w : Walker) :
    (walkTurn family s i w).workers = s.workers ∧ (walkTurn family s i w).counted = s.counted := by
  unfold walkTurn
  split <;> exact ⟨rfl, rfl⟩

theorem jobs_finish (h : Inv family s) (called : Called family s) :
    ∃ t, Reachable (step family) s t ∧ (Inv family t ∧ Called family t) ∧
      t.workers = [] ∧ t.walkers = [] := by
  refine reaches_goal (fun s => Inv family s ∧ Called family s)
    (fun s => s.workers = [] ∧ s.walkers = []) (Proc.weight family.order.length) ?_ ⟨h, called⟩
  rintro s ⟨h, called⟩ more
  cases workers : s.workers with
  | cons job rest =>
    have next : step family s (.work 0) = some (startJob family { s with workers := rest } job) := by
      simp [step, workers]
    exact ⟨_, _, next, ⟨h.step (a := .work 0) trivial next, called_work called workers⟩, weight_work workers⟩
  | nil =>
    cases walkers : s.walkers with
    | nil => exact absurd ⟨workers, walkers⟩ more
    | cons w rest =>
      have next : step family s (.walk 0) = some (walkTurn family s 0 w) := by
        simp [step, walkers]
      obtain ⟨same, hc⟩ := @walkTurn_frame family s 0 w
      refine ⟨_, _, next, ⟨h.step (a := .walk 0) trivial next, ?_⟩, weight_walk walkers⟩
      intro c mem
      rw [same, hc]
      exact called c mem

/-- Every order of finalizing, destroying and aborting, as long as the synchronisation of a finalized
communicator is over before it is destroyed or aborted. -/
theorem reclaim_safe {threads : List Thread} {comms : Nat → Comm} (fresh : Fresh threads comms)
    (actions : List Action) (settled : Meets (step family) Settled (initial threads comms) actions)
    (ran : run (step family) (initial threads comms) actions = some s) :
    Safe family s ∧ (Called family s → ∃ t, Reachable (step family) s t ∧
      ∀ c ∈ family.order, t.log.count (.sync c) = 1 ∧ (cleaned t.log).count c = 1) := by
  have inv : Inv family s :=
    run_invariant (Inv family) (fun _ _ _ h settled next => h.step settled next) actions fresh.inv settled ran
  refine ⟨inv.safe, fun hca => ?_⟩
  obtain ⟨t, hr, ⟨inv', hc'⟩, hn, hno⟩ := jobs_finish inv hca
  refine ⟨t, hr, inv'.safe.complete hno fun c mem => ?_⟩
  rcases hc' c mem with hc | ⟨_, running⟩
  · exact hc
  · rw [hn] at running
    cases running

end

instance (s : Proc) (a : Action) : Decidable (Settled s a) := by
  unfold Settled
  split <;> infer_instance

def idleThread : Thread := ⟨0, .success, [], [], none⟩

def pair : Family := ⟨[0, 1], by decide, by decide⟩

def oneAfterTheOther : List Action :=
  [.call 0 allWell (.finalize (some 0)), .work 0, .call 0 allWell (.destroy (some 0)), .work 0,
    .call 1 allWell (.abort (some 1)), .work 0, .walk 0, .walk 0, .walk 0, .walk 0, .walk 0]

theorem reclaim_oneAfterTheOther :
    ∃ s, run (step pair) (initial [idleThread, idleThread] fun _ => idleComm) oneAfterTheOther = some s ∧
      s.log = [.sync 0, .sync 1, .clean 0 1, .clean 1 1] ∧ Safe pair s := by
  obtain ⟨s, ran, hf⟩ := run_reaches (step pair) (initial [idleThread, idleThread] fun _ => idleComm)
    oneAfterTheOther (fun s => s.log = [.sync 0, .sync 1, .clean 0 1, .clean 1 1]) (by decide)
  have fresh : Fresh [idleThread, idleThread] fun _ => idleComm := ⟨by decide, fun _ => rfl⟩
  exact ⟨s, ran, by simpa using hf, (reclaim_safe fresh oneAfterTheOther (by decide) ran).1⟩

def single : Family := ⟨[0], by decide, by decide⟩

/-- Finalized and destroyed in one group, the communicator is cleaned up without having been synchronised, and
its synchronisation then runs on what is left of it. -/
theorem cleaned_before_synchronised :
    ∃ s, run (step single) (initial [idleThread] fun _ => idleComm)
        [.groupStart 0, .call 0 allWell (.finalize (some 0)), .call 0 allWell (.destroy (some 0)),
          .groupEnd 0 allWell, .work 1, .walk 0, .walk 0, .walk 0, .work 0] = some s ∧
      s.log = [.clean 0 0, .sync 0] :=
  ⟨_, rfl, by decide⟩

end Vccl.Group.Reclaim
