import Vccl.Plan.Steps

/-! The loop over the rounds of the p2p schedule: what it takes from the queues of the peers,
and when it leaves the plan as it was. -/
namespace Vccl.Plan

open List

def P2pQueues.total (queues : P2pQueues) (nRanks : Nat) : Nat :=
  ∑ r ∈ Finset.range nRanks, (queues.send r).length +
    ∑ r ∈ Finset.range nRanks, (queues.recv r).length

/-- `nTasksP2p` counts the tasks, tasks are to ranks of the communicator, and the sends to
the own rank are matched. -/
structure P2pQueues.Valid (comm : Comm) (queues : P2pQueues) : Prop where
  counted : queues.nTasks = queues.total comm.nRanks
  outside : ∀ r, comm.nRanks ≤ r → queues.send r = [] ∧ queues.recv r = []
  paired : (queues.send comm.rank).length = (queues.recv comm.rank).length

def OnlyInPlace (comm : Comm) (queues : P2pQueues) : Prop :=
  (∀ r, r ≠ comm.rank → queues.send r = [] ∧ queues.recv r = []) ∧
    (queues.send comm.rank).map P2pTask.buff = (queues.recv comm.rank).map P2pTask.buff

def P2pQueues.of (queues : P2pQueues) : Proxy.Side → Nat → List P2pTask
  | .send => queues.send
  | .recv => queues.recv

structure Taken where
  peer : Proxy.Side → Nat
  task : Proxy.Side → Option P2pTask

def P2pQueues.heads (queues : P2pQueues) (s r : Nat) : Taken where
  peer
    | .send => s
    | .recv => r
  task
    | .send => (queues.send s).head?
    | .recv => (queues.recv r).head?

instance (comm : Comm) (s : Nat) (send recv : Option P2pTask) : Decidable (inPlace comm s send recv) := by
  unfold inPlace
  split <;> infer_instance

def Taken.placed (comm : Comm) (e : Taken) : List P2pTask :=
  if inPlace comm (e.peer .send) (e.task .send) (e.task .recv) then []
  else (e.task .send).toList ++ (e.task .recv).toList

def takenFrom (side : Proxy.Side) (r : Nat) (log : List Taken) : List P2pTask :=
  log.flatMap fun e => if r = e.peer side then (e.task side).toList else []

/-- Between two states of the queues, `log` was taken from their heads and `tasks` went into plans. -/
structure Logged (comm : Comm) (before after : P2pQueues) (tasks : List P2pTask) (log : List Taken) : Prop where
  order : ∀ side r, before.of side r = takenFrom side r log ++ after.of side r
  placed : tasks = log.flatMap (Taken.placed comm)
  self : ∀ e ∈ log, e.peer .send = comm.rank ↔ e.peer .recv = comm.rank

theorem sum_dequeue {α : Type} (f : Nat → List α) (a n : Nat)
    (outside : ∀ r, n ≤ r → f r = []) :
    ∑ r ∈ Finset.range n, (if r = a then (f r).tail else f r).length +
      (f a).head?.toList.length = ∑ r ∈ Finset.range n, (f r).length := by
  have others : ∀ r, r ≠ a → (if r = a then (f r).tail else f r).length = (f r).length := by
    intro r other
    rw [if_neg other]
  have own : (f a).tail.length + (f a).head?.toList.length = (f a).length := by
    cases f a <;> simp
  by_cases hi : a < n
  · have mem := Finset.mem_range.mpr hi
    rw [← Finset.sum_erase_add _ _ mem, ← Finset.sum_erase_add _ (fun r => (f r).length) mem, if_pos rfl,
      Nat.add_assoc]
    congr 1
    exact Finset.sum_congr rfl fun r erased => others r (Finset.ne_of_mem_erase erased)
  · rw [outside a (by omega), head?_nil, Option.toList_none, length_nil, Nat.add_zero]
    refine Finset.sum_congr rfl fun r hb => others r ?_
    have := Finset.mem_range.mp hb
    omega

variable {comm : Comm} {queues : P2pQueues}

theorem P2pQueues.dequeue_nTasks (h : queues.Valid comm) (s r : Nat) :
    (queues.dequeue s r).nTasks + ((queues.send s).head?.toList.length +
      (queues.recv r).head?.toList.length) = queues.nTasks ∧
    (queues.dequeue s r).nTasks = (queues.dequeue s r).total comm.nRanks := by
  have sends := sum_dequeue queues.send s comm.nRanks fun i far => (h.outside i far).1
  have recvs := sum_dequeue queues.recv r comm.nRanks fun i far => (h.outside i far).2
  have counted := h.counted
  simp only [P2pQueues.total, P2pQueues.dequeue] at counted ⊢
  omega

theorem P2pQueues.Valid.empty (h : queues.Valid comm) (none' : queues.nTasks = 0) (r : Nat) :
    queues.send r = [] ∧ queues.recv r = [] := by
  have counted := h.counted
  simp only [P2pQueues.total] at counted
  by_cases hi : r < comm.nRanks
  · have sends : ∑ r ∈ Finset.range comm.nRanks, (queues.send r).length = 0 := by omega
    have recvs : ∑ r ∈ Finset.range comm.nRanks, (queues.recv r).length = 0 := by omega
    rw [Finset.sum_eq_zero_iff] at sends recvs
    have mem := Finset.mem_range.mpr hi
    exact ⟨length_eq_zero_iff.mp (sends r mem), length_eq_zero_iff.mp (recvs r mem)⟩
  · exact h.outside r (by omega)

theorem P2pQueues.Valid.dequeue (h : queues.Valid comm) {s r : Nat} (self : s = comm.rank ↔ r = comm.rank) :
    (queues.dequeue s r).Valid comm := by
  refine ⟨(queues.dequeue_nTasks h s r).2, ?_, ?_⟩
  · intro i far
    obtain ⟨hs, recvs⟩ := h.outside i far
    simp [P2pQueues.dequeue, hs, recvs]
  have paired := h.paired
  simp only [P2pQueues.dequeue]
  by_cases own : s = comm.rank
  · rw [if_pos own.symm, if_pos (self.mp own).symm]
    simp [paired]
  · rw [if_neg (Ne.symm own), if_neg (Ne.symm fun ht => own (self.mpr ht))]
    exact paired

section Rounds

variable {comm : Comm} {budget : Budget}

variable {plan : KernelPlan} {queues : P2pQueues}

def RoundResult.All (usage : Prop) (full next : KernelPlan → P2pQueues → Prop) : RoundResult → Prop
  | .invalidUsage => usage
  | .planFull plan queues => full plan queues
  | .next plan queues => next plan queues

def Ends (comm : Comm) (budget : Budget) (inv : KernelPlan → P2pQueues → Prop) (result : RoundResult) : Prop :=
  result.All True (fun plan queues => inv plan queues ∧ fitsPair comm budget plan = false) inv

section All

variable {usage : Prop} {full inv : KernelPlan → P2pQueues → Prop} (preserves : ∀ plan queues p2pRound p,
  comm.p2pSchedule[p2pRound]? = some p → inv plan queues →
    (scheduleRound comm budget plan queues p2pRound p.1 p.2).All usage full inv)
include preserves

theorem scheduleRounds_all (rounds : List (Nat × Nat)) (p2pRound : Nat)
    (rest : comm.p2pSchedule.drop p2pRound = rounds) (start : inv plan queues) :
    (scheduleRounds comm budget p2pRound rounds plan queues).All usage full inv := by
  induction rounds generalizing p2pRound plan queues with
  | nil => exact start
  | cons p others ih =>
    have scheduled : comm.p2pSchedule[p2pRound]? = some p := by
      rw [← head?_drop, rest]
      rfl
    have next : comm.p2pSchedule.drop (p2pRound + 1) = others := by
      rw [← tail_drop, rest]
      rfl
    have kept := preserves plan queues p2pRound p scheduled start
    simp only [scheduleRounds]
    cases result : scheduleRound comm budget plan queues p2pRound p.1 p.2 with
    | next plan' queues' =>
      rw [result] at kept
      exact ih (p2pRound + 1) next kept
    | planFull plan' queues' => rwa [result] at kept
    | invalidUsage => rwa [result] at kept

theorem scheduleTurns_all (fuel : Nat) (start : inv plan queues) :
    (scheduleTurns comm budget fuel plan queues).All usage full inv := by
  induction fuel generalizing plan queues with
  | zero => exact start
  | succ fuel ih =>
    simp only [scheduleTurns]
    split
    · exact start
    have kept := scheduleRounds_all preserves comm.p2pSchedule 0 rfl start
    cases result : scheduleRounds comm budget 0 comm.p2pSchedule plan queues with
    | next plan' queues' =>
      rw [result] at kept
      exact ih kept
    | planFull plan' queues' => rwa [result] at kept
    | invalidUsage => rwa [result] at kept

end All

theorem scheduleTurns_ends (inv : KernelPlan → P2pQueues → Prop)
    (preserves : ∀ plan queues p2pRound p result, p ∈ comm.p2pSchedule → inv plan queues →
      RoundStep comm budget plan queues p2pRound p.1 p.2 result → Ends comm budget inv result) (fuel : Nat)
    (start : inv plan queues) :
    Ends comm budget inv (scheduleTurns comm budget fuel plan queues) := by
  refine scheduleTurns_all ?_ fuel start
  intro plan queues p2pRound p hs kept
  exact preserves plan queues p2pRound p _ (mem_of_getElem? hs) kept (scheduleRound_step ..)

variable {p2pRound : Nat} {p : Nat × Nat} {result : RoundResult}

variable {s r : Nat} {α : Type}

theorem heads_ne_nil {send recv : Option α} (some' : send ≠ none ∨ recv ≠ none) :
    send.toList ++ recv.toList ≠ [] := by
  cases send <;> cases recv <;> simp_all

theorem dequeue_shrinks (valid : queues.Valid comm)
    (some' : (queues.send s).head? ≠ none ∨ (queues.recv r).head? ≠ none) :
    (queues.dequeue s r).nTasks < queues.nTasks := by
  have counts := (queues.dequeue_nTasks valid s r).1
  have taken := length_pos_of_ne_nil (heads_ne_nil some')
  rw [length_append] at taken
  omega

theorem inPlace_own {send recv : Option P2pTask} (copy : inPlace comm s send recv) :
    s = comm.rank ∧ send ≠ none := by
  cases send with
  | none => exact copy.elim
  | some send =>
    cases recv with
    | none => exact copy.elim
    | some recv => exact ⟨copy.1, by simp⟩

theorem scheduleRound_fewer (budget : Budget) (plan : KernelPlan) (p2pRound : Nat) (scheduled : p ∈ comm.p2pSchedule)
    (valid : queues.Valid comm) : (scheduleRound comm budget plan queues p2pRound p.1 p.2).All False
      (fun plan' queues' => plan' = plan ∧ queues' = queues)
      fun plan' queues' => queues'.Valid comm ∧ (queues'.nTasks < queues.nTasks ∨
        plan' = plan ∧ queues' = queues ∧ (queues.send p.1).head? = none ∧ (queues.recv p.2).head? = none) := by
  have self := comm.selfRound p scheduled
  have step := scheduleRound_step comm budget plan queues p2pRound p.1 p.2
  generalize scheduleRound comm budget plan queues p2pRound p.1 p.2 = result at step
  cases step with
  | idle noSend noRecv => exact ⟨valid, .inr ⟨rfl, rfl, noSend, noRecv⟩⟩
  | skip copy => exact ⟨valid.dequeue self, .inl (dequeue_shrinks valid (.inl (inPlace_own copy).2))⟩
  | add _ some' => exact ⟨valid.dequeue self, .inl (dequeue_shrinks valid some')⟩
  | full => exact ⟨rfl, rfl⟩
  | invalid own unpaired =>
    have paired := valid.paired
    rw [own, self.mp own] at unpaired
    cases hs : queues.send comm.rank with
    | nil =>
      rw [hs] at paired unpaired
      rw [length_eq_zero_iff.mp paired.symm] at unpaired
      exact unpaired rfl
    | cons send rest =>
      cases hr : queues.recv comm.rank with
      | nil => simp [hs, hr] at paired
      | cons recv rest' => simp [hs, hr] at unpaired

variable {plan' : KernelPlan} {queues' : P2pQueues}

theorem scheduleRounds_shrinks (rounds : List (Nat × Nat)) (within : ∀ p ∈ rounds, p ∈ comm.p2pSchedule)
    (p2pRound : Nat) (valid : queues.Valid comm)
    (ran : scheduleRounds comm budget p2pRound rounds plan queues = .next plan' queues') :
    queues'.Valid comm ∧ (queues'.nTasks < queues.nTasks ∨ queues' = queues ∧
      ∀ p ∈ rounds, (queues.send p.1).head? = none ∧ (queues.recv p.2).head? = none) := by
  induction rounds generalizing p2pRound plan queues with
  | nil =>
    obtain ⟨-, rfl⟩ := RoundResult.next.inj ran
    exact ⟨valid, .inr ⟨rfl, by simp⟩⟩
  | cons p rest ih =>
    obtain ⟨here, later⟩ := forall_mem_cons.mp within
    have first := scheduleRound_fewer budget plan p2pRound here valid
    simp only [scheduleRounds] at ran
    generalize scheduleRound comm budget plan queues p2pRound p.1 p.2 = result at first ran
    cases result with
    | next plan₁ queues₁ =>
      obtain ⟨valid₁, first⟩ := first
      obtain ⟨valid', more⟩ := ih later _ valid₁ ran
      refine ⟨valid', ?_⟩
      rcases first with fewer | ⟨-, rfl, none⟩
      · rcases more with more | ⟨rfl, _⟩
        · exact .inl (more.trans fewer)
        · exact .inl fewer
      · exact more.imp_right fun ⟨same, heads⟩ => ⟨same, forall_mem_cons.mpr ⟨none, heads⟩⟩
    | planFull => cases ran
    | invalidUsage => cases ran

theorem scheduleRounds_progress (valid : queues.Valid comm) (some' : queues.nTasks ≠ 0)
    (ran : scheduleRounds comm budget 0 comm.p2pSchedule plan queues = .next plan' queues') :
    queues'.Valid comm ∧ queues'.nTasks < queues.nTasks := by
  obtain ⟨valid', hf | ⟨_, heads⟩⟩ := scheduleRounds_shrinks comm.p2pSchedule (fun _ h => h) 0 valid ran
  · exact ⟨valid', hf⟩
  refine absurd ?_ some'
  have sends : ∀ r < comm.nRanks, queues.send r = [] := by
    intro r hi
    obtain ⟨p, hs, rfl⟩ := comm.coversSend r hi
    exact head?_eq_none_iff.mp (heads p hs).1
  have recvs : ∀ r < comm.nRanks, queues.recv r = [] := by
    intro r hi
    obtain ⟨p, hs, rfl⟩ := comm.coversRecv r hi
    exact head?_eq_none_iff.mp (heads p hs).2
  rw [valid.counted, P2pQueues.total, Nat.add_eq_zero_iff]
  constructor
  · exact Finset.sum_eq_zero fun r mem => by rw [sends r (Finset.mem_range.mp mem)]; rfl
  · exact Finset.sum_eq_zero fun r mem => by rw [recvs r (Finset.mem_range.mp mem)]; rfl

theorem scheduleTurns_drains (fuel : Nat) (valid : queues.Valid comm) (enough : queues.nTasks ≤ fuel)
    (ran : scheduleTurns comm budget fuel plan queues = .next plan' queues') :
    queues'.nTasks = 0 := by
  induction fuel generalizing plan queues with
  | zero =>
    simp only [scheduleTurns, RoundResult.next.injEq] at ran
    rw [← ran.2]
    omega
  | succ fuel ih =>
    simp only [scheduleTurns] at ran
    split at ran
    next none' =>
      simp only [RoundResult.next.injEq] at ran
      rw [← ran.2]
      exact none'
    next some' =>
      cases result : scheduleRounds comm budget 0 comm.p2pSchedule plan queues with
      | next plan'' queues'' =>
        rw [result] at ran
        obtain ⟨kept, fewer⟩ := scheduleRounds_progress valid some' result
        exact ih kept (by omega) ran
      | planFull plan'' queues'' =>
        rw [result] at ran
        cases ran
      | invalidUsage =>
        rw [result] at ran
        cases ran

structure Scheduled (comm : Comm) (budget : Budget) (plan₀ : KernelPlan) (queues₀ : P2pQueues) (plan : KernelPlan)
    (queues : P2pQueues) : Prop where
  kernelFn : plan.kernelFn = plan₀.kernelFn
  collTasks : plan.collTasks = plan₀.collTasks
  workBytes : plan₀.workBytes ≤ plan.workBytes
  untouched : plan.p2pTasks = [] → plan = plan₀
  work : plan.p2pTasks ≠ [] → plan.workBytes ≠ 0
  log : ∃ log, Logged comm queues₀ queues plan.p2pTasks log
  skipped : plan.p2pTasks = [] → (OnlyInPlace comm queues ↔ OnlyInPlace comm queues₀)
  placed : plan.p2pTasks ≠ [] → ¬ OnlyInPlace comm queues₀ ∧ fitsPair comm budget plan₀ = true

theorem Scheduled.start (queues : P2pQueues) (blank : plan.p2pTasks = []) :
    Scheduled comm budget plan queues plan queues :=
  ⟨rfl, rfl, le_rfl, fun _ => rfl, fun some' => absurd blank some', ⟨[], fun _ _ => rfl, blank, nofun⟩,
    fun _ => Iff.rfl, fun some' => absurd blank some'⟩

theorem head_append_tail (f : Nat → List α) (a x : Nat) :
    f x = (if x = a then (f a).head?.toList else []) ++ if x = a then (f x).tail else f x := by
  by_cases here : x = a
  · subst here
    cases f x <;> simp
  · simp [here]

theorem Logged.single (queues : P2pQueues) (self : s = comm.rank ↔ r = comm.rank) :
    Logged comm queues (queues.dequeue s r) ((queues.heads s r).placed comm) [queues.heads s r] := by
  refine ⟨?_, by simp, by simpa [P2pQueues.heads] using self⟩
  intro side x
  rw [takenFrom, flatMap_singleton]
  cases side with
  | send => exact head_append_tail queues.send s x
  | recv => exact head_append_tail queues.recv r x

variable {before mid after : P2pQueues} {tasks tasks' : List P2pTask} {log log' : List Taken}

theorem Logged.trans (h : Logged comm before mid tasks log) (h' : Logged comm mid after tasks' log') :
    Logged comm before after (tasks ++ tasks') (log ++ log') := by
  refine ⟨?_, ?_, forall_mem_append.mpr ⟨h.self, h'.self⟩⟩
  · intro side x
    rw [h.order, h'.order, takenFrom, takenFrom, takenFrom, flatMap_append, append_assoc]
  · rw [h.placed, h'.placed, flatMap_append]

theorem Logged.mem_tasks (h : Logged comm before after tasks log) {side : Proxy.Side} {t : P2pTask}
    (other : r ≠ comm.rank) (queued : t ∈ before.of side r) : t ∈ after.of side r ∨ t ∈ tasks := by
  rw [h.order] at queued
  rcases mem_append.mp queued with ht | hl
  · obtain ⟨e, mem, here⟩ := mem_flatMap.mp ht
    split at here
    next peer =>
      have real : ¬ inPlace comm (e.peer .send) (e.task .send) (e.task .recv) := by
        intro copy
        have own := (inPlace_own copy).1
        cases side with
        | send => exact other (peer.trans own)
        | recv => exact other (peer.trans ((h.self e mem).mp own))
      rw [h.placed]
      refine .inr (mem_flatMap.mpr ⟨e, mem, ?_⟩)
      rw [Taken.placed, if_neg real]
      cases side with
      | send => exact mem_append_left _ here
      | recv => exact mem_append_right _ here
    · cases here
  · exact .inl hl

theorem OnlyInPlace.dequeue_iff (self : s = comm.rank ↔ r = comm.rank)
    (copy : inPlace comm s (queues.send s).head? (queues.recv r).head?) :
    OnlyInPlace comm (queues.dequeue s r) ↔ OnlyInPlace comm queues := by
  cases hs : queues.send s with
  | nil => simp [hs, inPlace] at copy
  | cons send sends =>
    cases hr : queues.recv r with
    | nil => simp [hr, inPlace] at copy
    | cons recv recvs =>
      simp only [hs, hr] at copy
      obtain rfl := copy.1
      obtain rfl := self.mp rfl
      simp +contextual [OnlyInPlace, P2pQueues.dequeue, hs, hr, copy.2]

theorem OnlyInPlace.heads (only : OnlyInPlace comm queues) (self : s = comm.rank ↔ r = comm.rank)
    (some' : (queues.send s).head? ≠ none ∨ (queues.recv r).head? ≠ none) :
    inPlace comm s (queues.send s).head? (queues.recv r).head? := by
  by_cases own : s = comm.rank
  · obtain rfl := own
    obtain rfl := self.mp rfl
    have same := only.2
    cases hs : queues.send comm.rank with
    | nil =>
      rw [hs] at same
      have recvAt : queues.recv comm.rank = [] := map_eq_nil_iff.mp same.symm
      simp [hs, recvAt] at some'
    | cons send sends =>
      cases recvAt : queues.recv comm.rank with
      | nil => simp [hs, recvAt] at same
      | cons recv recvs =>
        simp only [hs, recvAt, map_cons, cons.injEq] at same
        exact ⟨rfl, same.1⟩
  · have sends := (only.1 s own).1
    have recvs := (only.1 r fun ht => own (self.mpr ht)).2
    simp [sends, recvs] at some'

variable {plan₀ : KernelPlan}

theorem Scheduled.round {queues₀ : P2pQueues} (scheduled : p ∈ comm.p2pSchedule)
    (h : Scheduled comm budget plan₀ queues₀ plan queues)
    (step : RoundStep comm budget plan queues p2pRound p.1 p.2 result) :
    Ends comm budget (Scheduled comm budget plan₀ queues₀) result := by
  have self := comm.selfRound p scheduled
  cases step with
  | idle => exact h
  | skip copy =>
    obtain ⟨log, logged⟩ := h.log
    have dropped : (queues.heads p.1 p.2).placed comm = [] := if_pos copy
    have taken := logged.trans (Logged.single queues self)
    rw [dropped, append_nil] at taken
    exact { h with
      log := ⟨_, taken⟩
      skipped := fun none' => (OnlyInPlace.dequeue_iff self copy).trans (h.skipped none') }
  | add copies some' real fits =>
    have placed := withP2p_places comm plan p2pRound p.1 p.2 (queues.send p.1).head? (queues.recv p.2).head? copies
    generalize withP2p comm plan p2pRound p.1 p.2 _ _ copies = plan' at placed ⊢
    have taken : plan'.p2pTasks ≠ [] := by
      rw [placed.p2pTasks]
      exact append_ne_nil_of_right_ne_nil _ (heads_ne_nil some')
    have more := placed.workBytes
    have size := devWorkSize_pos .p2p
    obtain ⟨log, logged⟩ := h.log
    have logged := logged.trans (Logged.single queues self)
    have kept : (queues.heads p.1 p.2).placed comm = _ := if_neg real
    rw [kept] at logged
    refine ⟨placed.kernelFn.trans h.kernelFn, placed.collTasks.trans h.collTasks, ?_,
      fun none' => absurd none' taken, fun _ => by omega, ⟨_, placed.p2pTasks ▸ logged⟩,
      fun none' => absurd none' taken, fun _ => ?_⟩
    · have before := h.workBytes
      omega
    · by_cases none' : plan.p2pTasks = []
      · exact ⟨fun only => real (((h.skipped none').mpr only).heads self some'), h.untouched none' ▸ fits⟩
      · exact h.placed none'
  | full some' real tight => exact ⟨h, tight⟩
  | invalid => trivial

def Shrunk (comm : Comm) (n : Nat) (plan : KernelPlan) (queues : P2pQueues) : Prop :=
  queues.Valid comm ∧ queues.nTasks ≤ n ∧ (plan.p2pTasks ≠ [] → queues.nTasks < n)

theorem Shrunk.round {n : Nat} (scheduled : p ∈ comm.p2pSchedule) (h : Shrunk comm n plan queues) :
    (scheduleRound comm budget plan queues p2pRound p.1 p.2).All False (Shrunk comm n) (Shrunk comm n) := by
  have first := scheduleRound_fewer budget plan p2pRound scheduled h.1
  generalize scheduleRound comm budget plan queues p2pRound p.1 p.2 = result at first
  cases result with
  | next plan' queues' =>
    obtain ⟨valid, fewer | ⟨rfl, rfl, -⟩⟩ := first
    · have bound := lt_of_lt_of_le fewer h.2.1
      exact ⟨valid, bound.le, fun _ => bound⟩
    · exact h
  | planFull =>
    obtain ⟨rfl, rfl⟩ := first
    exact h
  | invalidUsage => exact first

theorem Scheduled.idle {queues₀ : P2pQueues} (h : Scheduled comm budget plan₀ queues₀ plan queues)
    (before : OnlyInPlace comm queues₀ ∨ fitsPair comm budget plan₀ = false) : plan.p2pTasks = [] := by
  by_contra some'
  obtain ⟨real, fits⟩ := h.placed some'
  rcases before with only | tight
  · exact real only
  · rw [tight] at fits
    cases fits

end Rounds

def p2pKernel (plan : KernelPlan) : KernelPlan :=
  { plan with
    kernelFn := if plan.kernelSpecialized then plan.kernelFn else some (kernelForFunc .sendRecv)
    kernelSpecialized := plan.kernelSpecialized || kernelForFuncIsSpecialized .sendRecv }

structure P2pOutcome (comm : Comm) (budget : Budget) (plan₀ : KernelPlan) (queues₀ : P2pQueues)
    (plan : KernelPlan) (queues : P2pQueues) : Prop where
  scheduled : Scheduled comm budget (p2pKernel plan₀) queues₀ plan queues
  valid : queues.Valid comm
  nothing : plan.p2pTasks = [] ↔ OnlyInPlace comm queues₀ ∨ fitsPair comm budget plan₀ = false
  bound : queues.nTasks ≤ queues₀.nTasks
  progress : fitsPair comm budget plan₀ = true → queues₀.nTasks ≠ 0 → queues.nTasks < queues₀.nTasks

theorem OnlyInPlace.of_valid {comm : Comm} {queues : P2pQueues} (valid : queues.Valid comm)
    (none' : queues.nTasks = 0) : OnlyInPlace comm queues := by
  refine ⟨fun r _ => valid.empty none' r, ?_⟩
  rw [(valid.empty none' comm.rank).1, (valid.empty none' comm.rank).2]

theorem scheduleP2pTasksToPlan_outcome (comm : Comm) (budget : Budget) {plan₀ : KernelPlan}
    {queues₀ : P2pQueues} (blank : plan₀.p2pTasks = []) (valid : queues₀.Valid comm) :
    ∃ plan queues, (scheduleP2pTasksToPlan comm budget plan₀ queues₀ = .next plan queues ∨
      scheduleP2pTasksToPlan comm budget plan₀ queues₀ = .planFull plan queues) ∧
      P2pOutcome comm budget plan₀ queues₀ plan queues := by
  have fits : fitsPair comm budget (p2pKernel plan₀) = fitsPair comm budget plan₀ := rfl
  have scheduled : Ends comm budget (Scheduled comm budget (p2pKernel plan₀) queues₀)
      (scheduleP2pTasksToPlan comm budget plan₀ queues₀) :=
    scheduleTurns_ends _ (fun _ _ _ _ _ mem h step => h.round mem step) queues₀.nTasks
      (Scheduled.start queues₀ blank)
  have shrinks : (scheduleP2pTasksToPlan comm budget plan₀ queues₀).All False (Shrunk comm queues₀.nTasks)
      (Shrunk comm queues₀.nTasks) :=
    scheduleTurns_all (fun _ _ _ _ hs h => h.round (mem_of_getElem? hs)) queues₀.nTasks
      ⟨valid, le_rfl, fun some' => absurd blank some'⟩
  cases result : scheduleP2pTasksToPlan comm budget plan₀ queues₀ with
  | invalidUsage =>
    rw [result] at shrinks
    exact shrinks.elim
  | next plan queues =>
    rw [result] at scheduled shrinks
    have drained : queues.nTasks = 0 := scheduleTurns_drains queues₀.nTasks valid le_rfl result
    refine ⟨plan, queues, .inl rfl, scheduled, shrinks.1, ?_, shrinks.2.1, ?_⟩
    · constructor
      · intro none'
        exact .inl ((scheduled.skipped none').mp (OnlyInPlace.of_valid shrinks.1 drained))
      · exact scheduled.idle
    · intro _ some'
      omega
  | planFull plan queues =>
    rw [result] at scheduled shrinks
    obtain ⟨scheduled, ht⟩ := scheduled
    have none_tight : plan.p2pTasks = [] → fitsPair comm budget plan₀ = false := by
      intro none'
      rw [← fits, ← scheduled.untouched none']
      exact ht
    refine ⟨plan, queues, .inr rfl, scheduled, shrinks.1, ?_, shrinks.2.1, ?_⟩
    · constructor
      · intro none'
        exact .inr (none_tight none')
      · exact scheduled.idle
    · intro hr _
      refine shrinks.2.2 fun none' => ?_
      rw [none_tight none'] at hr
      cases hr

theorem buildPlan_plan {comm : Comm} {budget : Budget} {tasks rest : Tasks} {plan : KernelPlan}
    (good : KernelPlan → Prop) (built : buildPlan comm budget tasks = some (plan, rest))
    (drained : good (drainColls comm budget tasks.colls).1)
    (placed : (scheduleTurns comm budget tasks.p2ps.nTasks (p2pKernel (drainColls comm budget tasks.colls).1)
      tasks.p2ps).All True (fun plan _ => good plan) fun plan _ => good plan) : good plan := by
  simp only [buildPlan] at built
  split at built
  · split at built
    · contradiction
    all_goals
      rename_i result
      obtain rfl := (Prod.mk.inj (Option.some.inj built)).1
      rw [scheduleP2pTasksToPlan, ← p2pKernel] at result
      rwa [result] at placed
  · exact (Prod.mk.inj (Option.some.inj built)).1 ▸ drained

theorem buildPlan_ops {comm : Comm} {budget : Budget} {tasks rest : Tasks} {plan : KernelPlan}
    (built : buildPlan comm budget tasks = some (plan, rest)) : ∀ c, P2pOps c (plan.channels c) := by
  have drained : ∀ c, P2pOps c ((drainColls comm budget tasks.colls).1.channels c) :=
    fun c => ((drainColls_spec comm budget tasks.colls).1.ops c).toP2pOps
  refine buildPlan_plan (fun plan => ∀ c, P2pOps c (plan.channels c)) built drained
    (scheduleTurns_all ?_ _ drained)
  intro plan queues p2pRound p _ ops
  have step := scheduleRound_step comm budget plan queues p2pRound p.1 p.2
  generalize scheduleRound comm budget plan queues p2pRound p.1 p.2 = result at step
  cases step with
  | add copies => exact (withP2p_places ..).ops ops
  | invalid => trivial
  | _ => exact ops

end Vccl.Plan
