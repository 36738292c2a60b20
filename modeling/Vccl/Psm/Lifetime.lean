import Vccl.Psm.Balance

/-! When the `psmSyncCondition` of a plan is deleted once and not accessed later. -/
namespace Vccl.Psm

open List Transition

structure Launch.Settled (m : Launch) : Prop where
  finishable : ∀ a ∈ m.args, a.kind.isPsm = true → Finishable m.env a
  total : m.total = m.opCount

variable {m : Launch} {s : State} {c : SyncCondition}

theorem poll_release {uploaded : List Args} (h : Running m s c uploaded) (waiting : s.callback = .waiting)
    (zero : c.proxyOpCount = 0) :
    step m s .callbackPoll = some s.release := by
  simp [step, waiting, h.sync, zero, State.release, h.deletes]

theorem deleted_from (valid : m.Valid) (callback : m.callback = true) {left : Nat} {t : State}
    (reached : Reaches m (initial m (left + 1)) t) :
    t.deletes = 0 ∨ ∃ s c uploaded, Reaches m (initial m (left + 1)) s ∧ Running m s c uploaded ∧
      s.callback = .waiting ∧ c.proxyOpCount = 0 ∧ s.left = left := by
  refine or_iff_not_imp_right.mpr fun never => ?_
  have inv := reachable_invariant
    (fun t => Reaches m (initial m (left + 1)) t ∧ (t = initial m (left + 1) ∨
      ∃ c uploaded, Running m t c uploaded ∧ t.left = left)) ⟨Reachable.refl _, .inl rfl⟩ ?_ reached
  · rcases inv.2 with rfl | ⟨c, uploaded, h, -⟩
    · rfl
    · exact h.deletes
  · rintro s a _ ⟨here, rfl | ⟨c, uploaded, h, same⟩⟩ next
    all_goals refine ⟨here.trans (.single next), .inr ?_⟩
    · obtain ⟨-, rfl⟩ := initial_step next
      exact ⟨_, _, launched_running callback (left + 1) left, rfl⟩
    · rcases h.step valid next with ⟨c', uploaded', hr, left', -⟩ | ⟨waiting, zero, -⟩
      · exact ⟨c', uploaded', hr, left'.trans same⟩
      · exact absurd ⟨s, c, uploaded, here, h, waiting, zero, same⟩ never

theorem uploads (valid : m.Valid) {uploaded : List Args} (h : Running m s c uploaded)
    (waiting : s.callback = .waiting) {left : Nat} (same : s.left = left) :
    ∃ t uploaded', Reaches m s t ∧ Running m t c uploaded' ∧ t.callback = .waiting ∧ t.left = left ∧
      t.pending = [] := by
  let P : State → Prop := fun s => ∃ uploaded, Running m s c uploaded ∧ s.callback = .waiting ∧ s.left = left
  have moves : ∀ s, P s → ¬ s.pending = [] →
      ∃ a t, step m s a = some t ∧ P t ∧ t.pending.length < s.pending.length := by
    rintro s ⟨uploaded, h, waiting, same⟩ more
    cases pending : s.pending with
    | nil => exact absurd pending more
    | cons args rest =>
      exact ⟨.upload, _, by simp [step, pending], ⟨_, (h.upload valid pending).1, waiting, same⟩,
        by simp⟩
  obtain ⟨t, hr, ⟨uploaded', h', hw', same'⟩, done⟩ := reaches_goal P (fun s => s.pending = [])
    (fun s => s.pending.length) moves ⟨uploaded, h, waiting, same⟩
  exact ⟨t, uploaded', hr, h', hw', same', done⟩

theorem Released.settled (valid : m.Valid) {launches : Nat} (released : Released m launches) :
    m.callback = true ∧ launches = 1 ∧ m.Settled := by
  obtain ⟨t, hr, deleted⟩ := released.ends _ (Reachable.refl _)
  have callback : m.callback = true := by
    by_contra none
    have := (no_callback (by simpa using none) hr).2
    omega
  cases launches with
  | zero =>
    rw [no_launch hr] at deleted
    contradiction
  | succ left =>
    obtain ⟨s, c, _, hb, h, hw, zero, same⟩ :=
      (deleted_from valid callback hr).resolve_left (by omega)
    obtain ⟨u, _, hre, h', hw', _, done⟩ := uploads valid h hw same
    have here := hb.trans hre
    have once : left = 0 := by
      by_contra more
      obtain ⟨v, hl, -, -, -, bad⟩ := second_launch callback h' hw' zero (by omega)
      have := (released.safe v (here.trans hl)).2
      rw [bad] at this
      contradiction
    have all : AllRetired u := by
      refine ⟨done, ?_⟩
      by_contra some'
      -- the first args that are not finished read the event of the deleted object
      obtain ⟨i, _, at', ⟨psm, active⟩, first⟩ := exists_first
        (p := fun a => a.kind.isPsm = true ∧ a.state ≠ .none) (by simpa using some')
      have free := not_waitsFor valid h' at' psm first
      have bad : run (step m) u [.callbackPoll, .progress i .yes] =
          some { u.release with badAccess := true } := by
        simp only [run, poll_release h' hw' zero]
        simp [step, State.release, at', active, free, progressStep, psm]
      have := (released.safe _ (here.trans ⟨_, bad⟩)).2
      contradiction
    have ended := h'.count_retired valid all
    exact ⟨callback, by omega, h'.finishable all, by omega⟩

structure Freed (s : State) : Prop where
  sync : s.sync = none
  deletes : s.deletes = 1
  clean : s.badAccess = false
  callback : s.callback = .idle
  left : s.left = 0
  pending : ∀ a ∈ s.pending, a.kind.isPsm = false
  active : ∀ a ∈ s.active, a.kind.isPsm = true → a.state = .none

theorem Freed.step {s' : State} {a : Action} (h : Freed s) (next : step m s a = some s') : Freed s' := by
  cases a with
  | launch => simp [Psm.step, h.left] at next
  | callbackStart => simp [Psm.step, h.callback] at next
  | callbackPoll => simp [Psm.step, h.callback] at next
  | upload =>
    obtain ⟨args, _, hp, rfl⟩ := upload_some next
    have others := h.pending
    rw [hp] at others
    refine { h with pending := fun a m => others a (by simp [m]), active := forall_mem_append.mpr ⟨h.active, ?_⟩ }
    intro a new psm
    rw [mem_singleton.mp new, others args (by simp)] at psm
    contradiction
  | progress i answers =>
    obtain ⟨args, here, ha, rfl⟩ := progress_some next
    have other : args.kind.isPsm = false := by
      by_contra psm
      exact ha (h.active args (mem_of_getElem? here) (by simpa using psm))
    have kind := proxyProgress_kind m.env args answers
    simp only [progressStep, other]
    refine { h with active := ?_ }
    intro a mem psm
    rcases mem_or_eq_of_mem_set mem with old | rfl
    · exact h.active a old psm
    · rw [kind.1, other] at psm
      contradiction

theorem Driven.released (valid : m.Valid) (settled : m.Settled) (h : Driven m (fun _ => True) 0 s) :
    ∃ t, Reaches m s t ∧ t.deletes = 1 := by
  obtain ⟨t, hr, ⟨c, _, h', hw, -⟩, all⟩ := h.ends valid settled.finishable
    (fun _ _ => trivial)
  have ended := h'.count_retired valid all
  have total := settled.total
  exact ⟨t.release, hr.trans (.single (poll_release h' hw (by omega))), rfl⟩

theorem Launch.Settled.released (valid : m.Valid) (callback : m.callback = true) (settled : m.Settled) :
    Released m 1 := by
  have ends : ∀ s c uploaded, Running m s c uploaded → s.left = 0 → c.proxyOpCount = 0 → Freed s.release := by
    intro s c uploaded h left zero
    have remaining := h.remaining
    have total := settled.total
    obtain ⟨hp, active⟩ := (h.openSubs_eq_zero valid).mp (by omega)
    exact ⟨rfl, rfl, h.clean, rfl, left, hp, active⟩
  have inv := fun s => @only_launch m s valid callback Freed ends fun _ _ _ hf next => hf.step next
  refine ⟨?_, ?_⟩
  · intro s hr
    rcases inv s hr with rfl | ⟨c, uploaded, h, -⟩ | hf
    · exact ⟨by simp [initial], rfl⟩
    · exact ⟨by rw [h.deletes]; omega, h.clean⟩
    · exact ⟨by rw [hf.deletes], hf.clean⟩
  · intro s hr
    rcases inv s hr with rfl | ⟨c, uploaded, h, left⟩ | hf
    · obtain ⟨t, first, driven⟩ := reaches_driven callback (fun _ => True) 0
      obtain ⟨u, hs, deleted⟩ := driven.released valid settled
      exact ⟨u, first.trans hs, deleted⟩
    · rcases h.stage with ⟨he, _⟩ | ⟨hw, _⟩
      · have driven : Driven m (fun _ => True) 0 { s with
            sync := some { c with proxyReadyEvent := true }, callback := .waiting } :=
          ⟨_, uploaded, { h with sync := rfl, stage := .inr ⟨rfl, rfl⟩ }, rfl, left, fun _ _ _ => trivial⟩
        obtain ⟨u, hs, deleted⟩ := driven.released valid settled
        exact ⟨u, (Reachable.single (a := .callbackStart) (by simp [step, he, h.sync])).trans hs, deleted⟩
      · have driven : Driven m (fun _ => True) 0 s :=
          ⟨c, uploaded, h, hw, left, fun _ _ _ => trivial⟩
        exact driven.released valid settled
    · exact ⟨s, Reachable.refl s, hf.deletes⟩

open Proxy (Appended ProxyOp proxySaveOp)

section Plan

variable {env : Env} {comm : Proxy.Comm} {plan : Plan.KernelPlan}

theorem psm_entry_unique {op : ProxyOp} {e e' : Appended} (here : e ∈ proxySaveOp comm op)
    (psm : onPsm e = true) (there : e' ∈ proxySaveOp comm op) (psm' : onPsm e' = true) : e = e' := by
  have few := psm_entries_le comm op
  rw [countP_eq_length_filter] at few
  have first := mem_filter.mpr ⟨here, psm⟩
  have second := mem_filter.mpr ⟨there, psm'⟩
  obtain ⟨_, single⟩ := length_eq_one_iff.mp (Nat.le_antisymm few (length_pos_of_mem first))
  rw [single, mem_singleton] at first second
  rw [first, second]

def FinishesOnPsm (env : Env) (comm : Proxy.Comm) (op : ProxyOp) : Prop :=
  ∃ e ∈ proxySaveOp comm op, onPsm e = true ∧ finishes env e = true

theorem settled_iff (ops : ∀ c, Plan.P2pOps c (plan.channels c)) :
    (planLaunch env comm plan).Settled ↔ ∀ op ∈ plan.proxyOpQueue, FinishesOnPsm env comm op := by
  constructor
  · intro hs op hq
    have finish := (finishable_iff ops).mp hs.finishable
    have one := total_iff.mp hs.total op hq
    obtain ⟨e, here, psm⟩ := countP_pos_iff.mp (by omega : 0 < (proxySaveOp comm op).countP onPsm)
    exact ⟨e, here, psm, finish e (mem_flatMap.mpr ⟨op, hq, here⟩) psm⟩
  · intro once
    refine ⟨(finishable_iff ops).mpr ?_, total_iff.mpr ?_⟩
    · intro e mem psm
      obtain ⟨op, hq, here⟩ := mem_flatMap.mp mem
      obtain ⟨_, ht, psm', finish⟩ := once op hq
      rwa [psm_entry_unique here psm ht psm']
    · intro op hq
      obtain ⟨e, here, psm, -⟩ := once op hq
      have some' : 0 < (proxySaveOp comm op).countP onPsm := countP_pos_iff.mpr ⟨e, here, psm⟩
      have few := psm_entries_le comm op
      omega

end Plan

/-- A plan without work is dropped after `finishPlan`. -/
def launchesOf (plan : Plan.KernelPlan) (launches : Nat) : Nat :=
  if plan.workBytes ≠ 0 then launches else 0

/-- The object of a plan is deleted once and not accessed later if and only if the plan is
launched, through the callback, exactly once, and each of its ops comes to an end on a PSM
connection. -/
theorem syncCondition_released_iff (env : Env) (comm : Plan.Comm) (budget : Plan.Budget)
    (tasks rest : Plan.Tasks) (plan : Plan.KernelPlan)
    (built : Plan.buildPlan comm budget tasks = some (plan, rest)) (launches : Nat) :
    Released (planLaunch env comm.toComm plan) (launchesOf plan launches) ↔
      plan.workBytes ≠ 0 ∧ plan.callback = true ∧ launches = 1 ∧
        ∀ op ∈ plan.proxyOpQueue, FinishesOnPsm env comm.toComm op := by
  have ops := Plan.buildPlan_ops built
  have valid : (planLaunch env comm.toComm plan).Valid := planLaunch_valid ops
  rw [← settled_iff ops]
  constructor
  · intro hr
    obtain ⟨callback, once, hs⟩ := hr.settled valid
    unfold launchesOf at once
    split at once
    next work =>
      exact ⟨work, callback, once, hs⟩
    · contradiction
  · rintro ⟨work, callback, once, hs⟩
    rw [launchesOf, if_pos work, once]
    exact hs.released valid callback

theorem sendOp_finishes {plan : Plan.KernelPlan} (queue : plan.proxyOpQueue = [sendOp]) :
    ∀ op ∈ plan.proxyOpQueue, FinishesOnPsm defaultEnv Plan.pairComm.toComm op := by
  rw [queue]
  exact forall_mem_singleton.mpr ⟨_, mem_singleton.mpr rfl, rfl, by decide +kernel⟩

theorem send_plan_released : ∃ plan rest,
    Plan.buildPlan Plan.pairComm (Plan.planBudget Plan.pairComm false) ⟨[], Plan.oneSend⟩ =
      some (plan, rest) ∧
    Released (planLaunch defaultEnv Plan.pairComm.toComm plan) (launchesOf plan 1) := by
  obtain ⟨plan, rest, hb, hc, _, queue⟩ := oneSend_plan false
  exact ⟨plan, rest, hb, (syncCondition_released_iff defaultEnv Plan.pairComm _ _ rest plan hb
    1).mpr ⟨by omega, hc, rfl, sendOp_finishes queue⟩⟩

/-- A captured graph with one send, launched twice: the callback of the second launch writes the
object the first one deleted. -/
theorem replayed_send_uses_deleted : ∃ plan rest,
    Plan.buildPlan Plan.pairComm (Plan.planBudget Plan.pairComm true) ⟨[], Plan.oneSend⟩ =
      some (plan, rest) ∧
    ∃ s, Reaches (planLaunch defaultEnv Plan.pairComm.toComm plan)
        (initial (planLaunch defaultEnv Plan.pairComm.toComm plan) (launchesOf plan 2)) s ∧
      s.deletes = 1 ∧ s.badAccess = true := by
  obtain ⟨plan, rest, hb, hc, _, queue⟩ := oneSend_plan true
  have ops := Plan.buildPlan_ops hb
  have valid : (planLaunch defaultEnv Plan.pairComm.toComm plan).Valid := planLaunch_valid ops
  have settled := (@settled_iff defaultEnv _ _ ops).mpr (sendOp_finishes queue)
  refine ⟨plan, rest, hb, ?_⟩
  rw [launchesOf, if_pos (by omega)]
  have through : (planLaunch defaultEnv Plan.pairComm.toComm plan).callback = true := hc
  obtain ⟨s, first, hd⟩ := reaches_driven through (fun _ => True) 1
  obtain ⟨t, hs, ⟨c, _, h, hw, _, -⟩, all⟩ :=
    hd.ends valid settled.finishable (fun _ _ => trivial)
  have zero : c.proxyOpCount = 0 := by
    have ended := h.count_retired valid all
    have total := settled.total
    omega
  obtain ⟨u, ht, -, -, deletes, bad⟩ := second_launch through h hw zero (by omega)
  exact ⟨u, (first.trans hs).trans ht, deletes, bad⟩

end Vccl.Psm
