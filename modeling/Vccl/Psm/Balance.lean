import Vccl.Psm.Sync
import Vccl.Plan.Separation

/-! When `proxyOpCount` is what the progress functions subtract from it. -/
namespace Vccl.Psm

open List Transition

def psmSubs (args : Args) : Nat := if args.kind.isPsm then args.nsubs else 0

def Launch.total (m : Launch) : Nat := (m.args.map psmSubs).sum

def openSubs (args : Args) : Nat := if args.state = .none then 0 else psmSubs args

theorem retired_add_open (args : Args) : retired args + openSubs args = psmSubs args := by
  unfold retired openSubs psmSubs
  cases psm : args.kind.isPsm with
  | false => simp
  | true =>
    by_cases none : args.state = .none
    · simp [none]
    · simp [none]

variable {uploaded : List Args}

theorem Tracks.psmSubs_eq {env : Env} {active : List Args} (h : Tracks env uploaded active) :
    active.map psmSubs = uploaded.map psmSubs := by
  induction h with
  | nil => rfl
  | cons evolved _ ih =>
    rw [map_cons, map_cons, ih, psmSubs, psmSubs, evolved.kind, if_ctx_congr Iff.rfl evolved.nsubs fun _ => rfl]

theorem Tracks.new_of_mem {env : Env} {active : List Args} (h : Tracks env uploaded active) {a : Args}
    (mem : a ∈ uploaded) : ∃ new ∈ active, Evolved env a new := by
  induction h with
  | nil => contradiction
  | cons evolved _ ih =>
    rw [exists_mem_cons_iff]
    rcases mem_cons.mp mem with rfl | later
    · exact .inl evolved
    · exact .inr (ih later)

def State.openSubs (s : State) : Nat :=
  (s.pending.map psmSubs).sum + (s.active.map Psm.openSubs).sum

variable {m : Launch} {s : State} {c : SyncCondition}

theorem Running.remaining (h : Running m s c uploaded) : c.proxyOpCount + m.total = m.opCount + s.openSubs := by
  have parts : (s.active.map retired).sum + (s.active.map openSubs).sum = (s.active.map psmSubs).sum := by
    rw [← sum_map_add]
    simp [retired_add_open]
  have total : m.total = (uploaded.map psmSubs).sum + (s.pending.map psmSubs).sum := by
    rw [Launch.total, h.split, map_append, sum_append]
  rw [h.tracks.psmSubs_eq] at parts
  have := h.count
  simp only [State.openSubs]
  omega

theorem Running.openSubs_eq_zero (valid : m.Valid) (h : Running m s c uploaded) :
    s.openSubs = 0 ↔ (∀ a ∈ s.pending, a.kind.isPsm = false) ∧
      ∀ a ∈ s.active, a.kind.isPsm = true → a.state = .none := by
  have pending : ∀ a ∈ s.pending, (psmSubs a = 0 ↔ a.kind.isPsm = false) := by
    intro a mem
    have some' := valid.subs a (by rw [h.split]; exact mem_append_right _ mem)
    cases psm : a.kind.isPsm <;> simp [psmSubs, psm]
    omega
  have active : ∀ a ∈ s.active, (openSubs a = 0 ↔ (a.kind.isPsm = true → a.state = .none)) := by
    intro a mem
    obtain ⟨old, ht, he⟩ := h.old_of_mem mem
    cases psm : a.kind.isPsm with
    | false => simp [openSubs, psmSubs, psm]
    | true =>
      have some' : 0 < a.nsubs := by
        rw [he.nsubs (by rw [← he.kind]; exact psm)]
        exact valid.subs old ht
      by_cases none : a.state = .none
      · simp [openSubs, none]
      · simp only [openSubs, none, psmSubs, psm, if_true, if_false, forall_const, iff_false]
        omega
  simp only [State.openSubs, Nat.add_eq_zero_iff, sum_eq_zero_iff, mem_map,
    forall_exists_index, and_imp, forall_apply_eq_imp_iff₂]
  exact and_congr (forall₂_congr pending) (forall₂_congr active)

theorem Running.count_retired (valid : m.Valid) (h : Running m s c uploaded) (all : AllRetired s) :
    c.proxyOpCount + m.total = m.opCount := by
  have none := (h.openSubs_eq_zero valid).mpr ⟨by simp [all.1], all.2⟩
  rw [h.remaining, none]
  rfl

theorem Running.new_of_mem (h : Running m s c uploaded) (none : s.pending = []) {a : Args} (mem : a ∈ m.args) :
    ∃ new ∈ s.active, Evolved m.env a new := by
  rw [h.split, none, append_nil] at mem
  exact h.tracks.new_of_mem mem

theorem Running.finishable (h : Running m s c uploaded) (all : AllRetired s) :
    ∀ a ∈ m.args, a.kind.isPsm = true → Finishable m.env a := by
  intro a mem psm
  obtain ⟨new, ht, he⟩ := h.new_of_mem all.1 mem
  exact he.finished psm (all.2 new ht (by rw [he.kind]; exact psm))

theorem gone_step {s' : State} {a : Action} (gone : s.sync = none) (next : step m s a = some s') :
    s'.sync = none ∧ (s.callback = .idle → s.left = 0 → s'.callback = .idle ∧ s'.left = 0) := by
  cases a with
  | launch =>
    obtain ⟨more, ⟨⟩⟩ := Option.ite_none_right_eq_some.mp next
    exact ⟨gone, fun _ none => absurd none more.1⟩
  | upload =>
    obtain ⟨args, _, -, rfl⟩ := upload_some next
    exact ⟨gone, fun idle none => ⟨idle, none⟩⟩
  | callbackStart =>
    simp only [step, gone] at next
    obtain ⟨he, ⟨⟩⟩ := Option.ite_none_right_eq_some.mp next
    exact ⟨rfl, by simp [he]⟩
  | callbackPoll =>
    simp only [step, gone] at next
    obtain ⟨hw, ⟨⟩⟩ := Option.ite_none_right_eq_some.mp next
    exact ⟨rfl, by simp [hw]⟩
  | progress i answers =>
    obtain ⟨args, -, -, rfl⟩ := progress_some next
    simp only [progressStep, gone]
    split <;> exact ⟨rfl, fun idle none => ⟨idle, none⟩⟩

theorem waiting_until (valid : m.Valid) {left : Nat} {t : State} (h : Running m s c uploaded)
    (waiting : s.callback = .waiting) (same : s.left = left) (reached : Reaches m s t) :
    (∃ c' uploaded', Running m t c' uploaded' ∧ t.callback = .waiting ∧ t.left = left) ∨
      t.sync = none := by
  refine reachable_invariant (fun t => (∃ c' uploaded', Running m t c' uploaded' ∧
    t.callback = .waiting ∧ t.left = left) ∨ t.sync = none) (.inl ⟨c, uploaded, h, waiting, same⟩)
    ?_ reached
  rintro s a _ (⟨c, uploaded, h, waiting, same⟩ | gone) next
  · rcases h.step valid next with ⟨c', uploaded', hr, left', hs⟩ | ⟨-, -, rfl⟩
    · exact .inl ⟨c', uploaded', hr, hs waiting, left'.trans same⟩
    · exact .inr rfl
  · exact .inr (gone_step gone next).1

theorem second_launch (callback : m.callback = true) (h : Running m s c uploaded) (waiting : s.callback = .waiting)
    (zero : c.proxyOpCount = 0) (more : s.left ≠ 0) :
    ∃ t, Reaches m s t ∧ t.callback = .waiting ∧ t.sync = none ∧ t.deletes = 1 ∧
      t.badAccess = true := by
  refine ⟨{ s with
    sync := none
    deletes := s.deletes + 1
    badAccess := true
    left := s.left - 1
    callback := .waiting
    pending := s.pending ++ m.args },
    ⟨[.callbackPoll, .launch, .callbackStart], ?_⟩, rfl, rfl, by simp [h.deletes], rfl⟩
  simp [run, step, waiting, h.sync, zero, more, callback]

theorem no_launch (reached : Reaches m (initial m 0) s) :
    s = initial m 0 := by
  refine reachable_invariant (fun s => s = initial m 0) rfl ?_ reached
  rintro s a _ rfl next
  exact absurd rfl (initial_step next).1

theorem no_callback (none : m.callback = false) {launches : Nat} (reached : Reaches m (initial m launches) s) :
    s.callback = .idle ∧ s.deletes = 0 := by
  refine reachable_invariant (fun s => s.callback = .idle ∧ s.deletes = 0) ⟨rfl, rfl⟩ ?_
    reached
  rintro s a _ ⟨idle, deletes⟩ next
  cases a with
  | launch =>
    simp only [step, none] at next
    obtain ⟨-, ⟨⟩⟩ := Option.ite_none_right_eq_some.mp next
    exact ⟨rfl, deletes⟩
  | upload =>
    obtain ⟨args, _, -, rfl⟩ := upload_some next
    exact ⟨idle, deletes⟩
  | callbackStart => simp [step, idle] at next
  | callbackPoll => simp [step, idle] at next
  | progress i answers =>
    obtain ⟨args, -, -, rfl⟩ := progress_some next
    unfold progressStep
    repeat' split
    all_goals exact ⟨idle, deletes⟩

theorem only_launch (valid : m.Valid) (callback : m.callback = true) (Gone : State → Prop)
    (ends : ∀ s c uploaded, Running m s c uploaded → s.left = 0 → c.proxyOpCount = 0 → Gone s.release)
    (keeps : ∀ s a s', Gone s → step m s a = some s' → Gone s') (reached : Reaches m (initial m 1) s) :
    s = initial m 1 ∨ (∃ c uploaded, Running m s c uploaded ∧ s.left = 0) ∨ Gone s := by
  refine reachable_invariant (fun s => s = initial m 1 ∨
    (∃ c uploaded, Running m s c uploaded ∧ s.left = 0) ∨ Gone s) (.inl rfl) ?_ reached
  rintro s a s' (rfl | ⟨c, uploaded, h, left⟩ | gone) next
  · obtain ⟨-, rfl⟩ := initial_step next
    exact .inr (.inl ⟨_, _, launched_running callback 1 0, rfl⟩)
  · rcases h.step valid next with ⟨c', uploaded', hr, left', -⟩ | ⟨-, zero, rfl⟩
    · exact .inr (.inl ⟨c', uploaded', hr, left'.trans left⟩)
    · exact .inr (.inr (ends s c uploaded h left zero))
  · exact .inr (.inr (keeps s a s' gone next))

structure Launch.Matched (m : Launch) : Prop where
  psm : ∀ a ∈ m.args, a.kind.isPsm = true
  finishable : ∀ a ∈ m.args, Finishable m.env a
  total : m.total = m.opCount

theorem Launch.Matched.balanced (valid : m.Valid) (callback : m.callback = true) (matched : m.Matched) :
    Balanced m 1 := by
  intro s hre hw
  rcases only_launch valid callback (fun s => s.sync = none ∧ s.callback = .idle ∧ s.left = 0)
    (fun _ _ _ _ left _ => ⟨rfl, rfl, left⟩)
    (fun _ _ _ gone next => ⟨(gone_step gone.1 next).1, (gone_step gone.1 next).2 gone.2.1 gone.2.2⟩) hre
    with rfl | ⟨c, uploaded, h, left⟩ | ⟨-, idle, -⟩
  · contradiction
  · have remaining := h.remaining
    have zero := h.openSubs_eq_zero valid
    rw [matched.total] at remaining
    have allPsm : ∀ a ∈ s.active, a.kind.isPsm = true := by
      intro a mem
      obtain ⟨old, ht, he⟩ := h.old_of_mem mem
      rw [he.kind]
      exact matched.psm old ht
    refine ⟨c, h.sync, by omega, ?_, ?_⟩
    · rw [show c.proxyOpCount = 0 ↔ s.openSubs = 0 by omega, zero]
      constructor
      · rintro ⟨hp, active⟩
        refine ⟨eq_nil_iff_forall_not_mem.mpr fun a mem => ?_, fun a mem => active a mem (allPsm a mem)⟩
        have psm := matched.psm a (by rw [h.split]; exact mem_append_right _ mem)
        rw [hp a mem] at psm
        contradiction
      · rintro ⟨none, active⟩
        exact ⟨by simp [none], fun a mem _ => active a mem⟩
    · have driven : Driven m (fun _ => True) 0 s := ⟨c, uploaded, h, hw, left, fun _ _ _ => trivial⟩
      obtain ⟨t, hr, ⟨c', _, h', -⟩, all⟩ := driven.ends valid
        (fun a mem _ => matched.finishable a mem) (fun _ _ => trivial)
      have ended := h'.count_retired valid all
      rw [matched.total] at ended
      exact ⟨t, c', hr, h'.sync, by omega⟩
  · rw [idle] at hw
    contradiction

theorem Balanced.matched (valid : m.Valid) (callback : m.callback = true) {launches : Nat}
    (balanced : Balanced m (launches + 1)) : launches = 0 ∧ m.Matched := by
  obtain ⟨s, hr, hd⟩ := reaches_driven callback (fun a => a.state = .ready) launches
  have ⟨c, uploaded, h, waiting, left, _⟩ := hd
  -- a run in which the count comes down to zero
  obtain ⟨-, -, -, -, t, c', hre, sync, zero⟩ := balanced s hr waiting
  have later := hr.trans hre
  obtain ⟨c₁, _, h₁, hw₁, _⟩ :=
    (waiting_until valid h waiting left hre).resolve_right (by simp [sync])
  obtain rfl : c' = c₁ := Option.some.inj (sync.symm.trans h₁.sync)
  obtain ⟨c₂, sync₂, -, ends, -⟩ := balanced t later hw₁
  obtain rfl : c' = c₂ := Option.some.inj (sync.symm.trans sync₂)
  have all := ends.mp zero
  have retired : AllRetired t := ⟨all.1, fun a mem _ => all.2 a mem⟩
  have finishable := h₁.finishable retired
  have total : m.total = m.opCount := by
    have ended := h₁.count_retired valid retired
    omega
  constructor
  · by_contra more
    obtain ⟨u, hr', hw', gone, -, -⟩ := second_launch callback h₁ hw₁ zero (by omega)
    obtain ⟨c₃, sync₃, -⟩ := balanced u (later.trans hr') hw'
    rw [gone] at sync₃
    contradiction
  · -- a run in which only PSM args make progress
    obtain ⟨u, hr', ⟨c₃, _, h₃, hw₃, -, hu⟩, all₃⟩ :=
      hd.ends valid finishable (fun _ ready => ready)
    have zero₃ : c₃.proxyOpCount = 0 := by
      have ended := h₃.count_retired valid all₃
      omega
    obtain ⟨c₄, sync₄, -, ends₄, -⟩ := balanced u (hr.trans hr') hw₃
    obtain rfl : c₃ = c₄ := Option.some.inj (h₃.sync.symm.trans sync₄)
    have finished := (ends₄.mp zero₃).2
    have psm : ∀ a ∈ m.args, a.kind.isPsm = true := by
      intro a mem
      obtain ⟨new, ht, he⟩ := h₃.new_of_mem all₃.1 mem
      by_contra ho
      rw [Bool.not_eq_true] at ho
      have ready : new.state = .ready := hu new ht (by rw [he.kind]; exact ho)
      rw [finished new ht] at ready
      contradiction
    exact ⟨psm, fun a mem => finishable a mem (psm a mem), total⟩

open Proxy (Appended ProxyOp proxySaveOp)

def planLaunch (env : Env) (comm : Proxy.Comm) (plan : Plan.KernelPlan) : Launch where
  env
  args := argsOfOps comm plan.proxyOpQueue
  opCount := plan.proxyOpQueue.length
  callback := plan.callback

variable {comm : Proxy.Comm} {ops : List ProxyOp}

theorem mem_argsOfOps {a : Args} :
    a ∈ argsOfOps comm ops ↔ ∃ first more, first :: more ∈ appendOps (entriesOf comm ops) ∧
      a = argsOf first (first :: more) := by
  simp only [argsOfOps, mem_flatMap, mem_reverse]
  constructor
  · rintro ⟨group, mem, here⟩
    cases group with
    | nil => simp [groupArgs] at here
    | cons first more => exact ⟨first, more, mem, mem_singleton.mp here⟩
  · rintro ⟨first, more, mem, rfl⟩
    exact ⟨_, mem, mem_singleton.mpr rfl⟩

theorem argsOf_nsubs (first : Appended) (group : List Appended) :
    (argsOf first group).nsubs = group.length := by
  simp [Args.nsubs, argsOf]

theorem argsOf_isPsm (first : Appended) (group : List Appended) :
    (argsOf first group).kind.isPsm = onPsm first := kindOf_isPsm first

theorem mem_entries {group : List Appended} {e : Appended} (mem : group ∈ appendOps (entriesOf comm ops))
    (here : e ∈ group) :
    e ∈ entriesOf comm ops ∧ EntryInv comm e := by
  have inside := (appendOps_perm _).mem_iff.mp (mem_flatten.mpr ⟨group, mem, here⟩)
  obtain ⟨_, -, ht⟩ := mem_flatMap.mp inside
  exact ⟨inside, entry_inv ht⟩

theorem group_of_entry {e : Appended} (mem : e ∈ entriesOf comm ops) :
    ∃ first more, first :: more ∈ appendOps (entriesOf comm ops) ∧ e ∈ first :: more := by
  obtain ⟨group, ht, here⟩ := mem_flatten.mp ((appendOps_perm _).mem_iff.mpr mem)
  cases group with
  | nil => cases here
  | cons first more => exact ⟨first, more, ht, here⟩

theorem onPsm_of_ptr {e e' : Appended} (h : EntryInv comm e) (h' : EntryInv comm e') (same : e.ptr = e'.ptr) :
    onPsm e = onPsm e' := by
  unfold onPsm
  cases ptr : e.ptr with
  | localPeer side c => rw [(h.localPeer side c ptr).1, (h'.localPeer side c (same ▸ ptr)).1]
  | collNet side netDev => rw [h.collNet side netDev ptr, h'.collNet side netDev (same ▸ ptr)]
  | profiler forRecv c => rw [h.profiler forRecv c ptr, h'.profiler forRecv c (same ▸ ptr)]
  | own side c peer i => rw [(h.own side c peer i ptr).2, (h'.own side c peer i (same ▸ ptr)).2]

theorem onPsm_joined {first : Appended} {more : List Appended}
    (mem : first :: more ∈ appendOps (entriesOf comm ops)) :
    ∀ e ∈ first :: more, onPsm e = onPsm first := by
  intro e here
  rcases mem_cons.mp here with rfl | hl
  · rfl
  · exact onPsm_of_ptr (mem_entries mem here).2 (mem_entries mem (by simp)).2
      (appendOps_joined _ _ mem e hl).2.1

section Plan

variable {env : Env} {comm : Proxy.Comm} {plan : Plan.KernelPlan}

theorem planLaunch_valid (ops : ∀ c, Plan.P2pOps c (plan.channels c)) :
    (planLaunch env comm plan).Valid := by
  refine ⟨?_, ?_, ?_, ?_⟩
  · intro a mem
    obtain ⟨first, more, -, rfl⟩ := mem_argsOfOps.mp mem
    simp [argsOf_nsubs]
  · intro a mem
    obtain ⟨first, more, -, rfl⟩ := mem_argsOfOps.mp mem
    rfl
  · intro a mem psm
    obtain ⟨first, more, hg, rfl⟩ := mem_argsOfOps.mp mem
    rw [argsOf_isPsm] at psm
    rw [argsOf_nsubs]
    exact le_trans (planGroup ops hg psm).few (by decide)
  · intro a mem b mem' same
    obtain ⟨first, more, hg, rfl⟩ := mem_argsOfOps.mp mem
    obtain ⟨first', _, hg', rfl⟩ := mem_argsOfOps.mp mem'
    rw [argsOf_isPsm, argsOf_isPsm]
    exact onPsm_of_ptr (mem_entries hg (by simp)).2 (mem_entries hg' (by simp)).2 same

theorem planLaunch_total :
    (planLaunch env comm plan).total = (entriesOf comm plan.proxyOpQueue).countP onPsm := by
  have each : ∀ group ∈ appendOps (entriesOf comm plan.proxyOpQueue),
      ((groupArgs group).map psmSubs).sum = group.countP onPsm := by
    intro group mem
    cases group with
    | nil => rfl
    | cons first more =>
      have same := onPsm_joined mem
      simp only [groupArgs, map_cons, map_nil, sum_cons, sum_nil, Nat.add_zero,
        psmSubs, argsOf_nsubs, argsOf_isPsm]
      cases psm : onPsm first with
      | true => exact (countP_eq_length.mpr fun e here => (same e here).trans psm).symm
      | false => exact (countP_eq_zero.mpr fun e here => by simp [same e here, psm]).symm
  rw [← (appendOps_perm (entriesOf comm plan.proxyOpQueue)).countP_eq, countP_flatten]
  simp only [Launch.total, planLaunch, argsOfOps, map_flatMap]
  rw [flatMap_def, sum_flatten, map_map, map_reverse, sum_reverse]
  exact congrArg sum (map_congr_left each)

theorem finishable_iff (ops : ∀ c, Plan.P2pOps c (plan.channels c)) :
    (∀ a ∈ (planLaunch env comm plan).args, a.kind.isPsm = true → Finishable env a) ↔
      ∀ e ∈ entriesOf comm plan.proxyOpQueue, onPsm e = true → finishes env e = true := by
  constructor
  · intro all e mem psm
    obtain ⟨first, more, ht, here⟩ := group_of_entry mem
    have psm' : onPsm first = true := by rw [← onPsm_joined ht e here]; exact psm
    exact (finishable_argsOf (planGroup ops ht psm') psm').mp
      (all _ (mem_argsOfOps.mpr ⟨first, more, ht, rfl⟩) ((kindOf_isPsm first).trans psm')) e here
  · intro all a mem psm
    obtain ⟨first, more, hg, rfl⟩ := mem_argsOfOps.mp mem
    rw [argsOf_isPsm] at psm
    refine (finishable_argsOf (planGroup ops hg psm) psm).mpr fun e here => ?_
    exact all e (mem_entries hg here).1 (by rw [onPsm_joined hg e here]; exact psm)

theorem allPsm_iff :
    (∀ a ∈ (planLaunch env comm plan).args, a.kind.isPsm = true) ↔
      ∀ e ∈ entriesOf comm plan.proxyOpQueue, onPsm e = true := by
  constructor
  · intro all e mem
    obtain ⟨first, more, ht, here⟩ := group_of_entry mem
    rw [onPsm_joined ht e here, ← kindOf_isPsm]
    exact all _ (mem_argsOfOps.mpr ⟨first, more, ht, rfl⟩)
  · intro all a mem
    obtain ⟨first, more, hg, rfl⟩ := mem_argsOfOps.mp mem
    exact (kindOf_isPsm first).trans (all first (mem_entries hg (by simp)).1)

def FinishesOnce (env : Env) (comm : Proxy.Comm) (op : ProxyOp) : Prop :=
  ∃ e, proxySaveOp comm op = [e] ∧ onPsm e = true ∧ finishes env e = true

theorem countP_entries (p : Appended → Bool) (ops : List ProxyOp) :
    (entriesOf comm ops).countP p = (ops.map fun op => (proxySaveOp comm op).countP p).sum := by
  rw [entriesOf, countP_flatMap]
  rfl

theorem total_iff : (planLaunch env comm plan).total = (planLaunch env comm plan).opCount ↔
    ∀ op ∈ plan.proxyOpQueue, (proxySaveOp comm op).countP onPsm = 1 := by
  rw [planLaunch_total, countP_entries]
  constructor
  · intro total op mem
    by_contra other
    have less := sum_lt_sum _ (fun _ => 1) (fun op _ => psm_entries_le comm op)
      ⟨op, mem, Nat.lt_of_le_of_ne (psm_entries_le comm op) other⟩
    simp [total, planLaunch] at less
  · intro one
    rw [map_congr_left one]
    simp [planLaunch]

theorem matched_iff (ops : ∀ c, Plan.P2pOps c (plan.channels c)) :
    (planLaunch env comm plan).Matched ↔ ∀ op ∈ plan.proxyOpQueue, FinishesOnce env comm op := by
  constructor
  · intro hm op hq
    have inside {e : Appended} (here : e ∈ proxySaveOp comm op) : e ∈ entriesOf comm plan.proxyOpQueue :=
      mem_flatMap.mpr ⟨op, hq, here⟩
    have psm := allPsm_iff.mp hm.psm
    have finish := (finishable_iff ops).mp fun a mem _ => hm.finishable a mem
    have one := total_iff.mp hm.total op hq
    rw [countP_eq_length.mpr fun e here => psm e (inside here)] at one
    obtain ⟨e, hs⟩ := length_eq_one_iff.mp one
    have mem := inside (by rw [hs]; exact mem_singleton.mpr rfl)
    exact ⟨e, hs, psm e mem, finish e mem (psm e mem)⟩
  · intro once
    have entry : ∀ e ∈ entriesOf comm plan.proxyOpQueue, onPsm e = true ∧ finishes env e = true := by
      intro e mem
      obtain ⟨op, hq, here⟩ := mem_flatMap.mp mem
      obtain ⟨_, hs, psm, finish⟩ := once op hq
      rw [hs, mem_singleton] at here
      exact here ▸ ⟨psm, finish⟩
    have psm : ∀ a ∈ (planLaunch env comm plan).args, a.kind.isPsm = true :=
      allPsm_iff.mpr fun e mem => (entry e mem).1
    refine ⟨psm, fun a mem => (finishable_iff ops).mpr (fun e mem _ => (entry e mem).2) a
      mem (psm a mem), total_iff.mpr fun op hq => ?_⟩
    obtain ⟨e, hs, psm, -⟩ := once op hq
    simp [hs, psm]

end Plan

/-- In every launch of a plan the count is what will be subtracted, if and only if the plan has
no callback to wait for it, or is launched at most once and each of its ops is appended to one
connection, a PSM one, on which it comes to an end. -/
theorem proxyOpCount_balanced_iff (env : Env) (comm : Plan.Comm) (budget : Plan.Budget)
    (tasks rest : Plan.Tasks) (plan : Plan.KernelPlan)
    (built : Plan.buildPlan comm budget tasks = some (plan, rest)) (launches : Nat) :
    Balanced (planLaunch env comm.toComm plan) launches ↔
      plan.callback = false ∨ launches = 0 ∨
        launches = 1 ∧ ∀ op ∈ plan.proxyOpQueue, FinishesOnce env comm.toComm op := by
  have ops := Plan.buildPlan_ops built
  have valid : (planLaunch env comm.toComm plan).Valid := planLaunch_valid ops
  rw [← matched_iff ops]
  cases callback : plan.callback with
  | false =>
    refine ⟨fun _ => .inl rfl, fun _ s hr hw => ?_⟩
    have idle := no_callback (m := planLaunch env comm.toComm plan) callback hr
    rw [idle.1] at hw
    contradiction
  | true =>
    cases launches with
    | zero =>
      refine ⟨fun _ => .inr (.inl rfl), fun _ s hr hw => ?_⟩
      rw [no_launch hr] at hw
      contradiction
    | succ more =>
      constructor
      · intro hb
        obtain ⟨rfl, hm⟩ := Balanced.matched valid callback hb
        exact .inr (.inr ⟨rfl, hm⟩)
      · rintro (_ | zero | ⟨once, hm⟩)
        · contradiction
        · contradiction
        · rw [once]
          exact hm.balanced valid callback

def defaultEnv : Env where
  psmBufferSize := 64 * 2 ^ 20
  psmP2pNetChunkSize := 4 * 2 ^ 20
  regroup subs := subs.map fun sub => [sub]
  regroup_perm subs := by rw [← flatMap_def, flatMap_singleton']

def sendOp : ProxyOp := ⟨0, 3, .send, 1, 4096, 1, 1, .simple, false, false, false, false⟩

theorem oneSend_plan (persistent : Bool) : ∃ plan rest,
    Plan.buildPlan Plan.pairComm (Plan.planBudget Plan.pairComm persistent) ⟨[], Plan.oneSend⟩ =
      some (plan, rest) ∧ plan.callback = true ∧ plan.workBytes = 48 ∧ plan.proxyOpQueue = [sendOp] := by
  have facts : (Plan.buildPlan Plan.pairComm (Plan.planBudget Plan.pairComm persistent)
      ⟨[], Plan.oneSend⟩).map (fun p => (p.1.callback, p.1.workBytes, p.1.proxyOpQueue)) =
      some (true, 48, [sendOp]) := by
    cases persistent <;> decide +kernel
  obtain ⟨⟨plan, rest⟩, hb, same⟩ := Option.map_eq_some_iff.mp facts
  simp only [Prod.mk.injEq] at same
  exact ⟨plan, rest, hb, same⟩

theorem send_plan_balanced : ∃ plan rest,
    Plan.buildPlan Plan.pairComm (Plan.planBudget Plan.pairComm false) ⟨[], Plan.oneSend⟩ =
      some (plan, rest) ∧
    plan.callback = true ∧ plan.proxyOpQueue.length = 1 ∧
    Balanced (planLaunch defaultEnv Plan.pairComm.toComm plan) 1 := by
  obtain ⟨plan, rest, hb, callback, -, queue⟩ := oneSend_plan false
  refine ⟨plan, rest, hb, callback, by rw [queue]; rfl, ?_⟩
  refine (proxyOpCount_balanced_iff defaultEnv Plan.pairComm _ _ rest plan hb 1).mpr
    (.inr (.inr ⟨rfl, ?_⟩))
  rw [queue]
  exact forall_mem_singleton.mpr ⟨_, rfl, rfl, by decide +kernel⟩

def profiledComm : Plan.Comm := { Plan.pairComm with profilerPluginLoaded := true }

def profiledSend : Plan.P2pQueues where
  send := fun r => if r = 1 then [{ Plan.smallSend with kernelCh := true }] else []
  recv := fun _ => []
  nTasks := 1

/-- The op of the profiler is counted, but its progress function does not subtract. -/
theorem profiled_send_not_balanced : ∃ plan rest,
    Plan.buildPlan profiledComm (Plan.planBudget profiledComm false) ⟨[], profiledSend⟩ =
      some (plan, rest) ∧
    plan.callback = true ∧ plan.proxyOpQueue.length = 2 ∧
    ¬ Balanced (planLaunch defaultEnv profiledComm.toComm plan) 1 := by
  have facts : (Plan.buildPlan profiledComm (Plan.planBudget profiledComm false)
      ⟨[], profiledSend⟩).map (fun p => (p.1.callback, p.1.proxyOpQueue)) =
      some (true, [⟨0, 3, .send, 1, 4096, 1, 1, .simple, false, false, false, true⟩,
        ⟨0, 3, .profiler, 1, 4096, 1, 1, .simple, false, false, false, true⟩]) := by
    decide +kernel
  obtain ⟨⟨plan, rest⟩, hbu, same⟩ := Option.map_eq_some_iff.mp facts
  simp only [Prod.mk.injEq] at same
  refine ⟨plan, rest, hbu, same.1, by rw [same.2]; rfl, fun hb => ?_⟩
  have ops := Plan.buildPlan_ops hbu
  have once := (matched_iff ops).mp (Balanced.matched (planLaunch_valid ops) same.1 hb).2
  rw [same.2] at once
  obtain ⟨e, hs, psm, -⟩ := once _ (mem_cons_of_mem _ (mem_singleton.mpr rfl))
  have entry : e = Proxy.saveProxyProfiler
      ⟨0, 3, .profiler, 1, 4096, 1, 1, .simple, false, false, false, true⟩ :=
    (singleton_inj.mp hs).symm
  rw [entry] at psm
  contradiction

end Vccl.Psm
