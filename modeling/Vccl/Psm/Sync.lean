import Vccl.Psm.Append
import Vccl.Lib.Transition

/-! The `psmSyncCondition` of a plan over its launches. `finishPlan` allocates it, the host
callback of a launch sets its event, waits for its count and deletes it, and the PSM progress
functions read the event and subtract from the count. The callback of a launch may start before
or after its ops are uploaded; a launch follows the callback of the one before. -/
namespace Vccl.Psm

open List Transition

structure SyncCondition where
  proxyReadyEvent : Bool
  proxyOpCount : Int
  deriving DecidableEq

inductive Callback where
  | idle
  | enqueued
  | waiting
  deriving DecidableEq

/-- A plan as it is launched: its args and op count, and whether `ncclLaunchKernel` enqueues
the callback. -/
structure Launch where
  env : Env
  args : List Args
  opCount : Nat
  callback : Bool

/-- `sync` is gone once it was deleted; `badAccess` records an access after that. -/
structure State where
  sync : Option SyncCondition
  deletes : Nat
  badAccess : Bool
  left : Nat
  callback : Callback
  pending : List Args
  active : List Args

def initial (m : Launch) (launches : Nat) : State where
  sync := some ⟨false, m.opCount⟩
  deletes := 0
  badAccess := false
  left := launches
  callback := .idle
  pending := []
  active := []

inductive Action where
  | launch
  | upload
  | callbackStart
  | callbackPoll
  | progress (i : Nat) (answers : Answers)

def waitsFor (active : List Args) (i : Nat) (args : Args) : Bool :=
  (active.take i).any fun other => decide (other.ptr = args.ptr ∧ other.state ≠ .none)

def progressStep (m : Launch) (s : State) (i : Nat) (args : Args) (answers : Answers) : State :=
  let result := proxyProgress m.env args answers
  if args.kind.isPsm then
    match s.sync with
    | none => { s with badAccess := true }
    | some c =>
      if c.proxyReadyEvent then
        { s with
          sync := some { c with proxyOpCount := c.proxyOpCount - result.2 }
          active := s.active.set i result.1 }
      else s
  else { s with active := s.active.set i result.1 }

def step (m : Launch) (s : State) : Action → Option State
  | .launch =>
    if s.left ≠ 0 ∧ s.callback = .idle then
      some { s with
        left := s.left - 1
        callback := if m.callback then .enqueued else .idle
        pending := s.pending ++ m.args }
    else none
  | .upload =>
    match s.pending with
    | [] => none
    | args :: rest => some { s with pending := rest, active := s.active ++ [args] }
  | .callbackStart =>
    if s.callback = .enqueued then
      match s.sync with
      | none => some { s with badAccess := true, callback := .waiting }
      | some c => some { s with sync := some { c with proxyReadyEvent := true }, callback := .waiting }
    else none
  | .callbackPoll =>
    if s.callback = .waiting then
      match s.sync with
      | none => some { s with badAccess := true }
      | some c =>
        if c.proxyOpCount = 0 then
          some { s with sync := none, deletes := s.deletes + 1, callback := .idle }
        else some s
    else none
  | .progress i answers =>
    match s.active[i]? with
    | none => none
    | some args =>
      if args.state = .none ∨ waitsFor s.active i args then none
      else some (progressStep m s i args answers)

abbrev Reaches (m : Launch) : State → State → Prop := Reachable (step m)

/-- The count of a waiting callback is what is still to be subtracted: it is not negative, it
is zero just when every op has finished, and it can always come down to zero. -/
def Balanced (m : Launch) (launches : Nat) : Prop :=
  ∀ s, Reaches m (initial m launches) s → s.callback = .waiting →
    ∃ c, s.sync = some c ∧ 0 ≤ c.proxyOpCount ∧
      (c.proxyOpCount = 0 ↔ s.pending = [] ∧ ∀ args ∈ s.active, args.state = .none) ∧
      ∃ t c', Reaches m s t ∧ t.sync = some c' ∧ c'.proxyOpCount = 0

structure Released (m : Launch) (launches : Nat) : Prop where
  safe : ∀ s, Reaches m (initial m launches) s → s.deletes ≤ 1 ∧ s.badAccess = false
  ends : ∀ s, Reaches m (initial m launches) s → ∃ t, Reaches m s t ∧ t.deletes = 1

structure Launch.Valid (m : Launch) : Prop where
  subs : ∀ a ∈ m.args, 0 < a.nsubs
  ready : ∀ a ∈ m.args, a.state = .ready
  few : ∀ a ∈ m.args, a.kind.isPsm = true → a.nsubs ≤ psmNetSharedSteps
  ptrs : ∀ a ∈ m.args, ∀ b ∈ m.args, a.ptr = b.ptr → a.kind.isPsm = b.kind.isPsm

structure Evolved (env : Env) (old new : Args) : Prop where
  kind : new.kind = old.kind
  ptr : new.ptr = old.ptr
  nsubs : old.kind.isPsm = true → new.nsubs = old.nsubs
  inv : old.kind.isPsm = true → ArgsInv (begun env new)
  finishable : old.kind.isPsm = true → (Finishable env new ↔ Finishable env old)
  finished : old.kind.isPsm = true → new.state = .none → Finishable env old

variable {env : Env} {args : Args}

theorem Evolved.refl (ready : args.state = .ready) :
    Evolved env args args := by
  refine ⟨rfl, rfl, fun _ => rfl, fun _ => ?_, fun _ => Iff.rfl, ?_⟩
  · rw [begun, ready]
    exact start_inv env args
  · rw [ready]
    intro _ none
    contradiction

theorem Evolved.progress {old new : Args} (h : Evolved env old new) (some' : 0 < old.nsubs)
    (psm : old.kind.isPsm = true) (active : new.state ≠ .none) (answers : Answers) : Evolved env old (proxyProgress env new answers).1 := by
  have effect := proxyProgress_effect (by rw [h.kind]; exact psm) (h.inv psm)
    (by rw [h.nsubs psm]; exact some') active answers
  refine ⟨effect.kind.trans h.kind, effect.ptr.trans h.ptr, fun _ => effect.nsubs.trans (h.nsubs psm),
    fun _ => effect.inv, fun _ => effect.finishable.trans (h.finishable psm), ?_⟩
  intro _ none
  rcases effect.ends with ⟨-, -, finishable⟩ | ⟨_, -⟩
  · exact (h.finishable psm).mp finishable
  · contradiction

theorem proxyProgress_kind (env : Env) (args : Args) (answers : Answers) :
    (proxyProgress env args answers).1.kind = args.kind ∧
      (proxyProgress env args answers).1.ptr = args.ptr := by
  have passed (args : Args) : (pass args answers).1.kind = args.kind ∧
      (pass args answers).1.ptr = args.ptr := by
    unfold pass
    simp only
    split <;> exact ⟨rfl, rfl⟩
  unfold proxyProgress
  split
  · exact ⟨rfl, rfl⟩
  · exact passed args
  · split
    · cases answers.receiverReady <;> exact ⟨rfl, rfl⟩
    · exact ⟨rfl, rfl⟩
    · exact passed (start env args)

theorem Evolved.progress_other {old new : Args} (h : Evolved env old new) (other : old.kind.isPsm = false)
    (answers : Answers) :
    Evolved env old (proxyProgress env new answers).1 := by
  obtain ⟨kind, ptr⟩ := proxyProgress_kind env new answers
  have never {p : Prop} : old.kind.isPsm = true → p := by
    intro psm
    rw [other] at psm
    contradiction
  exact ⟨kind.trans h.kind, ptr.trans h.ptr, never, never, never, never⟩

abbrev Tracks (env : Env) : List Args → List Args → Prop := Forall₂ (Evolved env)

variable {uploaded active : List Args} {i : Nat}

theorem Tracks.old (h : Tracks env uploaded active) {new : Args} (here : active[i]? = some new) :
    ∃ old, uploaded[i]? = some old ∧ Evolved env old new := by
  induction h generalizing i with
  | nil => contradiction
  | cons evolved _ ih =>
    cases i with
    | zero => exact ⟨_, rfl, Option.some.inj here ▸ evolved⟩
    | succ i => exact ih here

theorem Tracks.set (h : Tracks env uploaded active) {old : Args} (before : uploaded[i]? = some old)
    (evolved : Evolved env old args) : Tracks env uploaded (active.set i args) := by
  induction h generalizing i with
  | nil => contradiction
  | cons first rest ih =>
    cases i with
    | zero => exact .cons (Option.some.inj before ▸ evolved) rest
    | succ i => exact .cons first (ih before)

def retired (args : Args) : Nat :=
  if args.kind.isPsm = true ∧ args.state = .none then args.nsubs else 0

theorem sum_set {f : Args → Nat} {xs : List Args} {x y : Args} (here : xs[i]? = some x) :
    ((xs.set i y).map f).sum + f x = (xs.map f).sum + f y := by
  induction xs generalizing i with
  | nil => simp at here
  | cons a rest ih =>
    cases i with
    | zero =>
      simp only [getElem?_cons_zero, Option.some.injEq] at here
      subst here
      simp only [set_cons_zero, map_cons, sum_cons]
      omega
    | succ i =>
      have later := ih (by simpa using here)
      simp only [set_cons_succ, map_cons, sum_cons]
      omega

structure Running (m : Launch) (s : State) (c : SyncCondition) (uploaded : List Args) : Prop where
  sync : s.sync = some c
  deletes : s.deletes = 0
  clean : s.badAccess = false
  split : m.args = uploaded ++ s.pending
  tracks : Tracks m.env uploaded s.active
  count : c.proxyOpCount + (s.active.map retired).sum = m.opCount
  stage : (s.callback = .enqueued ∧ c.proxyReadyEvent = false) ∨
    (s.callback = .waiting ∧ c.proxyReadyEvent = true)

variable {m : Launch} {s : State} {c : SyncCondition}

theorem Running.old (h : Running m s c uploaded) (here : s.active[i]? = some args) :
    ∃ old ∈ m.args, uploaded[i]? = some old ∧ Evolved m.env old args := by
  obtain ⟨old, before, evolved⟩ := h.tracks.old here
  refine ⟨old, ?_, before, evolved⟩
  rw [h.split]
  exact mem_append_left _ (mem_of_getElem? before)

theorem retired_active (active : args.state ≠ .none) : retired args = 0 := by
  simp [retired, active]

theorem Running.progress (valid : m.Valid) (h : Running m s c uploaded) (here : s.active[i]? = some args)
    (active : args.state ≠ .none) (answers : Answers) :
    ∃ c', Running m (progressStep m s i args answers) c' uploaded ∧
      (progressStep m s i args answers).left = s.left ∧
      (progressStep m s i args answers).callback = s.callback ∧
      (progressStep m s i args answers).pending = s.pending := by
  obtain ⟨old, old_mem, hb, evolved⟩ := h.old here
  have moved := sum_set (f := retired) (y := (proxyProgress m.env args answers).1) here
  rw [retired_active active] at moved
  cases psm : args.kind.isPsm with
  | false =>
    have next : progressStep m s i args answers =
        { s with active := s.active.set i (proxyProgress m.env args answers).1 } := by
      simp [progressStep, psm]
    have other : old.kind.isPsm = false := by rw [← evolved.kind]; exact psm
    have later := evolved.progress_other other answers
    have none : retired (proxyProgress m.env args answers).1 = 0 := by
      simp [retired, later.kind, other]
    rw [next]
    refine ⟨c, { h with tracks := h.tracks.set hb later, count := ?_ }, rfl, rfl, rfl⟩
    have := h.count
    simp only
    omega
  | true =>
    have psm' : old.kind.isPsm = true := by rw [← evolved.kind]; exact psm
    have some' : 0 < args.nsubs := by
      rw [evolved.nsubs psm']
      exact valid.subs old old_mem
    have effect := proxyProgress_effect psm (evolved.inv psm') some' active answers
    cases he : c.proxyReadyEvent with
    | false =>
      have same : progressStep m s i args answers = s := by simp [progressStep, psm, h.sync, he]
      rw [same]
      exact ⟨c, h, rfl, rfl, rfl⟩
    | true =>
      have next : progressStep m s i args answers =
          { s with
            sync := some { c with proxyOpCount := c.proxyOpCount - (proxyProgress m.env args answers).2 }
            active := s.active.set i (proxyProgress m.env args answers).1 } := by
        simp [progressStep, psm, h.sync, he]
      rw [next]
      have later := evolved.progress (valid.subs _ old_mem) psm' active answers
      refine ⟨_, { h with sync := rfl, tracks := h.tracks.set hb later, count := ?_, stage := h.stage.imp_left ?_ },
        rfl, rfl, rfl⟩
      · have := h.count
        simp only
        rcases effect.ends with ⟨none, hs, -⟩ | ⟨more, hs⟩
        · have gone : retired (proxyProgress m.env args answers).1 = args.nsubs := by
            simp [retired, effect.kind, psm, none, effect.nsubs]
          omega
        · rw [retired_active more] at moved
          omega
      · simp [he]

theorem Running.upload (valid : m.Valid) (h : Running m s c uploaded) {rest : List Args}
    (pending : s.pending = args :: rest) :
    Running m { s with pending := rest, active := s.active ++ [args] } c (uploaded ++ [args]) ∧
      args.state = .ready := by
  have split := h.split
  rw [pending] at split
  have ready := valid.ready args (by rw [split]; simp)
  refine ⟨{ h with split := ?_, tracks := rel_append h.tracks (.cons (Evolved.refl ready) .nil), count := ?_ }, ready⟩
  · rw [split, append_assoc]
    rfl
  · have := h.count
    simpa [retired_active (show args.state ≠ .none by simp [ready])] using this

variable {s' : State}

theorem upload_some (next : step m s .upload = some s') :
    ∃ args rest, s.pending = args :: rest ∧ s' = { s with pending := rest, active := s.active ++ [args] } := by
  simp only [step] at next
  split at next
  · contradiction
  next args rest pending => exact ⟨args, rest, pending, (Option.some.inj next).symm⟩

theorem progress_some {answers : Answers} (next : step m s (.progress i answers) = some s') :
    ∃ args, s.active[i]? = some args ∧ args.state ≠ .none ∧ s' = progressStep m s i args answers := by
  simp only [step] at next
  split at next
  · contradiction
  next args here =>
    obtain ⟨free, same⟩ := Option.ite_none_left_eq_some.mp next
    exact ⟨args, here, fun none => free (.inl none), (Option.some.inj same).symm⟩

def State.release (s : State) : State := { s with sync := none, deletes := 1, callback := .idle }

theorem Running.step (valid : m.Valid) {a : Action} (h : Running m s c uploaded) (next : step m s a = some s') :
    (∃ c' uploaded', Running m s' c' uploaded' ∧ s'.left = s.left ∧
        (s.callback = .waiting → s'.callback = .waiting)) ∨
      (s.callback = .waiting ∧ c.proxyOpCount = 0 ∧ s' = s.release) := by
  cases a with
  | launch =>
    have busy : s.callback ≠ .idle := by
      rcases h.stage with ⟨hs, -⟩ | ⟨hs, -⟩ <;> simp [hs]
    simp [Psm.step, busy] at next
  | upload =>
    obtain ⟨args, _, hp, rfl⟩ := upload_some next
    exact .inl ⟨c, _, (h.upload valid hp).1, rfl, fun same => same⟩
  | callbackStart =>
    simp only [Psm.step, h.sync] at next
    obtain ⟨-, ⟨⟩⟩ := Option.ite_none_right_eq_some.mp next
    exact .inl ⟨_, uploaded, { h with sync := rfl, stage := .inr ⟨rfl, rfl⟩ }, rfl, fun _ => rfl⟩
  | callbackPoll =>
    simp only [Psm.step, h.sync] at next
    obtain ⟨waiting, next⟩ := Option.ite_none_right_eq_some.mp next
    split at next
    next zero =>
      obtain rfl := Option.some.inj next
      exact .inr ⟨waiting, zero, by rw [State.release, h.deletes]⟩
    · obtain rfl := Option.some.inj next
      exact .inl ⟨c, uploaded, h, rfl, fun same => same⟩
  | progress i answers =>
    obtain ⟨args, here, active, rfl⟩ := progress_some next
    obtain ⟨c', hr, left, callback, -⟩ := h.progress valid here active answers
    exact .inl ⟨c', uploaded, hr, left, fun same => callback.trans same⟩

theorem initial_step {launches : Nat} {a : Action} (next : step m (initial m launches) a = some s) :
    launches ≠ 0 ∧ s = { initial m launches with
      left := launches - 1
      callback := if m.callback then .enqueued else .idle
      pending := m.args } := by
  cases a with
  | launch =>
    simp only [step, initial, and_true] at next
    obtain ⟨more, ⟨⟩⟩ := Option.ite_none_right_eq_some.mp next
    exact ⟨more, rfl⟩
  | upload => simp [step, initial] at next
  | callbackStart => simp [step, initial] at next
  | callbackPoll => simp [step, initial] at next
  | progress i answers => simp [step, initial] at next

theorem launched_running (callback : m.callback = true) (launches left : Nat) :
    Running m { initial m launches with
      left := left
      callback := if m.callback then .enqueued else .idle
      pending := m.args } ⟨false, m.opCount⟩ [] :=
  ⟨rfl, rfl, rfl, rfl, .nil, by simp [initial], .inl ⟨by simp [callback], rfl⟩⟩

/-- The first launch with its callback waiting. The args of other transports are left alone, so
they stay as `keep` says. -/
def Driven (m : Launch) (keep : Args → Prop) (left : Nat) (s : State) : Prop :=
  ∃ c uploaded, Running m s c uploaded ∧ s.callback = .waiting ∧ s.left = left ∧
    ∀ a ∈ s.active, a.kind.isPsm = false → keep a

def AllRetired (s : State) : Prop :=
  s.pending = [] ∧ ∀ a ∈ s.active, a.kind.isPsm = true → a.state = .none

def weight (env : Env) (args : Args) : Nat := if args.kind.isPsm then rank env args else 0

def toDo (m : Launch) (s : State) : Nat :=
  (s.pending.map fun a => 1 + weight m.env a).sum + (s.active.map (weight m.env)).sum

theorem exists_first {p : Args → Prop} {xs : List Args} (some' : ∃ x ∈ xs, p x) :
    ∃ (i : Nat) (x : Args), xs[i]? = some x ∧ p x ∧ ∀ y ∈ xs.take i, ¬ p y := by
  induction xs with
  | nil => simp at some'
  | cons a rest ih =>
    by_cases here : p a
    · exact ⟨0, a, rfl, here, by simp⟩
    obtain ⟨x, mem, holds⟩ := some'
    rcases mem_cons.mp mem with rfl | hl
    · exact absurd holds here
    obtain ⟨i, y, at', met, before⟩ := ih ⟨x, hl, holds⟩
    refine ⟨i + 1, y, by simpa using at', met, ?_⟩
    intro z ht
    rw [take_succ_cons, mem_cons] at ht
    rcases ht with rfl | ht
    · exact here
    · exact before z ht

theorem Running.old_of_mem (h : Running m s c uploaded) {a : Args} (mem : a ∈ s.active) :
    ∃ old ∈ m.args, Evolved m.env old a := by
  obtain ⟨i, here⟩ := mem_iff_getElem?.mp mem
  obtain ⟨old, mem, -, evolved⟩ := h.old here
  exact ⟨old, mem, evolved⟩

theorem not_waitsFor (valid : m.Valid) (h : Running m s c uploaded) (here : s.active[i]? = some args)
    (psm : args.kind.isPsm = true) (first : ∀ b ∈ s.active.take i, ¬ (b.kind.isPsm = true ∧ b.state ≠ .none)) :
    waitsFor s.active i args = false := by
  rw [waitsFor, any_eq_false]
  intro b before held
  simp only [decide_eq_true_eq] at held
  obtain ⟨old, mem, he⟩ := h.old_of_mem (mem_of_getElem? here)
  obtain ⟨old', mem', he'⟩ := h.old_of_mem (mem_of_mem_take before)
  have same := valid.ptrs old' mem' old mem (by
    rw [← he.ptr, ← he'.ptr]
    exact held.1)
  apply first b before
  rw [he'.kind, same, ← he.kind]
  exact ⟨psm, held.2⟩

variable {keep : Args → Prop} {left : Nat}

theorem Driven.moves (valid : m.Valid) (finishable : ∀ a ∈ m.args, a.kind.isPsm = true → Finishable m.env a)
    (fresh : ∀ a, a.state = .ready → keep a) (h : Driven m keep left s) (more : ¬ AllRetired s) :
    ∃ a t, step m s a = some t ∧ Driven m keep left t ∧ toDo m t < toDo m s := by
  obtain ⟨c, uploaded, hr, hw, same, others⟩ := h
  cases hp : s.pending with
  | cons args rest =>
    obtain ⟨hr', ready⟩ := hr.upload valid hp
    refine ⟨.upload, _, by simp [step, hp], ⟨c, _, hr', hw, same, ?_⟩, ?_⟩
    · exact forall_mem_append.mpr ⟨others, forall_mem_singleton.mpr (fun ho => fresh args ready)⟩
    · simp only [toDo, hp, map_cons, sum_cons, map_append, sum_append,
        map_nil, sum_nil]
      omega
  | nil =>
    have unfinished : ∃ a ∈ s.active, a.kind.isPsm = true ∧ a.state ≠ .none := by
      by_contra none
      apply more
      refine ⟨hp, ?_⟩
      intro a mem psm
      by_contra active
      exact none ⟨a, mem, psm, active⟩
    obtain ⟨i, args, here, ⟨psm, active⟩, first⟩ := exists_first unfinished
    obtain ⟨old, mem, -, evolved⟩ := hr.old here
    have psm' : old.kind.isPsm = true := by rw [← evolved.kind]; exact psm
    have free := not_waitsFor valid hr here psm first
    obtain ⟨c', hr', left', hc', pending'⟩ := hr.progress valid here active .yes
    have ready : c.proxyReadyEvent = true := by
      rcases hr.stage with ⟨he, -⟩ | ⟨-, on⟩
      · rw [hw] at he
        contradiction
      · exact on
    have active' : (progressStep m s i args .yes).active =
        s.active.set i (proxyProgress m.env args .yes).1 := by
      simp [progressStep, psm, hr.sync, ready]
    have some' : 0 < args.nsubs := by
      rw [evolved.nsubs psm']
      exact valid.subs old mem
    have few : args.nsubs ≤ psmNetSharedSteps := by
      rw [evolved.nsubs psm']
      exact valid.few old mem psm'
    have effect := proxyProgress_effect psm (evolved.inv psm') some' active .yes
    have closer := proxyProgress_closer psm (evolved.inv psm') few some' active
      ((evolved.finishable psm').mpr (finishable old mem psm'))
    refine ⟨.progress i .yes, progressStep m s i args .yes, by simp [step, here, active, free],
      ⟨c', uploaded, hr', hc'.trans hw, left'.trans same, ?_⟩, ?_⟩
    · intro a ht ho
      rw [active'] at ht
      rcases mem_or_eq_of_mem_set ht with old' | rfl
      · exact others a old' ho
      · rw [effect.kind, psm] at ho
        contradiction
    · have moved := sum_set (f := weight m.env) (y := (proxyProgress m.env args .yes).1) here
      have before' : weight m.env args = rank m.env args := by simp [weight, psm]
      have after' : weight m.env (proxyProgress m.env args .yes).1 =
          rank m.env (proxyProgress m.env args .yes).1 := by simp [weight, effect.kind, psm]
      simp only [toDo, active', pending']
      omega

theorem Driven.ends (valid : m.Valid) (finishable : ∀ a ∈ m.args, a.kind.isPsm = true → Finishable m.env a)
    (fresh : ∀ a, a.state = .ready → keep a) (h : Driven m keep left s) :
    ∃ t, Reaches m s t ∧ Driven m keep left t ∧ AllRetired t :=
  reaches_goal (Driven m keep left) AllRetired (toDo m)
    (fun _ hd more => hd.moves valid finishable fresh more) h

theorem reaches_driven (callback : m.callback = true) (keep : Args → Prop) (launches : Nat) :
    ∃ s, Reaches m (initial m (launches + 1)) s ∧ Driven m keep launches s := by
  refine ⟨{ initial m (launches + 1) with
    sync := some ⟨true, m.opCount⟩, left := launches, callback := .waiting, pending := m.args },
    ⟨[.launch, .callbackStart], by simp [run, step, initial, callback]⟩,
    ⟨true, m.opCount⟩, [], ?_, rfl, rfl, fun a none => absurd none not_mem_nil⟩
  exact ⟨rfl, rfl, rfl, rfl, .nil, by simp [initial], .inr ⟨rfl, rfl⟩⟩

end Vccl.Psm
