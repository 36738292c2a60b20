import Vccl.Lib.Transition

/-! The protection domain of a device, which the bases of the connections on it have in common: the count kept by
`ncclIbInitCommDevBase` and `ncclIbDestroyBase`, whatever the verbs calls in them return. -/
namespace Vccl.Ib.Domains

open List Transition

/-- Of `ncclIbDev`: `pd` says whether the domain is allocated, `locked` whether a call has returned with the lock. -/
structure Dev where
  pdRefs : Int
  pd : Bool
  locked : Bool

structure InitAnswers where
  allocPd : Bool
  createCq : Bool

structure DestroyAnswers where
  destroyCq : Bool
  deregMrs : List Bool
  deallocPd : Bool

/-- With the result of the call; `none` when it waits for the lock for ever. -/
def ncclIbInitCommDevBase (answers : InitAnswers) (dev : Dev) : Option (Dev × Bool) :=
  if dev.locked then none
  else if dev.pdRefs = 0 then
    if answers.allocPd then some (⟨dev.pdRefs + 1, true, false⟩, answers.createCq)
    else some (⟨dev.pdRefs + 1, dev.pd, false⟩, false)
  else some (⟨dev.pdRefs + 1, dev.pd, false⟩, answers.createCq)

def ncclIbDeregAllMrInternal (deregMrs : List Bool) : Bool := deregMrs.all id

def ncclIbDestroyBase (answers : DestroyAnswers) (dev : Dev) : Option (Dev × Bool) :=
  if answers.destroyCq = false then some (dev, false)
  else if dev.locked then none
  else if dev.pdRefs - 1 = 0 then
    if ncclIbDeregAllMrInternal answers.deregMrs then
      some (⟨dev.pdRefs - 1, dev.pd && !answers.deallocPd, false⟩, answers.deallocPd)
    -- `NCCLCHECK` leaves the function without giving the lock back.
    else some (⟨dev.pdRefs - 1, dev.pd, true⟩, false)
  else some (⟨dev.pdRefs - 1, dev.pd, false⟩, true)

/-- `bases` has the device of each base that is initialised and not destroyed. -/
structure State where
  devs : Nat → Dev
  bases : List Nat

def initial : State := ⟨fun _ => ⟨0, false, false⟩, []⟩

inductive Call where
  | init (ibDevN : Nat) (answers : InitAnswers)
  | destroy (i : Nat) (answers : DestroyAnswers)

def step (s : State) : Call → Option State
  | .init n answers => (ncclIbInitCommDevBase answers (s.devs n)).map fun r =>
      ⟨Function.update s.devs n r.1, if r.2 then n :: s.bases else s.bases⟩
  | .destroy i answers => s.bases[i]?.bind fun n => (ncclIbDestroyBase answers (s.devs n)).map fun r =>
      ⟨Function.update s.devs n r.1, if r.2 then s.bases.eraseIdx i else s.bases⟩

structure Dev.Exact (dev : Dev) (live : Nat) : Prop where
  count : dev.pdRefs = live
  domain : dev.pd = true ↔ 0 < dev.pdRefs
  free : dev.locked = false

def Exact (s : State) : Prop := ∀ n, (s.devs n).Exact (s.bases.count n)

/-- An initialisation whose calls succeed, and a destruction that, if it is of the last base and comes to that,
can deregister all regions and deallocate the domain. -/
def Granted (s : State) : Call → Prop
  | .init n answers => ((s.devs n).pdRefs = 0 → answers.allocPd = true) ∧ answers.createCq = true
  | .destroy i answers => ∀ n, s.bases[i]? = some n → answers.destroyCq = true → (s.devs n).pdRefs = 1 →
      ncclIbDeregAllMrInternal answers.deregMrs = true ∧ answers.deallocPd = true

variable {dev dev' : Dev} {live : Nat} {ok : Bool} {s s' : State}

theorem init_exact_iff {answers : InitAnswers} (h : dev.Exact live)
    (returned : ncclIbInitCommDevBase answers dev = some (dev', ok)) :
    dev'.Exact (live + ok.toNat) ↔ (dev.pdRefs = 0 → answers.allocPd = true) ∧ answers.createCq = true := by
  obtain ⟨_, _, _⟩ := h
  obtain ⟨allocPd, createCq⟩ := answers
  simp only [ncclIbInitCommDevBase] at returned
  constructor
  · rintro ⟨_, -, -⟩
    cases allocPd <;> cases createCq <;> grind
  · rintro ⟨_, rfl⟩
    constructor <;> grind

theorem destroy_exact_iff {answers : DestroyAnswers} (h : dev.Exact live) (used : 0 < live)
    (returned : ncclIbDestroyBase answers dev = some (dev', ok)) :
    dev'.Exact (live - ok.toNat) ↔ (answers.destroyCq = true → dev.pdRefs = 1 →
      ncclIbDeregAllMrInternal answers.deregMrs = true ∧ answers.deallocPd = true) := by
  obtain ⟨_, _, _⟩ := h
  simp only [ncclIbDestroyBase] at returned
  constructor
  · rintro ⟨_, _, _⟩
    grind
  · intro hg
    constructor <;> grind

theorem exact_update (h : Exact s) {n : Nat} {bases : List Nat} (others : ∀ m ≠ n, bases.count m = s.bases.count m) :
    Exact ⟨Function.update s.devs n dev, bases⟩ ↔ dev.Exact (bases.count n) := by
  constructor
  · intro he
    simpa using he n
  · intro here m
    by_cases same : m = n
    · subst same
      simpa using here
    · simpa [same, others m same] using h m

theorem step_exact_iff {call : Call} (h : Exact s) (next : step s call = some s') : Exact s' ↔ Granted s call := by
  cases call with
  | init n answers =>
    obtain ⟨⟨dev, ok⟩, hr, rfl⟩ := Option.map_eq_some_iff.mp next
    rw [exact_update h (by cases ok <;> grind), Granted, ← init_exact_iff (h n) hr]
    cases ok <;> simp
  | destroy i answers =>
    obtain ⟨n, hf, next⟩ := Option.bind_eq_some_iff.mp next
    obtain ⟨⟨dev, ok⟩, hr, rfl⟩ := Option.map_eq_some_iff.mp next
    obtain ⟨hb, rfl⟩ := List.getElem?_eq_some_iff.mp hf
    have count (m : Nat) := (getElem_cons_eraseIdx_perm hb).count_eq m
    have here := count s.bases[i]
    rw [count_cons_self] at here
    have used : 0 < s.bases.count s.bases[i] := by omega
    simp only [Granted, hf, Option.some.injEq, forall_eq']
    rw [← destroy_exact_iff (h _) used hr, exact_update h]
    · cases ok <;> simp [← here]
    · intro m other
      have := count m
      rw [count_cons_of_ne (Ne.symm other)] at this
      cases ok <;> simp [this]

/-- After every call the counts are exact, as long as the calls that have to succeed do. -/
theorem domains_exact_iff (calls : List Call) :
    (∀ k s, run step initial (calls.take k) = some s → Exact s) ↔ Meets step Granted initial calls := by
  apply always_iff_meets Exact (fun s call s' h next => step_exact_iff h next)
  · intro s call h hn
    cases call with
    | init n answers => grind [step, ncclIbInitCommDevBase, (h n).free]
    | destroy i answers =>
      intro n hf
      grind [step, ncclIbDestroyBase, (h n).free]
  · intro n
    constructor <;> simp [initial]

/-- A region of the cache cannot be deregistered: the last base is not destroyed and the lock is not given back. -/
theorem returned_with_lock :
    ∃ s, run step initial [.init 0 ⟨true, true⟩, .destroy 0 ⟨true, [false], true⟩] = some s ∧
      (s.devs 0).locked = true ∧ (s.devs 0).pdRefs = 0 ∧ (s.devs 0).pd = true ∧ ¬ Exact s :=
  ⟨_, rfl, by decide, by decide, by decide, fun h => absurd (h 0).free (by decide)⟩

end Vccl.Ib.Domains
