import Mathlib

/-! Runs of a partial step function. Nothing here names the modelled library;
an action that is not enabled makes the whole run undefined. -/
namespace Transition

variable {S A : Type}

def run (step : S → A → Option S) : S → List A → Option S
  | s, [] => some s
  | s, a :: rest => (step s a).bind (fun s' => run step s' rest)

/-- Every action meets `ok` in the state it is taken from. -/
def Meets (step : S → A → Option S) (ok : S → A → Prop) : S → List A → Prop
  | _, [] => True
  | s, a :: rest => ok s a ∧ ∀ s', step s a = some s' → Meets step ok s' rest

def Reachable (step : S → A → Option S) (initial s : S) : Prop :=
  ∃ actions, run step initial actions = some s

variable {step : S → A → Option S} {ok : S → A → Prop} {s t : S} {a : A}

theorem run_cons_some {rest : List A} :
    run step s (a :: rest) = some t ↔ ∃ m, step s a = some m ∧ run step m rest = some t := by
  simp [run, Option.bind_eq_some_iff]

theorem run_append (s : S) (xs ys : List A) :
    run step s (xs ++ ys) = (run step s xs).bind (fun m => run step m ys) := by
  induction xs generalizing s with
  | nil => rfl
  | cons a rest ih =>
    cases next : step s a with
    | none => simp [run, next]
    | some m => simpa [run, next] using ih m

theorem run_invariant (inv : S → Prop) (preserves : ∀ s a s', inv s → ok s a → step s a = some s' → inv s')
    (actions : List A) (initial : inv s) (admitted : Meets step ok s actions)
    (ran : run step s actions = some t) : inv t := by
  induction actions generalizing s with
  | nil =>
    simp only [run, Option.some.injEq] at ran
    exact ran ▸ initial
  | cons a rest ih =>
    obtain ⟨m, next, tail⟩ := run_cons_some.mp ran
    exact ih (preserves s a m initial admitted.1 next) (admitted.2 m next) tail

/-- Where the admitted steps are the ones that preserve a property, it holds all along a run exactly if every
step of the run is admitted. -/
theorem always_iff_meets (inv : S → Prop) (exactly : ∀ s a s', inv s → step s a = some s' → (inv s' ↔ ok s a))
    (blocked : ∀ s a, inv s → step s a = none → ok s a) (actions : List A) (initial : inv s) :
    (∀ k t, run step s (actions.take k) = some t → inv t) ↔ Meets step ok s actions := by
  induction actions generalizing s with
  | nil => exact ⟨fun _ => trivial, fun _ k t ran => by simp_all [run]⟩
  | cons a rest ih =>
    constructor
    · intro ha
      refine ⟨?_, fun m next => (ih (ha 1 m (by simp [run, next]))).mp fun k t ran => ?_⟩
      · cases next : step s a with
        | none => exact blocked s a initial next
        | some m => exact (exactly s a m initial next).mp (ha 1 m (by simp [run, next]))
      · exact ha (k + 1) t (run_cons_some.mpr ⟨m, next, ran⟩)
    · rintro ⟨met, later⟩ (- | k) t ran
      · exact Option.some.inj ran ▸ initial
      · obtain ⟨m, next, tail⟩ := run_cons_some.mp ran
        exact (ih ((exactly s a m initial next).mpr met)).mpr (later m next) k t tail

theorem run_succeeds (inv : S → Prop)
    (enabled : ∀ s a, inv s → ok s a → ∃ s', step s a = some s' ∧ inv s')
    {s : S} (actions : List A) (initial : inv s) (admitted : Meets step ok s actions) :
    ∃ t, run step s actions = some t ∧ inv t := by
  induction actions generalizing s with
  | nil => exact ⟨s, rfl, initial⟩
  | cons a rest ih =>
    obtain ⟨m, next, kept⟩ := enabled s a initial admitted.1
    obtain ⟨t, ran, last⟩ := ih kept (admitted.2 m next)
    exact ⟨t, run_cons_some.mpr ⟨m, next, ran⟩, last⟩

theorem reachable_invariant (inv : S → Prop) {initial s : S} (start : inv initial)
    (preserves : ∀ s a s', inv s → step s a = some s' → inv s')
    (reached : Reachable step initial s) : inv s := by
  obtain ⟨actions, ran⟩ := reached
  induction actions generalizing initial with
  | nil =>
    simp only [run, Option.some.injEq] at ran
    exact ran ▸ start
  | cons a rest ih =>
    obtain ⟨m, next, tail⟩ := run_cons_some.mp ran
    exact ih (preserves initial a m start next) tail

theorem Reachable.refl (s : S) : Reachable step s s := ⟨[], rfl⟩

theorem Reachable.single (next : step s a = some t) : Reachable step s t :=
  ⟨[a], by simp [run, next]⟩

theorem Reachable.trans {s t u : S} (first : Reachable step s t) (second : Reachable step t u) :
    Reachable step s u := by
  obtain ⟨xs, left⟩ := first
  obtain ⟨ys, right⟩ := second
  refine ⟨xs ++ ys, ?_⟩
  rw [run_append, left]
  exact right

theorem reaches_goal (inv goal : S → Prop) (measure : S → Nat)
    (moves : ∀ s, inv s → ¬ goal s → ∃ a t, step s a = some t ∧ inv t ∧ measure t < measure s)
    {s : S} (start : inv s) : ∃ t, Reachable step s t ∧ inv t ∧ goal t := by
  induction n : measure s using Nat.strongRecOn generalizing s with
  | ind n ih =>
    by_cases met : goal s
    · exact ⟨s, Reachable.refl s, start, met⟩
    · obtain ⟨a, m, next, kept, less⟩ := moves s start met
      obtain ⟨t, hr, done⟩ := ih (measure m) (n ▸ less) kept rfl
      exact ⟨t, (Reachable.single next).trans hr, done⟩

instance decidableMeets [∀ s a, Decidable (ok s a)] :
    ∀ (s : S) (actions : List A), Decidable (Meets step ok s actions)
  | _, [] => isTrue trivial
  | s, a :: rest =>
    match taken : step s a with
    | none => decidable_of_iff (ok s a) (by simp [Meets, taken])
    | some m =>
      have := decidableMeets m rest
      decidable_of_iff (ok s a ∧ Meets step ok m rest) (by simp [Meets, taken])

theorem run_reaches (step : S → A → Option S) (s : S) (actions : List A) (goal : S → Prop) [DecidablePred goal]
    (found : (run step s actions).any fun t => decide (goal t)) : ∃ t, run step s actions = some t ∧ goal t := by
  obtain ⟨t, ran, hp⟩ := (Option.any_eq_true _ _).mp found
  exact ⟨t, ran, of_decide_eq_true hp⟩

theorem run_step_reaches (step : S → A → Option S) (s : S) (actions : List A) (a : A) (goal : S → S → Prop)
    [DecidableRel goal] (found : (run step s actions).any fun m => (step m a).any fun t => decide (goal m t)) :
    ∃ m t, run step s actions = some m ∧ step m a = some t ∧ goal m t := by
  obtain ⟨m, ran, last⟩ := (Option.any_eq_true _ _).mp found
  obtain ⟨t, ht, hp⟩ := (Option.any_eq_true _ _).mp last
  exact ⟨m, t, ran, ht, of_decide_eq_true hp⟩

/-- An infinite run in which a step that would change something is not put off for ever: it is taken,
or something else changes the state. -/
structure FairRun (step : S → A → Option S) (states : Nat → S) (actions : Nat → A) : Prop where
  steps : ∀ n, step (states n) (actions n) = some (states (n + 1))
  fair : ∀ n a t, step (states n) a = some t → t ≠ states n →
    ∃ m, n ≤ m ∧ (actions m = a ∨ states m ≠ states n)

section Fair

variable {states : Nat → S} {actions : Nat → A}

theorem FairRun.keeps (fair : FairRun step states actions) (inv : S → Prop) (start : inv (states 0))
    (preserves : ∀ s a t, inv s → step s a = some t → inv t) (n : Nat) : inv (states n) := by
  induction n with
  | zero => exact start
  | succ n ih => exact preserves _ _ _ ih (fair.steps n)

theorem FairRun.same_or_lower (fair : FairRun step states actions) (inv : S → Prop) (measure : S → Nat)
    (holds : ∀ n, inv (states n))
    (lowers : ∀ s a t, inv s → step s a = some t → t = s ∨ measure t < measure s) {n m : Nat}
    (later : n ≤ m) : states m = states n ∨ measure (states m) < measure (states n) := by
  induction later with
  | refl => exact .inl rfl
  | @step m _ ih =>
    rcases lowers _ _ _ (holds m) (fair.steps m) with same | less
    · rw [same]
      exact ih
    · rcases ih with same | less'
      · rw [same] at less
        exact .inr less
      · exact .inr (Nat.lt_trans less less')

theorem FairRun.reaches (fair : FairRun step states actions) (inv goal : S → Prop) (measure : S → Nat)
    (holds : ∀ n, inv (states n))
    (lowers : ∀ s a t, inv s → step s a = some t → t = s ∨ measure t < measure s)
    (moves : ∀ s, inv s → ¬ goal s → ∃ a t, step s a = some t ∧ t ≠ s) (n : Nat) :
    ∃ m, n ≤ m ∧ goal (states m) := by
  induction rank : measure (states n) using Nat.strongRecOn generalizing n with
  | ind rank ih =>
    by_cases met : goal (states n)
    · exact ⟨n, Nat.le_refl n, met⟩
    obtain ⟨a, t, next, changes⟩ := moves _ (holds n) met
    obtain ⟨m, hl, event⟩ := fair.fair n a t next changes
    have drop : ∃ k, n ≤ k ∧ measure (states k) < measure (states n) := by
      rcases fair.same_or_lower inv measure holds lowers hl with same | less
      · rcases event with ht | hd
        · have stepped := fair.steps m
          rw [ht, same, next, Option.some.injEq] at stepped
          refine ⟨m + 1, by omega, ?_⟩
          rw [← stepped]
          exact (lowers _ _ _ (holds n) next).resolve_left changes
        · exact absurd same hd
      · exact ⟨m, hl, less⟩
    obtain ⟨k, _, less⟩ := drop
    obtain ⟨u, _, done⟩ := ih _ (rank ▸ less) k rfl
    exact ⟨u, by omega, done⟩

end Fair

end Transition
