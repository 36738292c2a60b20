import Vccl.Ib.Test

/-! Whole runs of one communicator: posting, completions, tests, flags and rollbacks. -/
namespace Vccl.Ib

open List Function Transition

variable {cfg : Config} {s : State}

def Unowned (s : State) (slots : List Nat) : Prop :=
  ∀ q, ∀ wr ∈ s.inFlight q, ∀ o ∈ wr.owners, o.slot ∉ slots

/-- A rollback that frees `slots` reaches all their work requests: those still posted are on queue
pairs it resets, the completions that came in are in queues it empties. -/
structure Reached (s : State) (slots : List Nat) : Prop where
  posted : ∀ q, ∀ wr ∈ s.posted q, (∃ o ∈ wr.owners, o.slot ∈ slots) →
    q.backup = false ∧ s.warn q.dev = true ∧ wr.flush = false
  completed : ∀ q, ∀ c ∈ s.cq q, c.ok = true → (∃ o ∈ c.wr.owners, o.slot ∈ slots) →
    q.backup = false ∧ q.dev.val < 2

def Orderly (cfg : Config) (s : State) : Action → Prop
  | .isend _ => cfg.faultTolerance ∧ (cfg.entry s.fifoHead).ifBackup ≠ s.warn (cfg.dev 0) → Unmixed cfg s
  | .test k _ => Clean cfg s k
  | .setWarn _ _ => Unmixed cfg s
  | .free slots => Unowned s slots ∧ ∀ slot r k, s.fifoReqs slot r = some k → k ∉ slots
  | .rollBack slots _ _ => Reached s slots ∧ ∀ slot r, s.fifoReqs slot r = none
  | _ => True

theorem successes_failed (wrs : List WorkRequest) : successes (wrs.map fun wr => ⟨wr, false⟩) = [] :=
  successes_of_failed (by simp)

variable {wr : WorkRequest} {q : Queue}

theorem Inv.complete (h : Inv cfg s) {position : Nat} (ok : Bool) (found : (s.posted q)[position]? = some wr) :
    Inv cfg { s with
      posted := update s.posted q ((s.posted q).eraseIdx position)
      cq := update s.cq q (s.cq q ++ [⟨wr, ok⟩]) } := by
  intro i
  refine (h i).thin ?_ rfl ⟨rfl, rfl, rfl⟩ rfl
  intro q'
  unfold State.inFlight
  by_cases here : q' = q
  · subst here
    obtain ⟨hi, rfl⟩ := List.getElem?_eq_some_iff.mp found
    simp only [update_self, successes_append]
    have perm := getElem_cons_eraseIdx_perm hi
    have one : (successes [⟨(s.posted q')[position], ok⟩]).Sublist [(s.posted q')[position]] := by
      cases ok <;> simp [successes]
    have moved : ((s.posted q').eraseIdx position ++ (successes (s.cq q') ++ [(s.posted q')[position]])).Perm
        (s.posted q' ++ successes (s.cq q')) := by
      rw [← append_assoc]
      exact (perm_append_singleton _ _).trans (perm.append_right _)
    exact (List.Sublist.append_left (List.Sublist.append_left one _) _).subperm.trans moved.subperm
  · simp only [update_of_ne here]
    exact List.Subperm.refl _

theorem Inv.fail (h : Inv cfg s) (q : Queue) (wr : WorkRequest) :
    Inv cfg { s with cq := update s.cq q (s.cq q ++ [⟨wr, false⟩]) } := by
  intro i
  refine (h i).thin ?_ rfl ⟨rfl, rfl, rfl⟩ rfl
  intro q'
  unfold State.inFlight
  by_cases here : q' = q
  · subst here
    simp only [update_self, successes_append]
    have none : successes [⟨wr, false⟩] = [] := rfl
    rw [none, append_nil]
  · simp only [update_of_ne here]
    exact Subperm.refl _

theorem mem_reTransition {portUp : Bool} (mem : wr ∈ (reTransition portUp s).inFlight q) :
    wr ∈ s.posted q ∧ (q.backup = true ∨ s.warn q.dev = false ∨ wr.flush = true) ∨
      wr ∈ successes (s.cq q) ∧ ¬ (q.backup = false ∧ q.dev.val < 2) := by
  unfold State.inFlight reTransition at mem
  simp only [successes_append, mem_append] at mem
  rcases mem with posted | he | hf
  · left
    simpa [or_assoc] using posted
  · right
    split at he
    · simp [successes] at he
    · exact ⟨he, by assumption⟩
  · split at hf
    · simp [successes] at hf
    · simp [successes_failed] at hf

theorem reTransition_thin (portUp : Bool) (s : State) (q : Queue) :
    ((reTransition portUp s).inFlight q).Subperm (s.inFlight q) := by
  unfold State.inFlight reTransition
  simp only [successes_append]
  refine Sublist.subperm (Sublist.append filter_sublist ?_)
  have none : successes (if portUp = true then [] else
      ((s.posted q).filter fun wr => !q.backup && s.warn q.dev && !wr.flush).map
        fun wr => (⟨wr, false⟩ : Completion)) = [] := by
    split
    · rfl
    · exact successes_failed _
  rw [none, append_nil]
  split
  · exact nil_sublist _
  · exact Sublist.refl _

variable {slots : List Nat}

theorem Reached.unowned (reached : Reached s slots) (portUp : Bool) :
    Unowned (reTransition portUp s) slots := by
  intro q wr mem o owns freed
  rcases mem_reTransition mem with ⟨hpo, kept⟩ | ⟨hc, kept⟩
  · obtain ⟨hpr, hf, data⟩ := reached.posted q wr hpo ⟨o, owns, freed⟩
    simp [hpr, hf, data] at kept
  · obtain ⟨c, hp, rfl⟩ := mem_map.mp hc
    obtain ⟨hp, ok⟩ := mem_filter.mp hp
    exact kept (reached.completed q c hp ok ⟨o, owns, freed⟩)

theorem Inv.rollBack (h : Inv cfg s) (reached : Reached s slots) (idle : ∀ slot r, s.fifoReqs slot r = none)
    (head : Option Nat) (portUp : Bool) :
    Inv cfg (rollBack slots head portUp s) := by
  have reset : Inv cfg (reTransition portUp s) := by
    intro i
    exact (h i).thin (reTransition_thin portUp s) rfl ⟨rfl, rfl, rfl⟩ rfl
  have freed : Inv cfg (freeRequests slots (reTransition portUp s)) := by
    refine reset.free (reached.unowned portUp) ?_
    intro slot r k waits
    have none : s.fifoReqs slot r = some k := waits
    rw [idle] at none
    contradiction
  -- Nothing waits, so the head and the queue pair index are free to move.
  intro i
  have acc := freed i
  refine ⟨acc.sound, acc.counts, ?_, acc.once, ?_, acc.role⟩
  all_goals
    intro slot r k waits
    have none : s.fifoReqs slot r = some k := waits
    rw [idle] at none
    contradiction

theorem Inv.testRound {k : Nat} (h : Inv cfg s) (exact : Exact s) (clean : Clean cfg s k)
    (wcs : Nat → Completion) : Inv cfg (testRound k wcs s) ∧ Exact (testRound k wcs s) := by
  unfold Ib.testRound
  split
  next zero =>
    exact ⟨h.done zero, exact⟩
  · refine turns_clean _ (pairwise_lt_finRange _) clean (Ahead.refl s k _) ?_ h exact
    intro kind hn
    cases kind <;> contradiction

theorem inv_initial (cfg : Config) : Inv cfg initial := by
  intro i
  refine ⟨?_, ?_, ?_, ?_, ?_, fun _ _ _ => rfl⟩
  · intro q wr mem
    simp [State.inFlight, initial, successes] at mem
  · intro k d
    simp [State.due, State.inFlight, initial, successes]
  · intro slot r k waits
    contradiction
  · intro slot r r' k waits
    contradiction
  · intro slot r k waits
    contradiction

/-! Posting does not touch the logs of `ncclIbTest`. -/

def Logged (s t : State) : Prop := t.polled = s.polled ∧ t.decremented = s.decremented

theorem Logged.trans {s t u : State} (first : Logged s t) (second : Logged t u) : Logged s u :=
  ⟨second.1.trans first.1, second.2.trans first.2⟩

variable {t : State}

theorem Logged.exact (logged : Logged s t) (exact : Exact s) : Exact t := by
  unfold Exact
  rw [logged.1, logged.2]
  exact exact

theorem getRequest_logged {type : ReqType} {nreqs : Nat → Nat} {k : Nat}
    (got : getRequest s type nreqs = some (k, t)) : Logged s t := by
  obtain ⟨-, -, rfl⟩ := getRequest_some got
  exact ⟨rfl, rfl⟩

theorem postRecvs_logged (k n : Nat) (s : State) : Logged s (postRecvs cfg k n s) := by
  induction n generalizing s with
  | zero => exact ⟨rfl, rfl⟩
  | succ n ih => exact Logged.trans ⟨rfl, rfl⟩ (ih _)

theorem postFifo_logged (k : Nat) (s : State) : Logged s (postFifo cfg k s) := by
  unfold postFifo
  split <;> exact ⟨rfl, rfl⟩

theorem irecv_logged {n : Nat} (posted : irecv cfg s n = some t) : Logged s t := by
  obtain ⟨-, posted⟩ := Option.ite_none_right_eq_some.mp posted
  obtain ⟨⟨k, u⟩, got, rfl⟩ := Option.map_eq_some_iff.mp posted
  have based : Logged u (u.modify k (·.setBases cfg)) := ⟨rfl, rfl⟩
  exact (getRequest_logged got).trans
    (based.trans ((postRecvs_logged k _ _).trans (postFifo_logged k _)))

theorem postFlushes_logged (k : Nat) (devs : List Dev) (s : State) :
    Logged s (postFlushes cfg k devs s) := by
  induction devs generalizing s with
  | nil => exact ⟨rfl, rfl⟩
  | cons d rest ih => exact Logged.trans ⟨rfl, rfl⟩ (ih _)

theorem iflush_logged (posted : iflush cfg s = some t) : Logged s t := by
  unfold iflush at posted
  split at posted
  · obtain ⟨⟨k, u⟩, got, rfl⟩ := Option.map_eq_some_iff.mp posted
    exact (getRequest_logged got).trans (postFlushes_logged k _ u)
  · contradiction

theorem postSends_logged (wr : WorkRequest) (n : Nat) (s : State) : Logged s (postSends cfg wr n s) := by
  induction n generalizing s with
  | zero => exact ⟨rfl, rfl⟩
  | succ n ih => exact Logged.trans ⟨rfl, rfl⟩ (ih _)

theorem multiSend_logged (s : State) : Logged s (multiSend cfg s) :=
  (postSends_logged _ _ s).trans ⟨rfl, rfl⟩

theorem followEntry_logged (cfg : Config) (s : State) : Logged s (followEntry cfg s) := by
  unfold followEntry
  simp only
  split <;> exact ⟨rfl, rfl⟩

theorem isend_logged {r : Nat} (posted : isend cfg s r = some t) : Logged s t := by
  unfold isend at posted
  simp only at posted
  split at posted
  · obtain ⟨⟨k, u⟩, got, rfl⟩ := Option.map_eq_some_iff.mp posted
    have before := (followEntry_logged cfg s).trans (getRequest_logged got)
    have counted : Logged u ((addEvents cfg k cfg.perMessage u.qpIndex u).setMatched r k) := by
      obtain ⟨_, ha, -⟩ := addEvents_spec cfg k cfg.perMessage u.qpIndex u
      rw [ha]
      exact ⟨rfl, rfl⟩
    split
    · exact before.trans (counted.trans (multiSend_logged _))
    · exact before.trans counted
  · contradiction

theorem inv_step (s : State) (a : Action) (t : State) (h : Inv cfg s ∧ Exact s) (orderly : Orderly cfg s a)
    (stepped : step cfg s a = some t) : Inv cfg t ∧ Exact t := by
  obtain ⟨h, exact⟩ := h
  cases a with
  | irecv n => exact ⟨irecv_inv h stepped, (irecv_logged stepped).exact exact⟩
  | isend r =>
    refine ⟨isend_inv ?_ stepped, (isend_logged stepped).exact exact⟩
    by_cases hf : cfg.faultTolerance ∧ (cfg.entry s.fifoHead).ifBackup ≠ s.warn (cfg.dev 0)
    · exact followEntry_inv h (orderly hf)
    · rw [followEntry]
      simp only [hf]
      exact h
  | iflush => exact ⟨iflush_inv h stepped, (iflush_logged stepped).exact exact⟩
  | test k wcs =>
    cases stepped
    exact h.testRound exact orderly wcs
  | complete q position ok =>
    obtain ⟨wr, hfo, rfl⟩ := Option.map_eq_some_iff.mp stepped
    exact ⟨h.complete ok hfo, exact⟩
  | fail q wr =>
    cases stepped
    exact ⟨h.fail q wr, exact⟩
  | setWarn d flag =>
    cases stepped
    exact ⟨fun i => (h i).setWarn orderly _, exact⟩
  | free slots =>
    cases stepped
    exact ⟨h.free orderly.1 orderly.2, exact⟩
  | rollBack slots head portUp =>
    cases stepped
    exact ⟨h.rollBack orderly.1 orderly.2 head portUp, exact⟩

/-- In a run whose steps are orderly, every completion that `ncclIbTest` polled is taken off the
requests it was posted for. -/
theorem polled_completions_exact (cfg : Config) (actions : List Action) (s : State)
    (orderly : Meets (step cfg) (Orderly cfg) initial actions)
    (ran : run (step cfg) initial actions = some s) : Exact s :=
  (run_invariant (fun s => Inv cfg s ∧ Exact s) inv_step actions ⟨inv_initial cfg, rfl⟩
    orderly ran).2

/- One device with a backup; a message takes two queue pairs. -/
def twoQueuePairs : Config where
  isSend := false
  faultTolerance := true
  ndevs := 1
  backupNdevs := 1
  nqps := 2
  perMessage := 2
  entry := fun _ => ⟨1, false⟩
  someDev := Nat.one_pos
  devs := maxDevsPerNic_pos
  someBackup := Nat.one_pos
  backupDevs := maxDevsPerNic_pos
  messages := Nat.two_pos
  entries := fun _ => by decide

def untouched (_ : Nat) : Completion := ⟨⟨0, false, false, []⟩, false⟩

def backupOnly : Queue := ⟨true, twoQueuePairs.dev 0⟩

def failover : List Action :=
  [.irecv 1, .complete ⟨false, twoQueuePairs.dev 0⟩ 0 true, .test 0 untouched,
    .setWarn (twoQueuePairs.dev 0) true, .rollBack [0] none true, .irecv 1, .complete backupOnly 1 true,
    .test 0 untouched]

theorem failover_orderly :
    Meets (step twoQueuePairs) (Orderly twoQueuePairs) initial failover := by
  refine ⟨trivial, fun s1 ran => ?_⟩
  obtain rfl := Option.some.inj ran
  refine ⟨trivial, fun s2 ran => ?_⟩
  obtain rfl := Option.some.inj ran
  refine ⟨⟨by decide +kernel, by decide +kernel, .inl (.inl rfl)⟩, fun s3 ran => ?_⟩
  obtain rfl := Option.some.inj ran
  refine ⟨.inl rfl, fun s4 ran => ?_⟩
  obtain rfl := Option.some.inj ran
  refine ⟨⟨⟨?_, ?_⟩, fun _ _ => rfl⟩, fun s5 ran => ?_⟩
  · rintro ⟨backup, dev⟩
    revert backup dev
    decide +kernel
  · rintro ⟨backup, dev⟩
    revert backup dev
    decide +kernel
  obtain rfl := Option.some.inj ran
  refine ⟨trivial, fun s6 ran => ?_⟩
  obtain rfl := Option.some.inj ran
  refine ⟨trivial, fun s7 ran => ?_⟩
  obtain rfl := Option.some.inj ran
  exact ⟨⟨by decide +kernel, by decide +kernel, .inl (.inl rfl)⟩, fun _ _ => trivial⟩

theorem failover_exact : ∃ s, run (step twoQueuePairs) initial failover = some s ∧
    s.polled.length = 2 ∧ Exact s := by
  obtain ⟨s, ran, polled⟩ := run_reaches (step twoQueuePairs) initial failover
    (fun s => s.polled.length = 2) (by decide +kernel)
  exact ⟨s, ran, polled,
    polled_completions_exact twoQueuePairs failover s failover_orderly ran⟩

def lateCompletion : List Action :=
  [.setWarn (twoQueuePairs.dev 0) true, .irecv 1, .complete backupOnly 0 false, .test 0 untouched,
    .rollBack [0] none true, .irecv 1, .complete backupOnly 0 true, .test 0 untouched]

theorem late_completion_decrements_next_use :
    ∃ s, run (step twoQueuePairs) initial lateCompletion = some s ∧
      s.polled = [(⟨0, true, false, [⟨0, 1⟩]⟩, twoQueuePairs.dev 0)] ∧
      s.decremented = [(⟨0, 2⟩, twoQueuePairs.dev 0)] ∧ ¬ Exact s := by
  obtain ⟨s, ran, hf⟩ := run_reaches (step twoQueuePairs) initial lateCompletion
    (fun s => s.polled = [(⟨0, true, false, [⟨0, 1⟩]⟩, twoQueuePairs.dev 0)] ∧
      s.decremented = [(⟨0, 2⟩, twoQueuePairs.dev 0)]) (by decide +kernel)
  refine ⟨s, ran, hf.1, hf.2, ?_⟩
  unfold Exact
  rw [hf.1, hf.2]
  decide

end Vccl.Ib
