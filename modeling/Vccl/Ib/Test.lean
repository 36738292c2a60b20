import Vccl.Ib.Posting

/-! One turn of the loop of `ncclIbTest`, and the runs in which every completion is taken off the
requests it belongs to. -/
namespace Vccl.Ib

open List

variable {cfg : Config} {s : State} {i : Dev}

theorem decrement_events (s : State) (k : Nat) (i : Dev) (j : Nat) (d : Dev) :
    ((s.decrement k i).reqs j).events d = (s.reqs j).events d - if j = k ∧ d = i then 1 else 0 := by
  by_cases here : j = k
  · subst here
    by_cases dev : d = i
    all_goals simp [State.decrement, dev]
  · simp [State.decrement, here]

/-- Only the events on device `i` went down, and the log says whose. -/
def Took (s t : State) (i : Dev) (os : List Owner) : Prop :=
  ∃ reqs, t = { s with reqs, decremented := s.decremented ++ os.map (·, i) } ∧
    ∀ k, ∃ events, reqs k = { s.reqs k with events } ∧ ∀ d, d ≠ i → events d = (s.reqs k).events d

theorem Took.refl (s : State) (i : Dev) : Took s s i [] :=
  ⟨s.reqs, by simp, fun _ => ⟨_, rfl, fun _ _ => rfl⟩⟩

theorem Took.trans {t u : State} {xs ys : List Owner} (first : Took s t i xs) (second : Took t u i ys) :
    Took s u i (xs ++ ys) := by
  obtain ⟨_, rfl, left⟩ := first
  obtain ⟨reqs, rfl, right⟩ := second
  refine ⟨reqs, by simp, fun k => ?_⟩
  obtain ⟨_, one, kept⟩ := left k
  obtain ⟨events, two, kept'⟩ := right k
  simp only [one] at two kept'
  exact ⟨events, two, fun d other => (kept' d other).trans (kept d other)⟩

theorem Took.alike {t : State} {os : List Owner} (h : Took s t i os) : Alike s.reqs t.reqs := by
  obtain ⟨_, rfl, each⟩ := h
  intro k
  obtain ⟨_, same, -⟩ := each k
  simp [same]

theorem decrement_took {o : Owner} (current : s.owner o.slot = o) :
    Took s (s.decrement o.slot i) i [o] := by
  refine ⟨_, by rw [State.decrement, current]; rfl, fun k => ?_⟩
  by_cases here : k = o.slot
  · subst here
    exact ⟨_, Function.update_self .., fun d other => Function.update_of_ne other ..⟩
  · exact ⟨_, Function.update_of_ne here .., fun _ _ => rfl⟩

variable {owed : List Owner}

theorem Accounts.decrement {o : Owner} (h : Accounts cfg s i (o :: owed)) (current : s.owner o.slot = o) :
    0 < (s.reqs o.slot).events i ∧ Accounts cfg (s.decrement o.slot i) i owed := by
  have share' : ∀ k, (o :: owed).count (s.owner k) =
      owed.count (s.owner k) + if k = o.slot then 1 else 0 := by
    intro k
    by_cases here : k = o.slot
    · simp [here, current]
    · have other : ¬ o = s.owner k := by
        intro same
        exact here (congrArg Owner.slot same).symm
      simp [here, other]
  have due : ∀ owner d, (s.decrement o.slot i).due owner d = s.due owner d := fun _ _ => rfl
  have alike : Alike s.reqs (s.decrement o.slot i).reqs := (decrement_took current).alike
  have owner : ∀ k, (s.decrement o.slot i).owner k = s.owner k := owner_of_alike alike
  constructor
  · have counts := h.counts o.slot i
    rw [share'] at counts
    simp at counts
    omega
  · refine h.change ⟨rfl, rfl⟩ ?_ ?_ ?_
    · intro q wr mem
      exact (h.sound q wr mem).of_alike fun o' _ => alike o'.slot
    · intro k d
      rw [Slack, owner, due, decrement_events, share']
      by_cases here : k = o.slot <;> by_cases dev : d = i <;> simp [here, dev]
      omega
    · intro slot r k waits
      obtain ⟨type, hn, -⟩ := alike k
      exact ⟨type, hn, rfl⟩

theorem decrementSends_took {wrId : Nat} (os : List Owner) (j : Nat)
    (named : ∀ n (inside : n < os.length), slotAt wrId (j + n) = os[n].slot) (current : ∀ o ∈ os, s.owner o.slot = o)
    (h : Accounts cfg s i (os ++ owed)) :
    ∃ t, decrementSends i wrId os.length j s = (t, .going) ∧ Accounts cfg t i owed ∧
      Took s t i os := by
  induction os generalizing s j with
  | nil => exact ⟨s, rfl, h, Took.refl s i⟩
  | cons o rest ih =>
    have here := current o mem_cons_self
    obtain ⟨_, next⟩ := Accounts.decrement h here
    have slot : slotAt wrId j = o.slot := named 0 (Nat.zero_lt_succ _)
    have took : Took s (s.decrement o.slot i) i [o] := decrement_took here
    obtain ⟨t, ran, done, took'⟩ := ih (j + 1)
      (fun n inside => by
        have := named (n + 1) (by simpa using inside)
        rw [← Nat.add_assoc, Nat.add_right_comm] at this
        simpa using this)
      (fun o' mem => by
        rw [owner_of_alike took.alike]
        exact current o' (mem_cons_of_mem _ mem)) next
    refine ⟨t, ?_, done, took.trans took'⟩
    rw [length_cons, decrementSends, slot, if_neg (by omega)]
    exact ran

theorem handle_took {wr : WorkRequest} (sound : Sound s.reqs wr) (h : Accounts cfg s i (wr.owners ++ owed)) :
    ∃ t, handle i wr s = (t, .going) ∧ Accounts cfg t i owed ∧ Took s t i wr.owners := by
  have current : ∀ o ∈ wr.owners, s.owner o.slot = o := by
    intro o mem
    have use := (sound.live o mem).2.1
    simp [State.owner, use]
  have named : ∀ n (hi : n < wr.owners.length), slotAt wr.wrId (0 + n) = wr.owners[n].slot := by
    intro n hi
    rw [sound.id, Nat.zero_add, slotAt_wrIdOf _ _ n (by simpa using hi)]
    · simp
    · intro slot mem
      obtain ⟨o, here, rfl⟩ := mem_map.mp mem
      exact (sound.live o here).1
  obtain ⟨o, _, owners, shape⟩ := sound.shape
  have first : slotAt wr.wrId 0 = o.slot := by
    have := named 0 (by simp [owners])
    simpa [owners] using this
  unfold handle
  simp only [first]
  rcases shape with ⟨send, nreqs⟩ | ⟨ho, rfl, imm⟩
  · rw [if_pos send, nreqs]
    exact decrementSends_took wr.owners 0 named current h
  have allowed : ¬ (wr.imm = true ∧ (s.reqs o.slot).type ≠ .recv) := by
    rintro ⟨is, not⟩
    exact not (imm is)
  rw [if_neg ho, if_neg allowed]
  have here := current o (by simp [owners])
  rw [owners] at h ⊢
  exact ⟨_, rfl, (Accounts.decrement h here).2, decrement_took here⟩

def Ordered (batch : List Completion) : Prop := ∀ c ∈ batch.dropWhile (·.ok), c.ok = false

instance (batch : List Completion) : Decidable (Ordered batch) := by
  unfold Ordered
  infer_instance

theorem successes_of_failed {batch : List Completion} (failed : ∀ c ∈ batch, c.ok = false) :
    successes batch = [] := by
  simp only [successes, map_eq_nil_iff, filter_eq_nil_iff, Bool.not_eq_true]
  exact failed

theorem process_batch (k : Nat) (batch : List Completion) (ordered : Ordered batch)
    (sound : ∀ wr ∈ successes batch, Sound s.reqs wr)
    (unmixed : Unmixed cfg s ∨ ∀ c ∈ batch, c.ok = true)
    (h : Accounts cfg s i ((successes batch).flatMap (·.owners))) :
    ∃ t v, process k i batch s = (t, v) ∧ Inv cfg t ∧ t.polled = s.polled ∧
      t.decremented = s.decremented ++ ((successes batch).flatMap (·.owners)).map (·, i) ∧
      (v = .going → Took s t i ((successes batch).flatMap (·.owners))) := by
  induction batch generalizing s with
  | nil => exact ⟨s, .going, rfl, h.inv, rfl, by simp [successes], fun _ => Took.refl s i⟩
  | cons c rest ih =>
    by_cases ok : c.ok = true
    · have split : successes (c :: rest) = c.wr :: successes rest := by simp [successes, ok]
      rw [split, flatMap_cons] at h ⊢
      rw [split] at sound
      obtain ⟨t, hh, next, took⟩ := handle_took (sound c.wr mem_cons_self) h
      have ordered' : Ordered rest := by
        unfold Ordered at ordered ⊢
        rwa [dropWhile_cons_of_pos ok] at ordered
      have frame := took
      obtain ⟨_, rfl, -⟩ := frame
      obtain ⟨u, v, ran, inv, polled, log, took'⟩ := ih ordered'
        (fun wr mem => (sound wr (mem_cons_of_mem _ mem)).of_alike fun o _ => took.alike o.slot)
        (unmixed.imp id fun all c' mem => all c' (mem_cons_of_mem _ mem)) next
      refine ⟨u, v, ?_, inv, polled, ?_, fun going => took.trans (took' going)⟩
      · rw [process, if_pos ok, hh]
        exact ran
      · rw [log, map_append, append_assoc]
    · have failed : ∀ c' ∈ c :: rest, c'.ok = false := by
        unfold Ordered at ordered
        rwa [dropWhile_cons_of_neg ok] at ordered
      rw [successes_of_failed failed] at h ⊢
      rcases unmixed with unmixed | all
      · refine ⟨flagDevs k i s, .remoteError, ?_, (Accounts.setWarn h unmixed _).inv, rfl, ?_, ?_⟩
        · rw [process, if_neg ok]
        · simp [flagDevs]
        · intro going
          contradiction
      · exact absurd (all c mem_cons_self) ok

variable {k : Nat} {q : Queue}

theorem pollQueue_dev (looks : pollQueue s k i = some q) : q.dev = i := by
  unfold pollQueue at looks
  split at looks
  · cases looks
    rfl
  · split at looks
    · cases looks
      rfl
    · contradiction

theorem inFlight_poll (s : State) (q : Queue) (p : Poll) (q' : Queue) :
    ((poll q s p).1.inFlight q' ++ if q' = q then successes (batchOf s q) else []).Perm
      (s.inFlight q') := by
  unfold State.inFlight poll batchOf
  by_cases here : q' = q
  · subst here
    simp only [Function.update_self]
    have split : successes (s.cq q') = successes ((s.cq q').take 4) ++ successes ((s.cq q').drop 4) := by
      rw [← successes_append, take_append_drop]
    rw [split, append_assoc]
    exact Perm.append_left _ perm_append_comm
  · simp [here]

theorem Inv.poll (h : Inv cfg s) (q : Queue) (p : Poll) :
    Accounts cfg (poll q s p).1 q.dev ((successes (batchOf s q)).flatMap (·.owners)) ∧
      ∀ wr ∈ successes (batchOf s q), Sound (poll q s p).1.reqs wr := by
  have acc := h q.dev
  have share' : ∀ o q', share o ((Ib.poll q s p).1.inFlight q') +
      (if q' = q then share o (successes (batchOf s q)) else 0) = share o (s.inFlight q') := by
    intro o q'
    have same : share o ((Ib.poll q s p).1.inFlight q' ++
        if q' = q then successes (batchOf s q) else []) = share o (s.inFlight q') :=
      ((inFlight_poll s q p q').flatMap_right _).count_eq o
    by_cases here : q' = q
    all_goals simpa [here] using same
  have due : ∀ o d, (Ib.poll q s p).1.due o d +
      (if d = q.dev then ((successes (batchOf s q)).flatMap (·.owners)).count o else 0) = s.due o d := by
    intro o d
    have primary := share' o ⟨false, d⟩
    have backup := share' o ⟨true, d⟩
    unfold State.due
    obtain ⟨kind, dev⟩ := q
    by_cases here : d = dev
    · cases kind <;> simp [share] at primary backup ⊢ <;> omega
    · simp [here] at primary backup ⊢
      omega
  constructor
  · refine acc.change ⟨rfl, rfl⟩ ?_ ?_ fun _ _ _ _ => ⟨rfl, rfl, rfl⟩
    · intro q' wr here
      exact acc.sound q' wr ((inFlight_poll s q p q').subset (mem_append_left _ here))
    · intro k d
      left
      have same := due (s.owner k) d
      simp only [count_nil, ite_self, ← same]
      exact le_rfl
  · intro wr here
    refine acc.sound q wr ((inFlight_poll s q p q).subset (mem_append_right _ ?_))
    rw [if_pos rfl]
    exact here

theorem overlay_batch (wcs : Nat → Completion) (batch : List Completion) :
    (range batch.length).map (overlay wcs 0 batch) = batch := by
  apply ext_getElem
  · simp
  · intro n left right
    simp [overlay, right]

def Poll.count (p : Poll) (backup : Bool) : Nat := if backup then p.backupWrDone else p.wrDone

def Fresh (s : State) (k : Nat) (i : Dev) (p : Poll) : Prop :=
  ∀ kind, (∀ q ∈ pollQueue s k i, q.backup ≠ kind) → p.count kind = 0

variable {p : Poll}

theorem poll_wcs (fresh : p.count (!q.backup) = 0) :
    (range ((poll q s p).2.wrDone + (poll q s p).2.backupWrDone)).map (poll q s p).2.wcs =
      batchOf s q := by
  unfold poll
  obtain ⟨backup, _⟩ := q
  cases backup with
  | true =>
    have none : p.wrDone = 0 := fresh
    simp only [if_true]
    rw [none, Nat.zero_add]
    exact overlay_batch _ _
  | false =>
    have none : p.backupWrDone = 0 := fresh
    simp only
    rw [none]
    exact overlay_batch _ _

theorem poll_count (kind : Bool) :
    (poll q s p).2.count kind = if q.backup = kind then (batchOf s q).length else p.count kind := by
  unfold poll Poll.count
  cases q.backup <;> cases kind <;> rfl

/-- What the test of request `k` sees on these devices is in `t` as it was in `s`. -/
structure Ahead (s t : State) (k : Nat) (devs : Dev → Prop) : Prop where
  events : ∀ d, devs d → (t.reqs k).events d = (s.reqs k).events d
  looks : ∀ d, pollQueue t k d = pollQueue s k d
  cq : ∀ q : Queue, devs q.dev → t.cq q = s.cq q
  waits : t.fifoReqs = s.fifoReqs

theorem Ahead.refl (s : State) (k : Nat) (devs : Dev → Prop) : Ahead s s k devs :=
  ⟨fun _ _ => rfl, fun _ => rfl, fun _ _ => rfl, rfl⟩

theorem turn_clean (h : Inv cfg s) (exact : Exact s) (fresh : (s.reqs k).events i ≠ 0 → Fresh s k i p)
    (ordered : (s.reqs k).events i ≠ 0 → ∀ q, pollQueue s k i = some q → Ordered (batchOf s q))
    (unmixed : Unmixed cfg s ∨
      ((s.reqs k).events i ≠ 0 → ∀ q, pollQueue s k i = some q → ∀ c ∈ batchOf s q, c.ok = true)) :
    ∃ t v p', turn k i s p = ((t, v), p') ∧ Inv cfg t ∧ Exact t ∧
      (v = .going → Ahead s t k (· ≠ i) ∧
        (p' = p ∨ (s.reqs k).events i ≠ 0 ∧ ∃ q, pollQueue s k i = some q ∧ p' = (poll q s p).2)) := by
  unfold turn
  by_cases none : (s.reqs k).events i = 0
  · rw [if_pos none]
    exact ⟨s, .going, p, rfl, h, exact, fun _ => ⟨Ahead.refl s k _, .inl rfl⟩⟩
  rw [if_neg none]
  have fresh := fresh none
  unfold Fresh at fresh
  cases hl : pollQueue s k i with
  | none =>
    rw [hl] at fresh
    have primary : p.wrDone = 0 := fresh false nofun
    have backup : p.backupWrDone = 0 := fresh true nofun
    simp only [primary, backup]
    exact ⟨s, .going, p, rfl, h, exact, fun _ => ⟨Ahead.refl s k _, .inl rfl⟩⟩
  | some q =>
    simp only
    rw [poll_wcs (fresh _ (by simp [hl]))]
    have dev := pollQueue_dev hl
    obtain ⟨acc, hs⟩ := h.poll q p
    rw [dev] at acc
    have unmixed' : Unmixed cfg (poll q s p).1 ∨ ∀ c ∈ batchOf s q, c.ok = true := by
      rcases unmixed with unmixed | all
      · exact .inl unmixed
      · exact .inr (all none q hl)
    obtain ⟨t, v, ran, inv, hp, log, took⟩ :=
      process_batch k (batchOf s q) (ordered none q hl) hs unmixed' acc
    refine ⟨t, v, (poll q s p).2, by rw [ran], inv, ?_, ?_⟩
    · unfold Exact at exact ⊢
      rw [log, hp]
      simp only [poll, dev, flatMap_append, ← exact]
      rw [map_flatMap, flatMap_map]
    · intro going
      obtain ⟨reqs, rfl, each⟩ := took going
      obtain ⟨events, same, kept⟩ := each k
      refine ⟨⟨?_, ?_, ?_, rfl⟩, .inr ⟨none, q, rfl, rfl⟩⟩
      · intro d other
        simp only [same]
        exact kept d other
      · intro d
        simp only [pollQueue, same]
        rfl
      · intro q' other
        have different : q' ≠ q := fun same => other (same ▸ dev)
        simp [poll, different]

/-- No turn of a test sees completions another turn has polled: if a turn found any, the later turns
look at queues of the same kind. In each batch the successes come first, and an error that flags
devices finds no send waiting. -/
structure Clean (cfg : Config) (s : State) (k : Nat) : Prop where
  separate : ∀ i j, i < j → (s.reqs k).events i ≠ 0 → (s.reqs k).events j ≠ 0 →
    ∀ q ∈ pollQueue s k i, s.cq q ≠ [] → ∃ q' ∈ pollQueue s k j, q'.backup = q.backup
  ordered : ∀ i, (s.reqs k).events i ≠ 0 → ∀ q ∈ pollQueue s k i, Ordered (batchOf s q)
  unmixed : Unmixed cfg s ∨
    ∀ i, (s.reqs k).events i ≠ 0 → ∀ q ∈ pollQueue s k i, ∀ c ∈ batchOf s q, c.ok = true

def Counted (s : State) (k : Nat) (rest : List Dev) (backup : Bool) (n : Nat) : Prop :=
  n ≠ 0 → ∃ i q, (∀ j ∈ rest, i < j) ∧ (s.reqs k).events i ≠ 0 ∧ pollQueue s k i = some q ∧
    q.backup = backup ∧ s.cq q ≠ []

theorem fresh_of_counted {rest : List Dev} (clean : Clean cfg s k)
    (counted : ∀ kind, Counted s k (i :: rest) kind (p.count kind)) (some' : (s.reqs k).events i ≠ 0) :
    Fresh s k i p := by
  intro kind other
  by_contra hn
  obtain ⟨j, q, hb, events, hl, rfl, hf⟩ := counted kind hn
  obtain ⟨q', ho, same⟩ := clean.separate j i (hb i mem_cons_self) events some' q hl hf
  exact other q' ho same

theorem turns_clean {t : State} (rest : List Dev) (sorted : rest.Pairwise (· < ·)) (clean : Clean cfg s k)
    (ahead : Ahead s t k (· ∈ rest)) (counted : ∀ kind, Counted s k rest kind (p.count kind)) (h : Inv cfg t)
    (exact : Exact t) :
    Inv cfg (turns k rest t p).1 ∧ Exact (turns k rest t p).1 := by
  induction rest generalizing t p with
  | nil => exact ⟨h, exact⟩
  | cons i rest ih =>
    obtain ⟨first, sorted⟩ := pairwise_cons.mp sorted
    have events := ahead.events i mem_cons_self
    have looks := ahead.looks i
    have batch : ∀ q, pollQueue s k i = some q → t.cq q = s.cq q := by
      intro q hl'
      exact ahead.cq q (by simp [pollQueue_dev hl'])
    have fresh : (t.reqs k).events i ≠ 0 → Fresh t k i p := by
      rw [events]
      intro some'
      unfold Fresh
      rw [looks]
      exact fresh_of_counted clean counted some'
    have ordered : (t.reqs k).events i ≠ 0 → ∀ q, pollQueue t k i = some q → Ordered (batchOf t q) := by
      rw [events, looks]
      intro some' q hl'
      rw [batchOf, batch q hl']
      exact clean.ordered i some' q hl'
    have unmixed : Unmixed cfg t ∨
        ((t.reqs k).events i ≠ 0 → ∀ q, pollQueue t k i = some q → ∀ c ∈ batchOf t q, c.ok = true) := by
      rcases clean.unmixed with (same | none) | all
      · exact .inl (.inl same)
      · left
        right
        rw [ahead.waits]
        exact none
      · right
        rw [events, looks]
        intro some' q hl'
        rw [batchOf, batch q hl']
        exact all i some' q hl'
    obtain ⟨u, v, _, ran, inv, he', hl⟩ := turn_clean h exact fresh ordered unmixed
    cases v with
    | going =>
      rw [turns, ran]
      obtain ⟨hl, counters⟩ := hl rfl
      have ahead' : Ahead s u k (· ∈ rest) := by
        refine ⟨?_, ?_, ?_, hl.waits.trans ahead.waits⟩
        · intro d mem
          have other := (first d mem).ne'
          rw [hl.events d other]
          exact ahead.events d (mem_cons_of_mem _ mem)
        · intro d
          rw [hl.looks, ahead.looks]
        · intro q mem
          have other := (first q.dev mem).ne'
          rw [hl.cq q other]
          exact ahead.cq q (mem_cons_of_mem _ mem)
      have shorter : ∀ kind, Counted s k rest kind (p.count kind) := by
        intro kind hn
        obtain ⟨j, q, hb, hf⟩ := counted kind hn
        exact ⟨j, q, fun d mem => hb d (mem_cons_of_mem _ mem), hf⟩
      refine ih sorted ahead' ?_ inv he'
      intro kind
      rcases counters with rfl | ⟨some', q, hl', rfl⟩
      · exact shorter kind
      rw [poll_count]
      split
      next same =>
        intro hn
        rw [looks] at hl'
        refine ⟨i, q, first, events ▸ some', hl', same, ?_⟩
        intro he
        rw [batchOf, batch q hl', he] at hn
        exact hn rfl
      · exact shorter kind
    | remoteError =>
      rw [turns, ran]
      exact ⟨inv, he'⟩
    | internalError =>
      rw [turns, ran]
      exact ⟨inv, he'⟩

theorem Inv.free (h : Inv cfg s) {slots : List Nat}
    (none : ∀ q, ∀ wr ∈ s.inFlight q, ∀ o ∈ wr.owners, o.slot ∉ slots)
    (idle : ∀ slot r k, s.fifoReqs slot r = some k → k ∉ slots) : Inv cfg (freeRequests slots s) := by
  intro i
  have acc := h i
  have events : ∀ k, ((freeRequests slots s).reqs k).events = (s.reqs k).events := by
    intro k
    unfold freeRequests
    simp only
    split <;> rfl
  have owner : ∀ k, (freeRequests slots s).owner k = s.owner k := by
    intro k
    unfold State.owner freeRequests
    simp only
    split <;> rfl
  refine acc.change ⟨rfl, rfl⟩ ?_ ?_ ?_
  · intro q wr mem
    refine (acc.sound q wr mem).of_alike fun o owns => ?_
    simp [freeRequests, none q wr mem o owns]
  · intro k d
    left
    rw [owner, events]
    exact le_rfl
  · intro slot r k waits
    simp [freeRequests, idle slot r k waits]

theorem freeRequests_single (k : Nat) (s : State) :
    s.modify k ({ · with type := .unused }) = freeRequests [k] s := by
  unfold State.modify freeRequests
  congr 1
  funext j
  by_cases here : j = k
  · subst here
    simp
  · simp [here]

theorem Inv.done (h : Inv cfg s) (zero : ∀ d, (s.reqs k).events d = 0) :
    Inv cfg (s.modify k ({ · with type := .unused })) := by
  rw [freeRequests_single]
  have acc := h ⟨0, by decide⟩
  have due : ∀ d, s.due (s.owner k) d = 0 := by
    intro d
    have counts := acc.counts k d
    rw [zero d] at counts
    omega
  refine h.free ?_ ?_
  · intro q wr mem o owns same
    have slot := mem_singleton.mp same
    have use := ((acc.sound q wr mem).live o owns).2.1
    have here : s.owner k = o := by
      rw [State.owner, ← slot, use]
    have pos : 0 < share o (s.inFlight q) :=
      count_pos_iff.mpr (mem_flatMap.mpr ⟨wr, mem, owns⟩)
    have none := due q.dev
    unfold State.due at none
    rw [here] at none
    obtain ⟨kind, dev⟩ := q
    cases kind <;> simp at pos none <;> omega
  · intro slot r j waits same
    obtain rfl := mem_singleton.mp same
    have covered := acc.covered slot r j waits (qpQueue cfg s.warn s.qpIndex).dev
    obtain ⟨n, some'⟩ := Nat.exists_eq_succ_of_ne_zero (Nat.pos_iff_ne_zero.mp cfg.messages)
    rw [zero, some', planned, if_pos rfl] at covered
    omega

end Vccl.Ib
