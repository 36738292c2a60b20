import Vccl.Ib.Requests
import Vccl.Lib.Transition

/-! The event counts of the requests cover the work requests in flight, each of which belongs to the
current uses of its slots. -/
namespace Vccl.Ib

open List

theorem slotAt_zero {slot rest : Nat} (small : slot < 2 ^ 8) : slotAt (slot + 2 ^ 8 * rest) 0 = slot := by
  unfold slotAt
  omega

theorem slotAt_succ {slot : Nat} (rest j : Nat) (small : slot < 2 ^ 8) :
    slotAt (slot + 2 ^ 8 * rest) (j + 1) = slotAt rest j := by
  have high : (slot + 2 ^ 8 * rest) / 2 ^ 8 = rest := by omega
  unfold slotAt
  rw [Nat.mul_succ, Nat.add_comm (8 * j), Nat.pow_add, ← Nat.div_div_eq_div_mul, high]

theorem slotAt_wrIdOf (slots : List Nat) (small : ∀ slot ∈ slots, slot < maxRequests) (j : Nat)
    (inside : j < slots.length) : slotAt (wrIdOf slots) j = slots[j] := by
  induction slots generalizing j with
  | nil => contradiction
  | cons slot rest ih =>
    have first : slot < 2 ^ 8 := small slot mem_cons_self
    cases j with
    | zero => exact slotAt_zero first
    | succ j =>
      rw [wrIdOf, slotAt_succ _ _ first]
      exact ih (fun other mem => small other (mem_cons_of_mem _ mem)) j (by simpa using inside)

def share (o : Owner) (wrs : List WorkRequest) : Nat := (wrs.flatMap (·.owners)).count o

@[simp] theorem share_nil (o : Owner) : share o [] = 0 := rfl

@[simp] theorem share_cons (o : Owner) (wr : WorkRequest) (rest : List WorkRequest) :
    share o (wr :: rest) = wr.owners.count o + share o rest := by
  simp [share]

@[simp] theorem share_append (o : Owner) (xs ys : List WorkRequest) :
    share o (xs ++ ys) = share o xs + share o ys := by
  simp [share]

variable {xs ys : List WorkRequest} {o : Owner}

theorem share_le_of_sublist (sub : xs.Sublist ys) :
    share o xs ≤ share o ys := by
  induction sub with
  | slnil => exact le_rfl
  | cons wr _ ih =>
    rw [share_cons]
    omega
  | cons_cons wr _ ih =>
    rw [share_cons, share_cons]
    omega

theorem share_le_of_subperm (sub : xs.Subperm ys) :
    share o xs ≤ share o ys := by
  obtain ⟨zs, perm, sub⟩ := sub
  have same : share o zs = share o xs := (perm.flatMap_right _).count_eq o
  rw [← same]
  exact share_le_of_sublist sub

def State.inFlight (s : State) (q : Queue) : List WorkRequest := s.posted q ++ successes (s.cq q)

def State.due (s : State) (o : Owner) (d : Dev) : Nat :=
  share o (s.inFlight ⟨false, d⟩) + share o (s.inFlight ⟨true, d⟩)

theorem successes_append (xs ys : List Completion) :
    successes (xs ++ ys) = successes xs ++ successes ys := by
  simp [successes]

def Alike (reqs reqs' : Nat → Request) : Prop :=
  ∀ k, (reqs' k).type = (reqs k).type ∧ (reqs' k).nreqs = (reqs k).nreqs ∧
    (reqs' k).use = (reqs k).use

theorem Alike.trans {a b c : Nat → Request} (first : Alike a b) (second : Alike b c) : Alike a c := by
  intro k
  obtain ⟨type, hn, use⟩ := first k
  obtain ⟨type', hn', use'⟩ := second k
  exact ⟨type'.trans type, hn'.trans hn, use'.trans use⟩

/-- A work request names the current uses of slots, and `ncclIbTest` will treat it as one of theirs. -/
structure Sound (reqs : Nat → Request) (wr : WorkRequest) : Prop where
  id : wr.wrId = wrIdOf (wr.owners.map Owner.slot)
  live : ∀ o ∈ wr.owners, o.slot < maxRequests ∧ (reqs o.slot).use = o.use ∧
    (reqs o.slot).type ≠ .unused
  shape : ∃ o rest, wr.owners = o :: rest ∧
    ((reqs o.slot).type = .send ∧ (reqs o.slot).nreqs = wr.owners.length ∨
      (reqs o.slot).type ≠ .send ∧ rest = [] ∧ (wr.imm = true → (reqs o.slot).type = .recv))

variable {wr : WorkRequest}

theorem Sound.of_alike {reqs reqs' : Nat → Request} (h : Sound reqs wr)
    (alike : ∀ o ∈ wr.owners, (reqs' o.slot).type = (reqs o.slot).type ∧
      (reqs' o.slot).nreqs = (reqs o.slot).nreqs ∧ (reqs' o.slot).use = (reqs o.slot).use) :
    Sound reqs' wr := by
  refine ⟨h.id, ?_, ?_⟩
  · intro o mem
    obtain ⟨type, -, use⟩ := alike o mem
    rw [use, type]
    exact h.live o mem
  · obtain ⟨o, rest, owners, shape⟩ := h.shape
    obtain ⟨type, nreqs, -⟩ := alike o (by simp [owners])
    refine ⟨o, rest, owners, ?_⟩
    rw [type, nreqs]
    exact shape

def planned (cfg : Config) (warn : Dev → Bool) : Nat → Nat → Dev → Nat
  | 0, _, _ => 0
  | n + 1, q, d =>
    (if (qpQueue cfg warn q).dev = d then 1 else 0) + planned cfg warn n ((q + 1) % cfg.nqps) d

/-- The accounts while `owed` events of device `i` are being taken off. Sends wait in `fifoReqs` for
the other requests of their entry; their events are counted, their work requests not yet posted. -/
structure Accounts (cfg : Config) (s : State) (i : Dev) (owed : List Owner) : Prop where
  sound : ∀ q, ∀ wr ∈ s.inFlight q, Sound s.reqs wr
  counts : ∀ k d, ((s.due (s.owner k) d + if d = i then owed.count (s.owner k) else 0 : Nat) : Int) ≤
    (s.reqs k).events d
  waiting : ∀ slot r k, s.fifoReqs slot r = some k → slot = s.fifoHead % maxRequests ∧
    r < (cfg.entry s.fifoHead).nreqs ∧ k < maxRequests ∧ (s.reqs k).type = .send ∧
    (s.reqs k).nreqs = (cfg.entry s.fifoHead).nreqs
  once : ∀ slot r r' k, s.fifoReqs slot r = some k → s.fifoReqs slot r' = some k → r = r'
  covered : ∀ slot r k, s.fifoReqs slot r = some k → ∀ d,
    ((s.due (s.owner k) d + (if d = i then owed.count (s.owner k) else 0) +
      planned cfg s.warn cfg.perMessage s.qpIndex d : Nat) : Int) ≤ (s.reqs k).events d
  role : cfg.isSend = false → ∀ slot r, s.fifoReqs slot r = none

def Inv (cfg : Config) (s : State) : Prop := ∀ i, Accounts cfg s i []

variable {cfg : Config} {s : State} {i : Dev}

theorem Accounts.inv (h : Accounts cfg s i []) : Inv cfg s := by
  intro j
  refine { h with counts := ?_, covered := ?_ }
  · intro k d
    simpa using h.counts k d
  · intro slot r k waits d
    simpa using h.covered slot r k waits d

variable {t : State}

theorem due_le (thin : ∀ q, (t.inFlight q).Subperm (s.inFlight q)) (o : Owner) (d : Dev) :
    t.due o d ≤ s.due o d :=
  Nat.add_le_add (share_le_of_subperm (thin _)) (share_le_of_subperm (thin _))

variable {owed : List Owner}

def Slack (s t : State) (i j : Dev) (owed owed' : List Owner) (k : Nat) (d : Dev) : Prop :=
  ((t.due (t.owner k) d + if d = j then owed'.count (t.owner k) else 0 : Nat) : Int) + (s.reqs k).events d ≤
      ((s.due (s.owner k) d + if d = i then owed.count (s.owner k) else 0 : Nat) : Int) + (t.reqs k).events d ∨
    (∀ slot r, s.fifoReqs slot r ≠ some k) ∧
      ((t.due (t.owner k) d + if d = j then owed'.count (t.owner k) else 0 : Nat) : Int) ≤ (t.reqs k).events d

theorem Accounts.change {j : Dev} {owed' : List Owner} (h : Accounts cfg s i owed)
    (fifo : t.fifoReqs = s.fifoReqs ∧ t.fifoHead = s.fifoHead)
    (sound : ∀ q, ∀ wr ∈ t.inFlight q, Sound t.reqs wr) (slack : ∀ k d, Slack s t i j owed owed' k d)
    (waits : ∀ slot r k, s.fifoReqs slot r = some k →
      (t.reqs k).type = (s.reqs k).type ∧ (t.reqs k).nreqs = (s.reqs k).nreqs ∧
      planned cfg t.warn cfg.perMessage t.qpIndex = planned cfg s.warn cfg.perMessage s.qpIndex) :
    Accounts cfg t j owed' := by
  rcases t with ⟨⟩
  obtain ⟨rfl, rfl⟩ := fifo
  refine { h with sound, counts := ?_, waiting := ?_, covered := ?_ }
  · intro k d
    have counts := h.counts k d
    rcases slack k d with slack | ⟨-, slack⟩ <;> omega
  · intro slot r k here
    obtain ⟨type, nreqs, -⟩ := waits slot r k here
    rw [type, nreqs]
    exact h.waiting slot r k here
  · intro slot r k here d
    have covered := h.covered slot r k here d
    rw [(waits slot r k here).2.2]
    rcases slack k d with slack | ⟨idle, -⟩
    · omega
    · exact absurd here (idle slot r)

theorem owner_of_alike (alike : Alike s.reqs t.reqs) (k : Nat) : t.owner k = s.owner k := by
  simp [State.owner, (alike k).2.2]

theorem Accounts.thin (h : Accounts cfg s i owed) (thin : ∀ q, (t.inFlight q).Subperm (s.inFlight q))
    (reqs : t.reqs = s.reqs) (fifo : t.fifoReqs = s.fifoReqs ∧ t.fifoHead = s.fifoHead ∧ t.qpIndex = s.qpIndex)
    (warn : t.warn = s.warn) : Accounts cfg t i owed := by
  refine h.change ⟨fifo.1, fifo.2.1⟩ ?_ ?_ fun _ _ _ _ => by simp [reqs, warn, fifo.2.2]
  · intro q wr mem
    rw [reqs]
    exact h.sound q wr ((thin q).subset mem)
  · intro k d
    have less := due_le thin (s.owner k) d
    have owner : t.owner k = s.owner k := by simp [State.owner, reqs]
    rw [Slack, owner, reqs]
    omega

/-- The device of a queue pair does not depend on the flags, or no send waits. -/
def Unmixed (cfg : Config) (s : State) : Prop :=
  cfg.backupNdevs = cfg.ndevs ∨ ∀ slot r, s.fifoReqs slot r = none

theorem planned_of_same (same : cfg.backupNdevs = cfg.ndevs) (warn warn' : Dev → Bool) (n q : Nat) (d : Dev) :
    planned cfg warn n q d = planned cfg warn' n q d := by
  have dev : ∀ warn q, (qpQueue cfg warn q).dev = cfg.dev q := by
    intro warn q
    unfold qpQueue
    split
    · simp [Config.backupDev, Config.dev, same]
    · rfl
  induction n generalizing q with
  | zero => rfl
  | succ n ih => rw [planned, planned, dev, dev, ih]

theorem Accounts.setWarn (h : Accounts cfg s i owed) (unmixed : Unmixed cfg s) (warn : Dev → Bool) :
    Accounts cfg { s with warn } i owed := by
  refine h.change ⟨rfl, rfl⟩ h.sound (fun _ _ => .inl le_rfl) ?_
  intro slot r k waits
  rcases unmixed with same | none
  · exact ⟨rfl, rfl, funext (planned_of_same same warn s.warn _ _)⟩
  · simp [none slot r] at waits

theorem inFlight_post (s : State) (q q' : Queue) (wr : WorkRequest) :
    ((s.post q wr).inFlight q').Perm (if q' = q then wr :: s.inFlight q' else s.inFlight q') := by
  unfold State.inFlight State.post
  by_cases here : q' = q
  · subst here
    simp only [Function.update_self, append_assoc]
    exact perm_middle
  · simp [here]

theorem due_post (s : State) (q : Queue) (wr : WorkRequest) (o : Owner) (d : Dev) :
    (s.post q wr).due o d = s.due o d + if d = q.dev then wr.owners.count o else 0 := by
  have each : ∀ q', share o ((s.post q wr).inFlight q') =
      share o (s.inFlight q') + if q' = q then wr.owners.count o else 0 := by
    intro q'
    have perm := inFlight_post s q q' wr
    have same : share o ((s.post q wr).inFlight q') =
        share o (if q' = q then wr :: s.inFlight q' else s.inFlight q') :=
      (perm.flatMap_right _).count_eq o
    rw [same]
    split
    · rw [share_cons, Nat.add_comm]
    · rfl
  obtain ⟨backup, dev⟩ := q
  unfold State.due
  rw [each, each]
  by_cases here : d = dev
  · cases backup <;> simp <;> omega
  · simp [here]

theorem mem_inFlight_post {q q' : Queue} {other : WorkRequest} (mem : other ∈ (s.post q wr).inFlight q') :
    other = wr ∨ other ∈ s.inFlight q' := by
  have mem' := (inFlight_post s q q' wr).mem_iff.mp mem
  split at mem'
  · exact mem_cons.mp mem'
  · exact .inr mem'

theorem alike_modify (s : State) (k : Nat) {f : Request → Request}
    (keeps : (f (s.reqs k)).type = (s.reqs k).type ∧ (f (s.reqs k)).nreqs = (s.reqs k).nreqs ∧
      (f (s.reqs k)).use = (s.reqs k).use) : Alike s.reqs (s.modify k f).reqs := by
  intro j
  by_cases here : j = k
  · subst here
    simpa [State.modify] using keeps
  · simp [State.modify, Function.update_of_ne here]

theorem Accounts.grow (h : Accounts cfg s i owed) (alike : Alike s.reqs t.reqs)
    (more : ∀ k d, (s.reqs k).events d ≤ (t.reqs k).events d) (flight : t.posted = s.posted ∧ t.cq = s.cq)
    (fifo : t.fifoReqs = s.fifoReqs ∧ t.fifoHead = s.fifoHead ∧ t.qpIndex = s.qpIndex) (warn : t.warn = s.warn) :
    Accounts cfg t i owed := by
  have inFlight : t.inFlight = s.inFlight := by
    funext q
    simp [State.inFlight, flight.1, flight.2]
  refine h.change ⟨fifo.1, fifo.2.1⟩ ?_ ?_ fun _ _ k _ => ⟨(alike k).1, (alike k).2.1, by rw [warn, fifo.2.2]⟩
  · intro q wr mem
    rw [inFlight] at mem
    exact (h.sound q wr mem).of_alike fun o _ => alike o.slot
  · intro k d
    left
    have grown := more k d
    simp only [owner_of_alike alike, State.due, inFlight]
    omega

theorem addEvent_alike (s : State) (k : Nat) (q : Queue) :
    Alike s.reqs (s.modify k (·.addEvent q)).reqs :=
  alike_modify s k ⟨rfl, rfl, rfl⟩

theorem addEvent_events (s : State) (k : Nat) (q : Queue) (j : Nat) (d : Dev) :
    ((s.modify k (·.addEvent q)).reqs j).events d =
      (s.reqs j).events d + if j = k ∧ d = q.dev then 1 else 0 := by
  by_cases here : j = k
  · subst here
    by_cases dev : d = q.dev
    all_goals simp [State.modify, Request.addEvent, dev]
  · simp [State.modify, here]

theorem Accounts.addPosted {k : Nat} {q : Queue} (h : Accounts cfg s i owed)
    (owners : wr.owners = [s.owner k]) (sound : Sound s.reqs wr)
    (reqs : t.reqs = (s.modify k (·.addEvent q)).reqs) (flight : t.posted = (s.post q wr).posted ∧ t.cq = s.cq)
    (fifo : t.fifoReqs = s.fifoReqs ∧ t.fifoHead = s.fifoHead) (warn : t.warn = s.warn)
    (index : t.qpIndex = s.qpIndex ∨ ∀ slot r, s.fifoReqs slot r = none) : Accounts cfg t i owed := by
  have alike : Alike s.reqs t.reqs := reqs ▸ addEvent_alike s k q
  have inFlight : ∀ q', t.inFlight q' = (s.post q wr).inFlight q' := by
    intro q'
    simp [State.inFlight, flight.1, flight.2, State.post]
  have due : ∀ o d, t.due o d = s.due o d + if d = q.dev then wr.owners.count o else 0 := by
    intro o d
    rw [← due_post]
    simp [State.due, inFlight]
  have events : ∀ j d, (t.reqs j).events d =
      (s.reqs j).events d + if j = k ∧ d = q.dev then 1 else 0 := by
    intro j d
    rw [reqs, addEvent_events]
  have share' : ∀ j, wr.owners.count (s.owner j) = if j = k then 1 else 0 := by
    intro j
    rw [owners]
    by_cases here : j = k
    · simp [here]
    · have other : ¬ s.owner k = s.owner j := by
        intro same
        exact here (congrArg Owner.slot same).symm
      simp [here, other]
  refine h.change fifo ?_ ?_ ?_
  · intro q' other mem
    rw [inFlight] at mem
    rcases mem_inFlight_post mem with same | hb
    · rw [same]
      exact sound.of_alike fun o _ => alike o.slot
    · exact (h.sound q' other hb).of_alike fun o _ => alike o.slot
  · intro j d
    rw [Slack, owner_of_alike alike, due, events, share']
    by_cases here : j = k <;> by_cases dev : d = q.dev <;> simp [here, dev]
    omega
  · intro slot r j waits
    rcases index with same | none
    · exact ⟨(alike j).1, (alike j).2.1, by rw [warn, same]⟩
    · simp [none slot r] at waits

end Vccl.Ib
