import Vccl.Rollback.Model
import Vccl.Ib.Requests

/-! `sendProxyProgress` of an op with several subs, fault tolerance on: when the sync FIFO of a
connection is read. Subs of one `netSendComm` share its FIFO. What the GPU and the network answer
is an argument of every pass. -/
namespace Vccl.Rollback.Passes

open List Option Transition
open Function (update)
open Net (SendSub OpState ncclSteps)
open Ib (maxRequests)

structure Sub where
  comm : Nat
  counts : SendSub
  reg : Bool
  nbytes : Nat
  needRollback : Bool
  hasRollback : Bool
  deriving DecidableEq

def Sub.finished (sub : Sub) : Bool := decide (sub.counts.done = sub.counts.nsteps)

structure SyncElem where
  idx : Nat
  restartPos : Nat
  deriving DecidableEq

/-- The op and the sync FIFOs of its connections. `rollbacks` counts the rollbacks of this op by
connection; the code has no such counter. -/
structure State where
  subs : List Sub
  done : Nat
  state : OpState
  syncFifo : Nat → Nat → SyncElem
  syncFifoHead : Nat → Nat
  rollbacks : Nat → Nat

/-- `filled`: the GPU has written the step; `sent`: `isend` returned a request; `sizes`: what
`ncclIbGetReqSize` finds for the request of a slot. -/
structure Answer where
  filled : Bool
  sent : Bool
  test : Outcome
  sizes : Nat → Nat

def State.checkSubSyncFifo (s : State) (comm : Nat) : Bool :=
  decide ((s.syncFifo comm (s.syncFifoHead comm % maxRequests)).idx = s.syncFifoHead comm + 1)

/-- The loop over the steps the receiver has and the sender has not tested, with what it adds to
`args->done`. -/
def finishSteps (sliceSteps restartPos : Nat) (sizes : Nat → Nat) : Nat → Nat → Sub → Sub × Nat
  | 0, _, sub => (sub, 0)
  | fuel + 1, step, sub =>
    if step < restartPos then
      let size := sizes (slotOf sub.counts.base step)
      let sub :=
        if sub.reg ∧ size < sub.nbytes then
          { sub with nbytes := sub.nbytes - size, counts.nsteps := sub.counts.nsteps + 1 }
        else sub
      let rest := finishSteps sliceSteps restartPos sizes fuel (step + sliceSteps) sub
      (rest.1, rest.2 + if step = sub.counts.nsteps then 1 else 0)
    else (sub, 0)

def rollBackSub (sliceSteps restartPos : Nat) (sizes : Nat → Nat) (sub : Sub) : Sub × Nat :=
  let finished := finishSteps sliceSteps restartPos sizes (restartPos - sub.counts.done) sub.counts.done sub
  ({ finished.1 with
      counts.transmitted := restartPos
      counts.done := restartPos
      needRollback := false
      hasRollback := true }, finished.2)

structure Rolled where
  subs : List Sub
  done : Nat
  head : Nat

/-- The loop of `ncclIbRollBackSendProxyProgress`: `ncclIbCheckSyncFifo` takes one entry for every
sub of the connection, and the loop stands still (`none`) until that entry is there. -/
def rollBackSubs (sliceSteps comm : Nat) (answers : Nat → Answer) (fifo : Nat → SyncElem) :
    Nat → Nat → List Sub → Option Rolled
  | _, head, [] => some ⟨[], 0, head⟩
  | ts, head, sub :: rest =>
    if sub.comm ≠ comm then
      (rollBackSubs sliceSteps comm answers fifo (ts + 1) head rest).map fun others =>
        { others with subs := sub :: others.subs }
    else
      let entry := fifo (head % maxRequests)
      if entry.idx = head + 1 then
        let rolled := rollBackSub sliceSteps entry.restartPos (answers ts).sizes sub
        (rollBackSubs sliceSteps comm answers fifo (ts + 1) (head + 1) rest).map fun others =>
          { others with subs := rolled.1 :: others.subs, done := others.done + rolled.2 }
      else none

def rollBack (sliceSteps comm : Nat) (answers : Nat → Answer) (s : State) : Option State :=
  (rollBackSubs sliceSteps comm answers (s.syncFifo comm) 0 (s.syncFifoHead comm) s.subs).map
    fun rolled =>
      { s with
        subs := rolled.subs
        done := s.done + rolled.done
        syncFifoHead := update s.syncFifoHead comm rolled.head
        rollbacks := update s.rollbacks comm (s.rollbacks comm + 1) }

inductive Turn where
  | idle
  | post
  | send
  | complete
  | rollBack
  | mark
  deriving DecidableEq

def turn (cfg : Net.Config) (s : State) (answer : Answer) (sub : Sub) : Turn :=
  if sub.finished then .idle
  else if sub.hasRollback = false ∧ s.checkSubSyncFifo sub.comm then .rollBack
  else if sub.needRollback then .idle
  else if sub.counts.posted < sub.counts.nsteps ∧
      sub.counts.posted < sub.counts.done + cfg.depth then .post
  else if sub.counts.transmitted < sub.counts.posted ∧
      sub.counts.transmitted < sub.counts.done + ncclSteps ∧ answer.filled ∧ answer.sent then .send
  else if sub.counts.done < sub.counts.transmitted then
    match answer.test with
    | .pending => .idle
    | .success => .complete
    | .error => .mark
  else .idle

def Sub.advance (cfg : Net.Config) (sub : Sub) : Turn → Sub
  | .post => { sub with counts.posted := sub.counts.posted + cfg.sliceSteps }
  | .send => { sub with counts.transmitted := sub.counts.transmitted + cfg.sliceSteps }
  | .complete => { sub with counts.done := sub.counts.done + cfg.sliceSteps }
  | _ => sub

def State.perform (cfg : Net.Config) (s : State) (i : Nat) (sub : Sub) (t : Turn) : State :=
  let next := sub.advance cfg t
  { s with
    subs := s.subs.set i next
    done := s.done + if t = .complete ∧ next.finished then 1 else 0 }

def State.mark (s : State) (comm : Nat) : State :=
  { s with subs := s.subs.map fun sub => if sub.comm = comm then { sub with needRollback := true } else sub }

/-- The sub loop from sub `i` on, with the connection and the turn of every sub it comes to. A
rollback and an error completion end the pass. -/
def subLoop (cfg : Net.Config) (answers : Nat → Answer) :
    Nat → Nat → State → Option (State × List (Nat × Turn))
  | 0, _, s => some ({ s with state := if s.done = cfg.nsubs then .none else s.state }, [])
  | left + 1, i, s =>
    match s.subs[i]? with
    | none => some (s, [])
    | some sub =>
      match turn cfg s (answers i) sub with
      | .rollBack => (rollBack cfg.sliceSteps sub.comm answers s).map fun next => (next, [(sub.comm, .rollBack)])
      | .mark => some (s.mark sub.comm, [(sub.comm, .mark)])
      | t =>
        (subLoop cfg answers left (i + 1) (s.perform cfg i sub t)).map fun rest =>
          (rest.1, (sub.comm, t) :: rest.2)

def sendProxyProgress (cfg : Net.Config) (s : State) (answers : Nat → Answer) :
    Option (State × List (Nat × Turn)) :=
  match s.state with
  | .none => some (s, [])
  | .progress => subLoop cfg answers s.subs.length 0 s

/-- `arrive`: a sync entry lands; `elsewhere`: another op of the connection takes one. -/
inductive Action where
  | arrive (comm : Nat) (entry : SyncElem)
  | elsewhere (comm : Nat)
  | pass (answers : Nat → Answer)

def State.arrive (s : State) (comm : Nat) (entry : SyncElem) : State :=
  { s with
    syncFifo := update s.syncFifo comm
      (update (s.syncFifo comm) ((entry.idx - 1) % maxRequests) entry) }

def step (cfg : Net.Config) (s : State) : Action → Option State
  | .arrive comm entry => some (s.arrive comm entry)
  | .elsewhere comm =>
    if s.checkSubSyncFifo comm then
      some { s with syncFifoHead := update s.syncFifoHead comm (s.syncFifoHead comm + 1) }
    else none
  | .pass answers => (sendProxyProgress cfg s answers).map Prod.fst

/-- The op as `ncclProxyOpToArgs` and the first pass leave it. -/
structure SubOp where
  comm : Nat
  nsteps : Nat
  base : Nat
  reg : Bool
  nbytes : Nat

def SubOp.toSub (op : SubOp) : Sub where
  comm := op.comm
  counts := ⟨op.nsteps, op.base, 0, 0, 0⟩
  reg := op.reg
  nbytes := op.nbytes
  needRollback := false
  hasRollback := false

def initial (ops : List SubOp) (syncFifo : Nat → Nat → SyncElem) (syncFifoHead : Nat → Nat) : State where
  subs := ops.map SubOp.toSub
  done := 0
  state := .progress
  syncFifo := syncFifo
  syncFifoHead := syncFifoHead
  rollbacks := fun _ => 0

/-- The flag of a sub says that its connection has been rolled back in this op. -/
def Flagged (s : State) : Prop :=
  ∀ sub ∈ s.subs, sub.hasRollback = true ↔ s.rollbacks sub.comm ≠ 0

variable {s : State} {sub : Sub}

theorem Flagged.unset (h : Flagged s) (mem : sub ∈ s.subs) (first : s.rollbacks sub.comm = 0) :
    sub.hasRollback = false := by
  have := h sub mem
  cases flag : sub.hasRollback with
  | false => rfl
  | true => exact absurd first (this.mp flag)

theorem initial_flagged (ops : List SubOp) (fifo : Nat → Nat → SyncElem) (head : Nat → Nat) :
    Flagged (initial ops fifo head) := by
  intro sub mem
  obtain ⟨_, -, rfl⟩ := mem_map.mp mem
  simp [initial, SubOp.toSub]

theorem finishSteps_keeps (slice restartPos : Nat) (sizes : Nat → Nat) (fuel step : Nat) (sub : Sub) :
    (finishSteps slice restartPos sizes fuel step sub).1.comm = sub.comm := by
  induction fuel generalizing step sub with
  | zero => rfl
  | succ fuel ih =>
    simp only [finishSteps]
    split
    · rw [ih]
      split <;> rfl
    · rfl

def RolledBack (comm : Nat) (before after : Sub) : Prop :=
  after.comm = before.comm ∧
    (before.comm ≠ comm → after = before) ∧
    (before.comm = comm → after.needRollback = false ∧ after.hasRollback = true)

variable {slice comm : Nat} {answers : Nat → Answer}

theorem rollBackSubs_spec {fifo : Nat → SyncElem} (subs : List Sub) {ts head : Nat} {rolled : Rolled}
    (ran : rollBackSubs slice comm answers fifo ts head subs = some rolled) :
    Forall₂ (RolledBack comm) subs rolled.subs ∧
      rolled.head = head + (subs.map Sub.comm).count comm := by
  induction subs generalizing ts head rolled with
  | nil =>
    cases ran
    exact ⟨.nil, rfl⟩
  | cons sub rest ih =>
    simp only [rollBackSubs] at ran
    split at ran
    next ho =>
      obtain ⟨others, tail, rfl⟩ := map_eq_some_iff.mp ran
      obtain ⟨hr, position⟩ := ih tail
      have same : RolledBack comm sub sub := ⟨rfl, fun _ => rfl, fun mine => absurd mine ho⟩
      exact ⟨.cons same hr, by simpa [ho] using position⟩
    next mine =>
      have mine := not_not.mp mine
      split at ran
      · obtain ⟨others, tail, rfl⟩ := map_eq_some_iff.mp ran
        obtain ⟨hr, position⟩ := ih tail
        refine ⟨.cons ⟨?_, fun ho => absurd mine ho, fun _ => ⟨rfl, rfl⟩⟩ hr, ?_⟩
        · exact finishSteps_keeps _ _ _ _ _ sub
        · simp only [map_cons, mine, count_cons_self]
          omega
      · contradiction

variable {next : State}

theorem rollBack_spec (ran : rollBack slice comm answers s = some next) :
    Forall₂ (RolledBack comm) s.subs next.subs ∧
      next.syncFifoHead comm = s.syncFifoHead comm + (s.subs.map Sub.comm).count comm ∧
      next.rollbacks = update s.rollbacks comm (s.rollbacks comm + 1) := by
  obtain ⟨_, loop, rfl⟩ := map_eq_some_iff.mp ran
  obtain ⟨hr, position⟩ := rollBackSubs_spec s.subs loop
  exact ⟨hr, by simpa using position, rfl⟩

theorem exists_rolledBack {subs subs' : List Sub} {after : Sub} (related : Forall₂ (RolledBack comm) subs subs')
    (mem : after ∈ subs') :
    ∃ before ∈ subs, RolledBack comm before after := by
  induction related with
  | nil => simp at mem
  | cons first _ ih =>
    rcases mem_cons.mp mem with rfl | mem
    · exact ⟨_, by simp, first⟩
    · obtain ⟨before, ht, fact⟩ := ih mem
      exact ⟨before, by simp [ht], fact⟩

theorem rollBack_flagged (h : Flagged s) (ran : rollBack slice comm answers s = some next) : Flagged next := by
  obtain ⟨hr, -, hc⟩ := rollBack_spec ran
  intro after mem
  obtain ⟨before, ht, comm', ho, mine⟩ := exists_rolledBack hr mem
  rw [hc]
  by_cases here : before.comm = comm
  · simp [comm', here, (mine here).2]
  · rw [Function.update_of_ne (by rw [comm']; exact here), ho here]
    exact h before ht

theorem mark_flagged (h : Flagged s) (comm : Nat) : Flagged (s.mark comm) := by
  intro sub mem
  obtain ⟨old, ht, rfl⟩ := mem_map.mp mem
  have := h old ht
  split <;> exact this

@[simp] theorem advance_comm (cfg : Net.Config) (sub : Sub) (t : Turn) :
    (sub.advance cfg t).comm = sub.comm := by
  cases t <;> rfl

@[simp] theorem advance_hasRollback (cfg : Net.Config) (sub : Sub) (t : Turn) :
    (sub.advance cfg t).hasRollback = sub.hasRollback := by
  cases t <;> rfl

variable {cfg : Net.Config} {i : Nat}

theorem perform_flagged (h : Flagged s) (here : s.subs[i]? = some sub) (t : Turn) :
    Flagged (s.perform cfg i sub t) := by
  intro other mem
  rcases mem_or_eq_of_mem_set mem with old | rfl
  · exact h other old
  · rw [advance_comm, advance_hasRollback]
    exact h sub (mem_of_getElem? here)

theorem perform_comms (here : s.subs[i]? = some sub) (t : Turn) :
    (s.perform cfg i sub t).subs.map Sub.comm = s.subs.map Sub.comm := by
  obtain ⟨_, rfl⟩ := List.getElem?_eq_some_iff.mp here
  rw [State.perform, map_set, advance_comm, ← map_set, set_getElem_self]

variable {s' : State} {trace : List (Nat × Turn)}

theorem subLoop_cases {left : Nat} (here : s.subs[i]? = some sub)
    (ran : subLoop cfg answers (left + 1) i s = some (s', trace)) :
    (turn cfg s (answers i) sub = .rollBack ∧ rollBack cfg.sliceSteps sub.comm answers s = some s' ∧
        trace = [(sub.comm, .rollBack)]) ∨
      (turn cfg s (answers i) sub = .mark ∧ s' = s.mark sub.comm ∧ trace = [(sub.comm, .mark)]) ∨
      ∃ t rest, turn cfg s (answers i) sub = t ∧ t ≠ .rollBack ∧
        subLoop cfg answers left (i + 1) (s.perform cfg i sub t) = some (s', rest) ∧
        trace = (sub.comm, t) :: rest := by
  simp only [subLoop, here] at ran
  split at ran
  next kind =>
    obtain ⟨_, hr, same⟩ := map_eq_some_iff.mp ran
    cases same
    exact .inl ⟨kind, hr, rfl⟩
  next kind =>
    cases ran
    exact .inr (.inl ⟨kind, rfl, rfl⟩)
  next back mark =>
    obtain ⟨⟨_, rest⟩, tail, same⟩ := map_eq_some_iff.mp ran
    cases same
    exact .inr (.inr ⟨_, rest, rfl, back, tail, rfl⟩)

theorem subLoop_flagged (left : Nat) (h : Flagged s) (ran : subLoop cfg answers left i s = some (s', trace)) :
    Flagged s' := by
  induction left generalizing i s trace with
  | zero =>
    cases ran
    exact h
  | succ left ih =>
    cases here : s.subs[i]? with
    | none =>
      simp only [subLoop, here, some.injEq, Prod.mk.injEq] at ran
      exact ran.1 ▸ h
    | some sub =>
      rcases subLoop_cases here ran with ⟨-, hr, -⟩ | ⟨-, rfl, -⟩ | ⟨t, _, -, -, tail, -⟩
      · exact rollBack_flagged h hr
      · exact mark_flagged h sub.comm
      · exact ih (perform_flagged h here t) tail

theorem step_flagged (a : Action) (h : Flagged s) (next : step cfg s a = some s') : Flagged s' := by
  cases a with
  | arrive comm entry =>
    cases next
    exact h
  | elsewhere comm =>
    obtain ⟨-, ⟨⟩⟩ := ite_none_right_eq_some.mp next
    exact h
  | pass answers =>
    obtain ⟨⟨_, _⟩, ran, rfl⟩ := map_eq_some_iff.mp next
    unfold sendProxyProgress at ran
    split at ran
    · cases ran
      exact h
    · exact subLoop_flagged _ h ran

/-- The pass takes one entry for every sub of the connection, after it has done nothing for the
connection, and leaves none of its subs marked. -/
structure Handled (s s' : State) (trace : List (Nat × Turn)) (comm : Nat) : Prop where
  before : ∃ front, trace = front ++ [(comm, .rollBack)] ∧ ∀ t ∈ front, t.1 = comm → t.2 = .idle
  taken : s'.syncFifoHead comm = s.syncFifoHead comm + (s.subs.map Sub.comm).count comm
  unmarked : ∀ sub ∈ s'.subs, sub.comm = comm → sub.needRollback = false

theorem rollBack_handled (ran : rollBack slice comm answers s = some next) :
    Handled s next [(comm, .rollBack)] comm := by
  obtain ⟨hr, ht, -⟩ := rollBack_spec ran
  refine ⟨⟨[], rfl, by simp⟩, ht, ?_⟩
  intro after mem mine
  obtain ⟨_, -, comm', -, back⟩ := exists_rolledBack hr mem
  exact (back (comm' ▸ mine)).1

theorem turn_rollBack {answer : Answer} :
    turn cfg s answer sub = .rollBack ↔
      sub.finished = false ∧ sub.hasRollback = false ∧ s.checkSubSyncFifo sub.comm = true := by
  unfold turn
  split
  · simp [*]
  split
  · simp_all
  rename_i hb
  constructor
  · intro same
    repeat' split at same
    all_goals contradiction
  · exact fun open' => absurd ⟨open'.2.1, open'.2.2⟩ hb

theorem turn_finished {answer : Answer} (finished : sub.finished = true) : turn cfg s answer sub = .idle := by
  simp [turn, finished]

theorem subLoop_rollBack (left : Nat) (h : Flagged s) (ran : subLoop cfg answers left i s = some (s', trace))
    (taken : (comm, Turn.rollBack) ∈ trace) :
    s.rollbacks comm = 0 := by
  induction left generalizing i s trace with
  | zero =>
    cases ran
    simp at taken
  | succ left ih =>
    cases here : s.subs[i]? with
    | none =>
      simp only [subLoop, here, some.injEq, Prod.mk.injEq] at ran
      simp [← ran.2] at taken
    | some sub =>
      rcases subLoop_cases here ran with ⟨kind, -, rfl⟩ | ⟨-, -, rfl⟩ | ⟨t, _, -, ho, tail, rfl⟩
      · simp only [mem_singleton, Prod.mk.injEq, and_true] at taken
        have unset := (turn_rollBack.mp kind).2.1
        by_contra set'
        have := (h sub (mem_of_getElem? here)).mpr (taken ▸ set')
        simp [this] at unset
      · simp at taken
      · rcases mem_cons.mp taken with same | taken
        · simp only [Prod.mk.injEq] at same
          exact absurd same.2.symm ho
        · exact ih (s := s.perform cfg i sub t) (perform_flagged h here t) tail taken

theorem subLoop_handled (left : Nat) {j : Nat} (h : Flagged s) (ran : subLoop cfg answers left i s = some (s', trace))
    (reaches : j < trace.length) (there : s.subs[i + j]? = some sub) (unfinished : sub.finished = false)
    (waiting : s.checkSubSyncFifo sub.comm = true) (first : s.rollbacks sub.comm = 0) :
    Handled s s' trace sub.comm := by
  induction left generalizing i j s trace with
  | zero =>
    cases ran
    simp at reaches
  | succ left ih =>
    cases here : s.subs[i]? with
    | none =>
      simp only [subLoop, here, some.injEq, Prod.mk.injEq] at ran
      simp [← ran.2] at reaches
    | some current =>
      -- a sub of the connection that comes earlier and is not finished would take the entries
      have takes : current.comm = sub.comm → current.finished = false →
          turn cfg s (answers i) current = .rollBack := by
        intro same open'
        have unset := h.unset (mem_of_getElem? here) (same ▸ first)
        exact turn_rollBack.mpr ⟨open', unset, same ▸ waiting⟩
      rcases subLoop_cases here ran with ⟨-, hr, rfl⟩ | ⟨kind, -, rfl⟩ | ⟨t, _, kind, ho, tail, rfl⟩
      · obtain rfl : j = 0 := by simpa using reaches
        obtain rfl : current = sub := some.inj (here.symm.trans there)
        exact rollBack_handled hr
      · obtain rfl : j = 0 := by simpa using reaches
        obtain rfl : current = sub := some.inj (here.symm.trans there)
        rw [takes rfl unfinished] at kind
        contradiction
      · cases j with
        | zero =>
          obtain rfl : current = sub := some.inj (here.symm.trans there)
          exact absurd (kind.symm.trans (takes rfl unfinished)) ho
        | succ j =>
          have kept : (s.perform cfg i current t).subs[i + 1 + j]? = some sub := by
            rw [State.perform, getElem?_set_ne (by omega), ← there]
            congr 1
            omega
          obtain ⟨⟨front, hs', idle⟩, taken, hu⟩ := ih (perform_flagged h here t) tail
            (by simpa using reaches) kept waiting first
          refine ⟨⟨(current.comm, t) :: front, by rw [hs']; rfl, ?_⟩, ?_, hu⟩
          · refine forall_mem_cons.mpr ⟨?_, idle⟩
            intro mine
            cases open' : current.finished with
            | true => exact kind ▸ turn_finished open'
            | false => exact absurd (kind.symm.trans (takes mine open')) ho
          · rw [taken, perform_comms here t]
            rfl

/-- A pass that comes to an unfinished sub with a waiting entry handles that rollback exactly if it
is the first of the connection in this op. -/
theorem pass_handles_iff_first_rollback {cfg : Net.Config} {ops : List SubOp}
    {fifo : Nat → Nat → SyncElem} {head : Nat → Nat} {s s' : State} {answers : Nat → Answer}
    {trace : List (Nat × Turn)} {i : Nat} {sub : Sub}
    (reached : Reachable (step cfg) (initial ops fifo head) s)
    (passed : sendProxyProgress cfg s answers = some (s', trace)) (reaches : i < trace.length)
    (here : s.subs[i]? = some sub) (unfinished : sub.counts.done ≠ sub.counts.nsteps)
    (waiting : s.checkSubSyncFifo sub.comm = true) :
    Handled s s' trace sub.comm ↔ s.rollbacks sub.comm = 0 := by
  have flagged : Flagged s := reachable_invariant Flagged (initial_flagged ops fifo head)
    (fun _ a _ kept next => step_flagged a kept next) reached
  unfold sendProxyProgress at passed
  split at passed
  · cases passed
    simp at reaches
  constructor
  · intro hh
    obtain ⟨_, hs', -⟩ := hh.before
    exact subLoop_rollBack _ flagged passed (by simp [hs'])
  · apply subLoop_handled _ flagged passed reaches
    · simpa using here
    · simpa [Sub.finished] using unfinished
    · exact waiting

def oneSub : Net.Config where
  sliceSteps := 1
  nsubs := 1
  positive := Nat.one_pos
  aligned := by decide

def oneStep : State := initial [⟨0, 1, 0, false, 0⟩] (fun _ _ => ⟨0, 0⟩) fun _ => 0

def answering (test : Outcome) (_ : Nat) : Answer := ⟨true, true, test, fun _ => 0⟩

def firstFailure : List Action :=
  [.pass (answering .pending), .pass (answering .pending), .pass (answering .error), .arrive 0 ⟨1, 0⟩]

def secondFailure : List Action :=
  firstFailure ++
    [.pass (answering .pending), .pass (answering .pending), .pass (answering .error), .arrive 0 ⟨2, 0⟩]

def waitingPass (trace : List (Nat × Turn)) (s : State) : Bool :=
  s.subs = [⟨0, ⟨1, 0, 1, 1, 0⟩, false, 0, true, decide (s.rollbacks 0 ≠ 0)⟩] && s.checkSubSyncFifo 0 &&
    (sendProxyProgress oneSub s (answering .pending)).map Prod.snd = some trace

theorem first_rollback_handled : ∃ s s' trace,
    Reachable (step oneSub) oneStep s ∧
      sendProxyProgress oneSub s (answering .pending) = some (s', trace) ∧
      s.checkSubSyncFifo 0 = true ∧ Handled s s' trace 0 := by
  obtain ⟨s, ran, hf⟩ := run_reaches (step oneSub) oneStep firstFailure
    (fun s => waitingPass [(0, .rollBack)] s && decide (s.rollbacks 0 = 0)) (by decide +kernel)
  simp only [waitingPass, Bool.and_eq_true, decide_eq_true_eq] at hf
  obtain ⟨⟨⟨subs, hw⟩, hp⟩, first⟩ := hf
  obtain ⟨⟨s', _⟩, hpa, rfl⟩ := map_eq_some_iff.mp hp
  refine ⟨s, s', _, ⟨_, ran⟩, hpa, hw, ?_⟩
  exact (pass_handles_iff_first_rollback (i := 0) ⟨_, ran⟩ hpa (by simp) (by rw [subs]; rfl)
    (by simp) hw).mpr first

/-- The second rollback of the op is not looked at: the sub is marked, its entry is there, and the
pass does nothing. -/
theorem second_rollback_ignored : ∃ s s',
    Reachable (step oneSub) oneStep s ∧
      (∃ sub, s.subs = [sub] ∧ sub.needRollback = true ∧ sub.counts.done ≠ sub.counts.nsteps ∧
        s.checkSubSyncFifo sub.comm = true) ∧
      sendProxyProgress oneSub s (answering .pending) = some (s', [(0, .idle)]) ∧
      ¬ Handled s s' [(0, .idle)] 0 := by
  obtain ⟨s, ran, hf⟩ := run_reaches (step oneSub) oneStep secondFailure
    (waitingPass [(0, .idle)] ·) (by decide +kernel)
  simp only [waitingPass, Bool.and_eq_true, decide_eq_true_eq] at hf
  obtain ⟨⟨subs, hw⟩, hp⟩ := hf
  obtain ⟨⟨s', _⟩, hpa, rfl⟩ := map_eq_some_iff.mp hp
  refine ⟨s, s', ⟨_, ran⟩, ⟨_, subs, rfl, by simp, hw⟩, hpa, ?_⟩
  intro hh
  obtain ⟨_, hs', -⟩ := hh.before
  have last := congrArg getLast? hs'
  simp at last

end Vccl.Rollback.Passes
