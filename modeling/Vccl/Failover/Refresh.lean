import Vccl.Failover.Fifo

/-! The flags of one end of a connection against the completion queues its requests wait for: the
refresh in `ncclEnqueueCheck`, the errors `ncclIbTest` finds and the rollbacks after them. A request
was posted under the flags of its time, `ncclIbTest` looks where the flags of now point. -/
namespace Vccl.Failover.Refresh

open List Transition

inductive Kind where
  | recv
  | flush
  | send
  deriving DecidableEq

/-- A request in use. `waits` has the completion queues its events are to come from, `args` and
`stream` say for which op it was posted; `marked` requests are left alone until the rollback that
frees them. -/
structure Request where
  kind : Kind
  args : Nat
  stream : Nat
  waits : List Device
  devBases : Nat → Bool
  backupDevBases : Nat → Bool
  marked : Bool

structure State where
  warn : Nat → Bool
  ccCnt : Nat
  inUse : List Request

def initial : State := ⟨fun _ => false, 0, []⟩

def pollQueue (side : Side) (warn : Nat → Bool) (r : Request) (i : Nat) : Option Device :=
  if r.devBases i && !warn i then some ⟨side, false, i⟩
  else if r.backupDevBases i then some ⟨side, true, i⟩
  else none

def queueOf (cfg : Config) (side : Side) (warn : Nat → Bool) (q : Nat) : Device :=
  cfg.deviceOf side (pickQp cfg side warn q)

/-- Bases set by `ncclIbAddEvent` or left over from an earlier use of the slot; the first two were
cleared. -/
def based (side : Side) (backup : Bool) (waits : List Device) (stale : Nat → Bool) (d : Nat) : Bool :=
  decide (⟨side, backup, d⟩ ∈ waits) || decide (2 ≤ d) && stale d

structure Use where
  args : Nat
  stream : Nat
  stale : Nat → Bool
  staleBackup : Nat → Bool

/-- `ncclIbIrecv`: `qps` are the QPs of the message, `cts` those of a signaled clear-to-send entry. -/
def recvRequest (cfg : Config) (warn : Nat → Bool) (use : Use) (qps : List Nat) (cts : Option (Nat × Nat)) :
    Request :=
  let signaled := cts.toList.map fun (devIndex, backupDevIndex) =>
    if cfg.faultTolerance && warn (devIndex % cfg.recv.ndevs) then cfg.deviceOf .recv ⟨true, backupDevIndex⟩
    else cfg.deviceOf .recv ⟨false, devIndex⟩
  let waits := qps.map (queueOf cfg .recv warn) ++ signaled
  { kind := .recv
    args := use.args
    stream := use.stream
    waits
    devBases := fun d => decide (d < cfg.recv.ndevs) || based .recv false waits use.stale d
    backupDevBases := fun d =>
      (cfg.faultTolerance && decide (d < cfg.recv.ndevs)) || based .recv true waits use.staleBackup d
    marked := false }

def flushRequest (cfg : Config) (warn : Nat → Bool) (use : Use) : Request :=
  let waits := (range cfg.recv.ndevs).map fun d => ⟨.recv, cfg.faultTolerance && warn d, d⟩
  { kind := .flush
    args := use.args
    stream := use.stream
    waits
    devBases := based .recv false waits use.stale
    backupDevBases := based .recv true waits use.staleBackup
    marked := false }

def sendRequest (cfg : Config) (warn : Nat → Bool) (use : Use) (qps : List Nat) : Request :=
  let waits := qps.map (queueOf cfg .send warn)
  { kind := .send
    args := use.args
    stream := use.stream
    waits
    devBases := based .send false waits use.stale
    backupDevBases := based .send true waits use.staleBackup
    marked := false }

inductive Func where
  | coll
  | send
  | recv
  deriving DecidableEq

def refreshNum : Func → Nat
  | .recv => 256
  | _ => 64

inductive Action where
  | call (func : Func) (stream : Nat)
  | irecv (use : Use) (qps : List Nat) (cts : Option (Nat × Nat))
  | iflush (use : Use)
  | isend (use : Use) (qps : List Nat) (ifBackup : Bool)
  | complete (k : Nat) (queue : Device)
  | finish (k : Nat)
  | recvError (k i : Nat)
  | flushError (k i : Nat)
  | sendError (k i : Nat)
  | sendRollBack (args errPortIdx : Nat)

def needStreamSync (cfg : Config) (s : State) : Bool := (range cfg.recv.ndevs).any s.warn

def clears (s : State) (func : Func) : Bool := decide (func ≠ .send ∧ (s.ccCnt + 1) % refreshNum func = 0)

/-- `ncclEnqueueCheck` for one receiving connector. If a flag is set, the call waits until the ops of
its own stream are over and their requests given back. -/
def call (cfg : Config) (func : Func) (stream : Nat) (s : State) : Option State :=
  if func = .send then some s
  else if needStreamSync cfg s ∧ ∃ r ∈ s.inUse, r.stream = stream then none
  else some
    { s with
      ccCnt := (s.ccCnt + 1) % refreshNum func
      warn := if clears s func then fun d => if d < cfg.recv.ndevs then false else s.warn d else s.warn }

/-- An error completion of device `i` in a test of request `k`, and what the proxy then does. -/
def error (s : State) (kind : Kind) (k i : Nat) (after : Request → State → State) : Option State :=
  match s.inUse[k]? with
  | some r =>
    if r.kind = kind ∧ r.devBases i then some (after r { s with warn := flag r.devBases i s.warn }) else none
  | none => none

def free (kind : Kind) (r : Request) (s : State) : State :=
  { s with inUse := s.inUse.filter fun other => !(other.kind = kind && other.args = r.args) }

def syncFlag (cfg : Config) (errPortIdx : Nat) (warn : Nat → Bool) : Nat → Bool := fun d =>
  if d = errPortIdx ∨ (1 < cfg.send.ndevs ∧ d = errPortIdx ^^^ 1) then true else warn d

def mark (r : Request) (s : State) : State :=
  { s with inUse := s.inUse.map fun other => if other.args = r.args then { other with marked := true } else other }

def step (cfg : Config) (side : Side) (s : State) : Action → Option State
  | .call func stream => if side = .recv then call cfg func stream s else none
  | .irecv use qps cts =>
    if side = .recv then some { s with inUse := recvRequest cfg s.warn use qps cts :: s.inUse } else none
  | .iflush use =>
    if side = .recv then some { s with inUse := flushRequest cfg s.warn use :: s.inUse } else none
  | .isend use qps ifBackup =>
    if side = .send then
      let warn := followEntry cfg ifBackup s.warn
      some { s with warn, inUse := sendRequest cfg warn use qps :: s.inUse }
    else none
  | .complete k queue =>
    (s.inUse[k]?).map fun r => { s with inUse := s.inUse.set k { r with waits := r.waits.erase queue } }
  | .finish k =>
    match s.inUse[k]? with
    | some r => if r.waits = [] then some { s with inUse := s.inUse.eraseIdx k } else none
    | none => none
  | .recvError k i =>
    if side = .recv ∧ cfg.faultTolerance then
      error s .recv k i fun r s => { free .recv r s with ccCnt := 0 }
    else none
  | .flushError k i =>
    if side = .recv ∧ cfg.faultTolerance then error s .flush k i (free .flush) else none
  | .sendError k i => if side = .send ∧ cfg.faultTolerance then error s .send k i mark else none
  | .sendRollBack args errPortIdx =>
    if side = .send ∧ cfg.faultTolerance then
      some
        { s with
          warn := syncFlag cfg errPortIdx s.warn
          inUse := s.inUse.filter fun r => r.args ≠ args }
    else none

def Based (side : Side) (r : Request) : Prop :=
  ∀ w ∈ r.waits, w.side = side ∧
    if w.backup then r.backupDevBases w.index = true else r.devBases w.index = true

variable {side : Side} {kind : Kind}

theorem based_of_mem {waits : List Device} {devBases backupDevBases : Nat → Bool} {args stream : Nat}
    (all : ∀ w ∈ waits, w.side = side) (primary : ∀ d, ⟨side, false, d⟩ ∈ waits → devBases d = true)
    (backup : ∀ d, ⟨side, true, d⟩ ∈ waits → backupDevBases d = true) :
    Based side ⟨kind, args, stream, waits, devBases, backupDevBases, false⟩ := by
  intro w mem
  refine ⟨all w mem, ?_⟩
  obtain ⟨here, mode, d⟩ := w
  obtain rfl : here = side := all _ mem
  cases mode with
  | false => exact primary d mem
  | true => exact backup d mem

theorem based_mem {backup : Bool} {waits : List Device} {stale : Nat → Bool} {d : Nat}
    (mem : ⟨side, backup, d⟩ ∈ waits) : based side backup waits stale d = true := by
  simp [based, mem]

theorem recvRequest_based (cfg : Config) (warn : Nat → Bool) (use : Use) (qps : List Nat)
    (cts : Option (Nat × Nat)) : Based .recv (recvRequest cfg warn use qps cts) := by
  apply based_of_mem
  · intro w mem
    rcases mem_append.mp mem with data | he
    · obtain ⟨q, -, rfl⟩ := mem_map.mp data
      rfl
    · obtain ⟨_, -, rfl⟩ := mem_map.mp he
      simp only
      split <;> rfl
  all_goals
    intro d mem
    simp only [based_mem mem, Bool.or_true]

theorem flushRequest_based (cfg : Config) (warn : Nat → Bool) (use : Use) :
    Based .recv (flushRequest cfg warn use) := by
  apply based_of_mem
  · intro w mem
    obtain ⟨d, -, rfl⟩ := mem_map.mp mem
    rfl
  all_goals exact fun d mem => based_mem mem

theorem sendRequest_based (cfg : Config) (warn : Nat → Bool) (use : Use) (qps : List Nat) :
    Based .send (sendRequest cfg warn use qps) := by
  apply based_of_mem
  · intro w mem
    obtain ⟨q, -, rfl⟩ := mem_map.mp mem
    rfl
  all_goals exact fun d mem => based_mem mem

variable {s s' : State} {k i : Nat}

theorem error_some {after : Request → State → State} (next : error s kind k i after = some s') :
    ∃ r, s.inUse[k]? = some r ∧ r.kind = kind ∧ r.devBases i = true ∧
      s' = after r { s with warn := flag r.devBases i s.warn } := by
  unfold error at next
  split at next
  next r hf =>
    split at next
    next hg =>
      cases next
      exact ⟨r, hf, hg.1, hg.2, rfl⟩
    · contradiction
  · contradiction

theorem step_based {cfg : Config} (a : Action) (h : ∀ r ∈ s.inUse, Based side r) (next : step cfg side s a = some s') :
    ∀ r ∈ s'.inUse, Based side r := by
  cases a with
  | call func stream =>
    simp only [step, call] at next
    split at next
    · split at next
      · cases next
        exact h
      · split at next
        · contradiction
        · cases next
          exact h
    · contradiction
  | irecv use qps cts =>
    obtain ⟨here, ⟨⟩⟩ := Option.ite_none_right_eq_some.mp next
    exact forall_mem_cons.mpr ⟨here ▸ recvRequest_based cfg s.warn use qps cts, h⟩
  | iflush use =>
    obtain ⟨here, ⟨⟩⟩ := Option.ite_none_right_eq_some.mp next
    exact forall_mem_cons.mpr ⟨here ▸ flushRequest_based cfg s.warn use, h⟩
  | isend use qps ifBackup =>
    obtain ⟨here, ⟨⟩⟩ := Option.ite_none_right_eq_some.mp next
    exact forall_mem_cons.mpr ⟨here ▸ sendRequest_based cfg _ use qps, h⟩
  | complete k queue =>
    obtain ⟨r, hf, rfl⟩ := Option.map_eq_some_iff.mp next
    intro other mem
    rcases mem_or_eq_of_mem_set mem with old | rfl
    · exact h other old
    · exact fun w hi => h r (mem_of_getElem? hf) w (mem_of_mem_erase hi)
  | finish k =>
    simp only [step] at next
    split at next
    · split at next
      · cases next
        exact fun r mem => h r (mem_of_mem_eraseIdx mem)
      · contradiction
    · contradiction
  | recvError k i | flushError k i =>
    obtain ⟨-, next⟩ := Option.ite_none_right_eq_some.mp next
    obtain ⟨r, -, -, -, rfl⟩ := error_some next
    exact fun other mem => h other (mem_filter.mp mem).1
  | sendError k i =>
    obtain ⟨-, next⟩ := Option.ite_none_right_eq_some.mp next
    obtain ⟨r, -, -, -, rfl⟩ := error_some next
    intro other mem
    obtain ⟨old, ht, rfl⟩ := mem_map.mp mem
    have := h old ht
    split <;> exact this
  | sendRollBack args errPortIdx =>
    obtain ⟨-, ⟨⟩⟩ := Option.ite_none_right_eq_some.mp next
    exact fun r mem => h r (mem_filter.mp mem).1

def Kept (side : Side) (warn warn' : Nat → Bool) (r : Request) : Prop :=
  ∀ w ∈ r.waits, pollQueue side warn r w.index = some w → pollQueue side warn' r w.index = some w

theorem pollQueue_iff {r : Request} (h : Based side r) {w : Device} (mem : w ∈ r.waits) (warn : Nat → Bool) :
    pollQueue side warn r w.index = some w ↔
      if w.backup then warn w.index = true ∨ r.devBases w.index = false else warn w.index = false := by
  have based := h w mem
  obtain ⟨_, backup, d⟩ := w
  obtain ⟨rfl, _⟩ := based
  cases backup <;> cases flag : warn d <;> cases hp : r.devBases d <;> simp_all [pollQueue]

def Unraised (side : Side) (warn warn' : Nat → Bool) (r : Request) : Prop :=
  ∀ d, warn d = false → warn' d = true → ⟨side, false, d⟩ ∉ r.waits

/-- A flag that is cleared takes the backup queue out of sight, unless the request has no base of the
primary device. -/
def Uncleared (side : Side) (warn warn' : Nat → Bool) (r : Request) : Prop :=
  ∀ d, warn d = true → warn' d = false → ⟨side, true, d⟩ ∈ r.waits → r.devBases d = false

variable {warn warn' : Nat → Bool} {r : Request}

theorem kept_iff (h : Based side r) :
    Kept side warn warn' r ↔ Unraised side warn warn' r ∧ Uncleared side warn warn' r := by
  constructor
  · intro kept
    constructor
    all_goals
      intro d before after mem
      have := kept _ mem
      simp_all [pollQueue_iff h mem]
  rintro ⟨hu, hc⟩ w mem
  obtain ⟨here, backup, d⟩ := w
  obtain rfl : here = side := (h _ mem).1
  have := hu d
  have := hc d
  rw [pollQueue_iff h mem, pollQueue_iff h mem]
  cases backup <;> grind

theorem kept_iff_unraised (h : Based side r)
    (raises : ∀ d, warn d = true → warn' d = true) : Kept side warn warn' r ↔ Unraised side warn warn' r :=
  (kept_iff h).trans (and_iff_left fun d high low => by simp [raises d high] at low)

theorem flag_raises (devBases : Nat → Bool) (i : Nat) (warn : Nat → Bool) (d : Nat) (high : warn d = true) :
    flag devBases i warn d = true := by
  simp [flag, high]

theorem syncFlag_raises (cfg : Config) (errPortIdx : Nat) (warn : Nat → Bool) (d : Nat) (high : warn d = true) :
    syncFlag cfg errPortIdx warn d = true := by
  simp [syncFlag, high]

def Action.changesFlags : Action → Bool
  | .call .. | .recvError .. | .flushError .. | .sendError .. | .sendRollBack .. => true
  | _ => false

/-- No request that is left in use, or is not to be freed by a rollback, loses its queue. -/
def NoneStranded (side : Side) (s s' : State) : Prop :=
  ∀ r ∈ s'.inUse, r.marked = false → Kept side s.warn s'.warn r

def Hit (side : Side) (s : State) (k i : Nat) (r : Request) : Prop :=
  ∃ failed, s.inUse[k]? = some failed ∧ ¬ Unraised side s.warn (flag failed.devBases i s.warn) r

def argsOf (s : State) (k : Nat) : Option Nat := (s.inUse[k]?).map (·.args)

/-- When an event strands nobody: at a clear, every receive of the other streams has its backup events;
at an error, the requests that the rollback does not take wait for none of the primary queues that
go out of sight. -/
def Safe (cfg : Config) (s : State) : Action → Prop
  | .call func _ =>
    clears s func = true → ∀ r ∈ s.inUse, r.marked = false → ∀ d < cfg.recv.ndevs, s.warn d = true →
      ⟨.recv, true, d⟩ ∈ r.waits → r.devBases d = false
  | .recvError k i =>
    ∀ r ∈ s.inUse, r.marked = false → r.kind ≠ .recv ∨ some r.args ≠ argsOf s k → ¬ Hit .recv s k i r
  | .flushError k i =>
    ∀ r ∈ s.inUse, r.marked = false → r.kind ≠ .flush ∨ some r.args ≠ argsOf s k → ¬ Hit .recv s k i r
  | .sendError k i => ∀ r ∈ s.inUse, r.marked = false → some r.args ≠ argsOf s k → ¬ Hit .send s k i r
  | .sendRollBack args errPortIdx =>
    ∀ r ∈ s.inUse, r.marked = false → r.args ≠ args →
      Unraised .send s.warn (syncFlag cfg errPortIdx s.warn) r
  | _ => True

theorem strands_none_iff {failed : Request} (h : ∀ r ∈ s.inUse, Based side r) (found : s.inUse[k]? = some failed)
    {left : List Request} {spared : Request → Prop}
    (same : ∀ r, r ∈ left ∧ r.marked = false ↔ r ∈ s.inUse ∧ r.marked = false ∧ spared r) :
    (∀ r ∈ left, r.marked = false → Kept side s.warn (flag failed.devBases i s.warn) r) ↔
      ∀ r ∈ s.inUse, r.marked = false → spared r → ¬ Hit side s k i r := by
  have hit (r : Request) (mem : r ∈ s.inUse) :
      Kept side s.warn (flag failed.devBases i s.warn) r ↔ ¬ Hit side s k i r := by
    rw [kept_iff_unraised (h r mem) (flag_raises _ _ _)]
    simp [Hit, found]
  constructor
  · intro kept r mem hu other
    obtain ⟨ht, hu⟩ := (same r).mpr ⟨mem, hu, other⟩
    exact (hit r mem).mp (kept r ht hu)
  · intro safe r ht hu
    obtain ⟨mem, hu, other⟩ := (same r).mp ⟨ht, hu⟩
    exact (hit r mem).mpr (safe r mem hu other)

theorem argsOf_eq {failed : Request} (found : s.inUse[k]? = some failed) : argsOf s k = some failed.args := by
  simp [argsOf, found]

theorem free_strands_none_iff {failed : Request} (h : ∀ r ∈ s.inUse, Based side r) (found : s.inUse[k]? = some failed) :
    (∀ r ∈ (free kind failed { s with warn := flag failed.devBases i s.warn }).inUse, r.marked = false →
        Kept side s.warn (flag failed.devBases i s.warn) r) ↔
      ∀ r ∈ s.inUse, r.marked = false → r.kind ≠ kind ∨ some r.args ≠ argsOf s k → ¬ Hit side s k i r := by
  refine strands_none_iff h found fun r => ?_
  simp only [free, mem_filter, argsOf_eq found, Option.some.injEq, ne_eq, Bool.not_eq_true',
    Bool.and_eq_false_iff, decide_eq_false_iff_not]
  rw [and_assoc, and_comm (a := _ ∨ _)]

theorem mark_strands_none_iff {failed : Request} (h : ∀ r ∈ s.inUse, Based .send r)
    (found : s.inUse[k]? = some failed) :
    (∀ r ∈ (mark failed { s with warn := flag failed.devBases i s.warn }).inUse, r.marked = false →
        Kept .send s.warn (flag failed.devBases i s.warn) r) ↔
      ∀ r ∈ s.inUse, r.marked = false → some r.args ≠ argsOf s k → ¬ Hit .send s k i r := by
  refine strands_none_iff h found fun r => ?_
  simp only [mark, mem_map, argsOf_eq found, ne_eq, Option.some.injEq]
  constructor
  · rintro ⟨⟨_, mem, rfl⟩, hu⟩
    split at hu
    · cases hu
    next other =>
      rw [if_neg other]
      exact ⟨mem, hu, other⟩
  · rintro ⟨mem, hu, other⟩
    exact ⟨⟨r, mem, if_neg other⟩, hu⟩

theorem call_strands_none_iff {cfg : Config} {func : Func} {stream : Nat} (h : ∀ r ∈ s.inUse, Based .recv r)
    (next : call cfg func stream s = some s') :
    NoneStranded .recv s s' ↔ Safe cfg s (.call func stream) := by
  unfold call at next
  split at next
  next send =>
    cases next
    subst send
    constructor
    · intro _ hc
      simp [clears] at hc
    · exact fun _ r _ _ w _ before => before
  · obtain ⟨-, ⟨⟩⟩ := Option.ite_none_left_eq_some.mp next
    cases hc : clears s func with
    | false => simp [NoneStranded, Safe, Kept, hc]
    | true =>
      simp only [NoneStranded, Safe, hc, if_true, forall_const]
      apply forall₃_congr
      intro r mem hun
      rw [kept_iff (h r mem)]
      constructor
      · intro kept d hb high waits
        exact kept.2 d high (if_pos hb) waits
      · intro safe
        refine ⟨fun d low high => by simp [low] at high, fun d high low waits => ?_⟩
        by_cases hb : d < cfg.recv.ndevs
        · exact safe d hb high waits
        · simp only [if_neg hb, high] at low
          contradiction

/-- Over every run, a call, an error or a rollback leaves every request its queue, or frees it, just
if the requests it does not free have nothing outstanding on the queues that go out of sight. -/
theorem none_stranded_iff_safe (cfg : Config) (side : Side) (s s' : State) (a : Action)
    (reached : Reachable (step cfg side) initial s) (event : a.changesFlags = true)
    (next : step cfg side s a = some s') : NoneStranded side s s' ↔ Safe cfg s a := by
  have h : ∀ r ∈ s.inUse, Based side r := by
    apply reachable_invariant (fun s : State => ∀ r ∈ s.inUse, Based side r) _ _ reached
    · simp [initial]
    · intro s a s' h next
      exact step_based a h next
  cases a with
  | irecv | iflush | isend | complete | finish => contradiction
  | call func stream =>
    obtain ⟨rfl, next⟩ := Option.ite_none_right_eq_some.mp next
    exact call_strands_none_iff h next
  | recvError k i | flushError k i =>
    obtain ⟨⟨rfl, -⟩, hr⟩ := Option.ite_none_right_eq_some.mp next
    obtain ⟨failed, hf, -, -, rfl⟩ := error_some hr
    exact free_strands_none_iff h hf
  | sendError k i =>
    obtain ⟨⟨rfl, -⟩, hr⟩ := Option.ite_none_right_eq_some.mp next
    obtain ⟨failed, hf, -, -, rfl⟩ := error_some hr
    exact mark_strands_none_iff h hf
  | sendRollBack args errPortIdx =>
    obtain ⟨⟨rfl, -⟩, ⟨⟩⟩ := Option.ite_none_right_eq_some.mp next
    simp only [NoneStranded, mem_filter, decide_eq_true_eq, and_imp]
    apply forall₂_congr
    intro r mem
    rw [kept_iff_unraised (h r mem) (syncFlag_raises _ _ _)]
    exact ⟨fun all hu other => all other hu, fun all other hu => all hu other⟩

instance (side : Side) (warn warn' : Nat → Bool) (r : Request) : Decidable (Kept side warn warn' r) := by
  unfold Kept
  infer_instance

instance (side : Side) (s s' : State) : Decidable (NoneStranded side s s') := by
  unfold NoneStranded
  infer_instance

def fresh (args stream : Nat) : Use := ⟨args, stream, fun _ => false, fun _ => false⟩

def otherStreamCalls : List Action :=
  [.irecv (fresh 0 1) [0] none, .recvError 0 0, .irecv (fresh 0 1) [0] none] ++
    replicate 63 (.call .coll 2)

def flushUnderWay : List Action := [.iflush (fresh 0 1), .irecv (fresh 0 1) [0] none]

/-- The 64th call of another stream clears the flag while a receive waits for the backup device; an
error of a receive sets it while a flush waits for the primary one. -/
theorem pending_requests_stranded :
    (∃ s s', Reachable (step single .recv) initial s ∧
      step single .recv s (.call .coll 2) = some s' ∧ ¬ NoneStranded .recv s s') ∧
    ∃ s s', Reachable (step single .recv) initial s ∧
      step single .recv s (.recvError 0 0) = some s' ∧ ¬ NoneStranded .recv s s' := by
  constructor
  · obtain ⟨s, s', ran, stranded⟩ := run_step_reaches (step single .recv) initial otherStreamCalls (.call .coll 2)
      (fun s s' => ¬ NoneStranded .recv s s') (by decide +kernel)
    exact ⟨s, s', ⟨_, ran⟩, stranded⟩
  · obtain ⟨s, s', ran, stranded⟩ := run_step_reaches (step single .recv) initial flushUnderWay (.recvError 0 0)
      (fun s s' => ¬ NoneStranded .recv s s') (by decide +kernel)
    exact ⟨s, s', ⟨_, ran⟩, stranded⟩

/-- With receives of one op only, an error frees them all. -/
theorem receives_not_stranded : ∃ s s', Reachable (step single .recv) initial s ∧
    step single .recv s (.recvError 0 0) = some s' ∧ s.inUse.length = 2 ∧ NoneStranded .recv s s' := by
  obtain ⟨s, ran, hf⟩ := run_reaches (step single .recv) initial
    [.irecv (fresh 0 1) [0] none, .irecv (fresh 0 1) [0] none]
    (fun s => (step single .recv s (.recvError 0 0)).isSome && decide (s.inUse.length = 2 ∧
      ∀ r ∈ s.inUse, r.kind = .recv ∧ some r.args = argsOf s 0)) (by decide +kernel)
  obtain ⟨hd, two, ha⟩ : _ ∧ _ ∧ _ := by simpa only [Bool.and_eq_true, decide_eq_true_eq] using hf
  obtain ⟨s', next⟩ := Option.isSome_iff_exists.mp hd
  refine ⟨s, s', ⟨_, ran⟩, next, two, (none_stranded_iff_safe single .recv s s' _ ⟨_, ran⟩ rfl next).mpr ?_⟩
  intro r mem _ other
  rcases other with kind | args
  · exact absurd (ha r mem).1 kind
  · exact absurd (ha r mem).2 args

end Vccl.Failover.Refresh
