import Vccl.Bitops
import Vccl.Lib.Transition

/-! `sendWrCounter` and `remainWrDataSize` of a proxy thread. A rollback gives up the work requests of the requests that
it frees; they do not complete later. Overflow of the counters is left out. -/
namespace Vccl.Ib.WrCounters

open List Transition
open Function (update update_apply update_of_ne)

/-- `telemetry` says that `loged_start` is `NCCL_LOG_TELEMETRY`; `size` is that of the logs. -/
structure Request where
  nreqs : Nat
  events : Nat → Int
  telemetry : Bool
  size : Nat → Int

/-- What has one completion: the work requests of `ncclIbMultiSend` on a queue pair, each with its request and its
bytes, or a ping of `getLinkStatus`, whose `wr_id` has the request `nreqs` times. -/
inductive WorkRequests where
  | data (devIndex : Nat) (pieces : List (Nat × Nat)) (distinct : (pieces.map Prod.fst).Nodup)
  | ping (devIndex r nreqs : Nat)

namespace WorkRequests

def dev : WorkRequests → Nat
  | data devIndex _ _ => devIndex
  | ping devIndex _ _ => devIndex

def reqs : WorkRequests → List Nat
  | data _ pieces _ => pieces.map Prod.fst
  | ping _ r nreqs => replicate nreqs r

def sends : WorkRequests → Nat
  | data _ pieces _ => pieces.length
  | ping _ _ _ => 0

def bytes : WorkRequests → Nat
  | data _ pieces _ => (pieces.map Prod.snd).sum
  | ping _ _ _ => 0

end WorkRequests

structure State where
  collect : Bool
  sendWrCounter : Nat → Int
  remainWrDataSize : Nat → Int
  reqs : Nat → Request
  inFlight : List WorkRequests

def initial : State := ⟨false, fun _ => 0, fun _ => 0, fun _ => ⟨0, fun _ => 0, false, fun _ => 0⟩, []⟩

def lengthOn (nqps i size : Nat) : Nat :=
  let chunkSize := divUp (divUp size nqps) 128 * 128
  min (size - i * chunkSize) chunkSize

structure Message where
  sends : List (Nat × Nat)
  distinct : (sends.map Prod.fst).Nodup
  devIndexes : List Nat

def Message.piecesOn (m : Message) (i : Nat) : List (Nat × Nat) :=
  m.sends.map fun p => (p.1, lengthOn m.devIndexes.length i p.2)

def postQp (m : Message) (s : State) (qp : Nat × Nat) : State :=
  let w := WorkRequests.data qp.1 (m.piecesOn qp.2) (by simpa [Message.piecesOn, Function.comp_def] using m.distinct)
  { s with
    sendWrCounter := update s.sendWrCounter w.dev (s.sendWrCounter w.dev + w.sends)
    remainWrDataSize := update s.remainWrDataSize w.dev (s.remainWrDataSize w.dev + w.bytes)
    reqs := (m.piecesOn qp.2).foldl (fun reqs p => update reqs p.1 { reqs p.1 with
      size := update (reqs p.1).size w.dev ((reqs p.1).size w.dev + p.2) }) s.reqs
    inFlight := w :: s.inFlight }

/-- The requests get their events in `ncclIbIsend`; their logs start anew only with telemetry on. -/
def multiSend (m : Message) (s : State) : State :=
  m.devIndexes.zipIdx.foldl (postQp m)
    { s with
      reqs := m.sends.foldl (fun reqs p => update reqs p.1 ⟨m.sends.length, fun i => m.devIndexes.count i, s.collect,
        if s.collect then fun _ => 0 else (reqs p.1).size⟩) s.reqs }

/-- The loop of `ncclIbTest` over the requests of a completion; it is left at one without events. -/
def testReqs (i : Nat) : List Nat → State → State
  | [], s => s
  | r :: rest, s =>
    let req := s.reqs r
    if req.events i ≤ 0 then s
    else testReqs i rest
      { s with
        reqs := update s.reqs r { req with events := update req.events i (req.events i - 1) }
        remainWrDataSize := if s.collect ∧ req.telemetry ∧ req.events i - 1 = 0 then
          update s.remainWrDataSize i (s.remainWrDataSize i - req.size i) else s.remainWrDataSize }

inductive Action where
  | send (message : Message)
  | complete (k : Nat)
  | ping (i r : Nat)
  | collect (value : Bool)
  | giveUp (k : Nat)

def step (s : State) : Action → Option State
  | .send message => some (multiSend message s)
  | .complete k => s.inFlight[k]?.map fun w => testReqs w.dev w.reqs
      { s with
        sendWrCounter := update s.sendWrCounter w.dev (s.sendWrCounter w.dev - w.reqs.length)
        inFlight := s.inFlight.eraseIdx k }
  | .ping i r =>
    let req := s.reqs r
    if s.collect ∧ req.events i ≠ 0 then
      some { s with
        reqs := update s.reqs r { req with events := update req.events i (req.events i + req.nreqs) }
        inFlight := .ping i r req.nreqs :: s.inFlight }
    else none
  | .collect value => some { s with collect := value }
  | .giveUp k => s.inFlight[k]?.map fun _ => { s with inFlight := s.inFlight.eraseIdx k }

def onDev (f : WorkRequests → Nat) (i : Nat) (ws : List WorkRequests) : Nat :=
  (ws.map fun w => if w.dev = i then f w else 0).sum

structure Exact (s : State) : Prop where
  sends : ∀ i, s.sendWrCounter i = onDev WorkRequests.sends i s.inFlight
  bytes : ∀ i, s.remainWrDataSize i = onDev WorkRequests.bytes i s.inFlight

/-- The bytes that a completion takes off: those of the requests whose last event it is, if telemetry is on and was on
when they were sent. -/
def takenOff (collect : Bool) (reqs : Nat → Request) (i : Nat) : List Nat → Int
  | [] => 0
  | r :: rest =>
    if (reqs r).events i ≤ 0 then 0
    else (if collect ∧ (reqs r).telemetry ∧ (reqs r).events i = 1 then (reqs r).size i else 0) +
      takenOff collect reqs i rest

/-- A completion is not that of a ping and takes off the bytes that were sent with it; what a rollback gives up is
no send. -/
def Granted (s : State) : Action → Prop
  | .complete k => ∀ w, s.inFlight[k]? = some w → w.sends = w.reqs.length ∧ takenOff s.collect s.reqs w.dev w.reqs = w.bytes
  | .giveUp k => ∀ w, s.inFlight[k]? = some w → w.sends = 0
  | _ => True

variable {s s' : State} {i : Nat} {f : WorkRequests → Nat} {ws : List WorkRequests} {w : WorkRequests} {ids : List Nat}

theorem onDev_cons : onDev f i (w :: ws) = (if w.dev = i then f w else 0) + onDev f i ws := rfl

theorem Exact.split {k : Nat} (h : Exact s) (found : s.inFlight[k]? = some w) (i : Nat) :
    s.sendWrCounter i = ((if w.dev = i then w.sends else 0) + onDev WorkRequests.sends i (s.inFlight.eraseIdx k) : Nat) ∧
    s.remainWrDataSize i = ((if w.dev = i then w.bytes else 0) + onDev WorkRequests.bytes i (s.inFlight.eraseIdx k) : Nat) := by
  obtain ⟨hb, rfl⟩ := List.getElem?_eq_some_iff.mp found
  have parts (f : WorkRequests → Nat) : onDev f i (_ :: _) = onDev f i s.inFlight :=
    ((getElem_cons_eraseIdx_perm hb).map _).sum_eq
  rw [← onDev_cons, ← onDev_cons, parts, parts]
  exact ⟨h.sends i, h.bytes i⟩

theorem multiSend_counted (m : Message) (h : Exact s) : Exact (multiSend m s) := by
  have posted (qps : List (Nat × Nat)) (t : State) (h : Exact t) : Exact (qps.foldl (postQp m) t) := by
    induction qps generalizing t with
    | nil => exact h
    | cons qp rest ih =>
      apply ih
      constructor
      · intro i
        have := h.sends i
        simp only [postQp, onDev_cons]
        grind
      · intro i
        have := h.bytes i
        simp only [postQp, onDev_cons]
        grind
  exact posted _ _ ⟨h.sends, h.bytes⟩

theorem WorkRequests.nodup (same : w.sends = w.reqs.length) : w.reqs.Nodup := by
  cases w with
  | data _ _ distinct => exact distinct
  | ping _ r nreqs =>
    rw [reqs, length_replicate] at same
    rw [← same]
    exact nodup_nil

theorem WorkRequests.bytes_of_sends (none : w.sends = 0) : w.bytes = 0 := by
  cases w with
  | data _ pieces _ => simp [bytes, length_eq_zero_iff.mp none]
  | ping _ r nreqs => rfl

theorem testReqs_rest (ids : List Nat) (s : State) :
    (testReqs i ids s).sendWrCounter = s.sendWrCounter ∧ (testReqs i ids s).inFlight = s.inFlight := by
  induction ids generalizing s with
  | nil => exact ⟨rfl, rfl⟩
  | cons r rest ih =>
    simp only [testReqs]
    split
    · exact ⟨rfl, rfl⟩
    · exact ih _

theorem takenOff_congr {collect : Bool} {reqs reqs' : Nat → Request} (agree : ∀ r ∈ ids, reqs' r = reqs r) :
    takenOff collect reqs' i ids = takenOff collect reqs i ids := by
  induction ids with
  | nil => rfl
  | cons r rest ih =>
    obtain ⟨here, others⟩ := forall_mem_cons.mp agree
    simp [takenOff, here, ih others]

theorem testReqs_remain (distinct : ids.Nodup) (s : State) (j : Nat) :
    (testReqs i ids s).remainWrDataSize j =
      s.remainWrDataSize j - if j = i then takenOff s.collect s.reqs i ids else 0 := by
  induction ids generalizing s with
  | nil => simp [testReqs, takenOff]
  | cons r rest ih =>
    obtain ⟨ho, distinct⟩ := nodup_cons.mp distinct
    simp only [testReqs, takenOff]
    split
    · simp
    · rw [ih distinct, takenOff_congr fun q mem => update_of_ne (ne_of_mem_of_not_mem mem ho) _ _]
      grind [update_apply]

theorem step_exact_iff {a : Action} (h : Exact s) (next : step s a = some s') : Exact s' ↔ Granted s a := by
  cases a with
  | send m =>
    cases next
    exact ⟨fun _ => trivial, fun _ => multiSend_counted m h⟩
  | complete k =>
    obtain ⟨w, hf, rfl⟩ := Option.map_eq_some_iff.mp next
    have split := h.split hf
    simp only [Granted, hf, Option.some.injEq, forall_eq']
    constructor
    · rintro ⟨hs, bytes⟩
      simp only [testReqs_rest] at hs bytes
      have same : w.sends = w.reqs.length := by grind
      simp only [testReqs_remain (w.nodup same)] at bytes
      exact ⟨same, by grind [bytes w.dev]⟩
    · rintro ⟨same, _⟩
      constructor
      · simp only [testReqs_rest]
        grind
      · simp only [testReqs_rest, testReqs_remain (w.nodup same)]
        grind
  | giveUp k =>
    obtain ⟨w, hf, rfl⟩ := Option.map_eq_some_iff.mp next
    have split := h.split hf
    simp only [Granted, hf, Option.some.injEq, forall_eq']
    constructor
    · rintro ⟨hs, -⟩
      grind [hs w.dev]
    · intro none
      have bytes := WorkRequests.bytes_of_sends none
      constructor <;> grind
  | ping i r =>
    obtain ⟨-, ⟨⟩⟩ := Option.ite_none_right_eq_some.mp next
    refine ⟨fun _ => trivial, fun _ => ⟨?_, ?_⟩⟩
    · simpa [onDev_cons, WorkRequests.sends] using h.sends
    · simpa [onDev_cons, WorkRequests.bytes] using h.bytes
  | collect value =>
    cases next
    exact ⟨fun _ => trivial, fun _ => ⟨h.sends, h.bytes⟩⟩

end Vccl.Ib.WrCounters
