import Vccl.Lib.Transition

/-! The send queue of a RAS connection and the bytes that its sockets take, one after the other. -/
namespace Vccl.Ras.Frames

open Transition List

variable {β : Type}

inductive MsgType where
  | connInit
  | connInitAck
  | keepAlive
  | other
  deriving DecidableEq

/-- The frame is the length and the body. -/
structure Msg (β : Type) where
  type : MsgType
  frame : List β
  deriving DecidableEq

structure Meta (β : Type) where
  msg : Msg β
  offset : Nat

inductive Status where
  | connecting
  | handshake
  | ready
  deriving DecidableEq

/-- `sent` has the messages that were dequeued while this was the socket of the connection. -/
structure Sock (β : Type) where
  status : Status
  sent : List (Msg β)
  bytes : List β

/-- With the sockets before, each with the head of the queue when it was terminated. -/
structure Conn (β : Type) where
  sendQ : List (Meta β)
  sock : Option (Sock β)
  old : List (Sock β × Option (Meta β))

def initial : Conn β := ⟨[], none, []⟩

/-- `rasConnSendMsg` with a socket that takes `n` bytes: what is dequeued, the bytes and the queue. -/
def rasConnSendMsg (status : Status) : Nat → List (Meta β) → List (Msg β) × List β × List (Meta β)
  | _, [] => ([], [], [])
  | n, m :: q =>
    let left := m.msg.frame.drop m.offset
    if status = .handshake ∧ m.msg.type ≠ .connInit then ([], [], m :: q)
    else if n < left.length then ([], left.take n, ⟨m.msg, m.offset + n⟩ :: q)
    else
      let rest := rasConnSendMsg status (n - left.length) q
      (m.msg :: rest.1, left ++ rest.2.1, rest.2.2)

/-- For the socket of the connection; `retry` says that it was used lately and may be retried, or that the connection is
part of a link. -/
def rasSocketTerminate (c : Conn β) (retry : Bool) : Conn β :=
  match c.sock with
  | none => c
  | some sock =>
    { sendQ := if retry then (c.sendQ.filter (·.msg.type = .other)).map (⟨·.msg, 0⟩) else c.sendQ
      sock := none
      old := (sock, c.sendQ.head?) :: c.old }

/-- `connect` is `rasConnOpen`, `prepare` its handshake, `accept` the handling of the other side's one. -/
inductive Action (β : Type) where
  | enqueue (msg : Msg β)
  | connect
  | prepare (frame : List β)
  | ack
  | accept (frame : List β) (retry : Bool)
  | send (n : Nat)
  | terminate (retry : Bool)

def step (c : Conn β) : Action β → Option (Conn β)
  | .enqueue msg => some { c with sendQ := c.sendQ ++ [⟨msg, 0⟩] }
  | .connect => if c.sock.isNone then some { c with sock := some ⟨.connecting, [], []⟩ } else none
  | .prepare frame => c.sock.bind fun sock =>
    if sock.status = .connecting then
      some { c with sendQ := ⟨⟨.connInit, frame⟩, 0⟩ :: c.sendQ, sock := some { sock with status := .handshake } }
    else none
  | .ack => c.sock.bind fun sock =>
    if sock.status = .handshake then some { c with sock := some { sock with status := .ready } } else none
  | .accept frame retry =>
    let c := rasSocketTerminate c retry
    some { c with sendQ := ⟨⟨.connInitAck, frame⟩, 0⟩ :: c.sendQ, sock := some ⟨.ready, [], []⟩ }
  | .send n => c.sock.bind fun sock =>
    if sock.status = .connecting then none
    else
      let (sent, bytes, sendQ) := rasConnSendMsg sock.status n c.sendQ
      some { c with sendQ, sock := some { sock with sent := sock.sent ++ sent, bytes := sock.bytes ++ bytes } }
  | .terminate retry => some (rasSocketTerminate c retry)

def part : Option (Meta β) → List β
  | none => []
  | some m => m.msg.frame.take m.offset

/-- The frames of the messages sent over the socket, and what was sent of the head of the queue. -/
def Sock.Framed (sock : Sock β) (head : Option (Meta β)) : Prop :=
  sock.bytes = (sock.sent.map Msg.frame).flatten ++ part head

instance [DecidableEq β] (sock : Sock β) (head : Option (Meta β)) : Decidable (sock.Framed head) :=
  inferInstanceAs (Decidable (_ = _))

def Unsent (q : List (Meta β)) : Prop := ∀ m ∈ q, m.offset = 0

/-- No socket is terminated in the middle of a message, unless the offset is reset. -/
def Safe (c : Conn β) : Action β → Prop
  | .accept _ retry | .terminate retry => retry = false → Unsent c.sendQ
  | _ => True

structure Inv (c : Conn β) : Prop where
  tail : Unsent c.sendQ.tail
  fresh : (∀ sock ∈ c.sock, sock.status = .connecting) → Unsent c.sendQ
  current : ∀ sock ∈ c.sock, sock.Framed c.sendQ.head?
  old : ∀ s ∈ c.old, s.1.Framed s.2

@[simp] theorem part_start (msg : Msg β) : part (some ⟨msg, 0⟩) = [] := rfl

theorem Unsent.part_head {q : List (Meta β)} (h : Unsent q) : part q.head? = [] := by
  cases q with
  | nil => rfl
  | cons m q => simp [part, h m mem_cons_self]

theorem Unsent.tail {q : List (Meta β)} (h : Unsent q) : Unsent q.tail := fun m mem => h m (mem_of_mem_tail mem)

theorem rasConnSendMsg_spec (status : Status) (n : Nat) (q : List (Meta β)) (tail : Unsent q.tail) :
    let r := rasConnSendMsg status n q
    part q.head? ++ r.2.1 = (r.1.map Msg.frame).flatten ++ part r.2.2.head? ∧ Unsent r.2.2.tail ∧
      q.map Meta.msg = r.1 ++ r.2.2.map Meta.msg := by
  fun_induction rasConnSendMsg status n q with
  | case1 => simp [Unsent]
  | case2 => simpa using tail
  | case3 n m q left _ less => exact ⟨by simp [part, left, take_add], tail, rfl⟩
  | case4 n m q left _ less rest ih =>
    have unsent : Unsent q := tail
    obtain ⟨bytes, later, order⟩ := ih unsent.tail
    rw [unsent.part_head, nil_append] at bytes
    refine ⟨?_, later, by simp [rest, order]⟩
    change take m.offset m.msg.frame ++ (left ++ rest.2.1) = _
    rw [← append_assoc, take_append_drop]
    simp [rest, bytes]

theorem terminate_inv {c : Conn β} {retry : Bool} (h : Inv c) (safe : retry = false → Unsent c.sendQ) :
    Unsent (rasSocketTerminate c retry).sendQ ∧ (rasSocketTerminate c retry).sock = none ∧
      ∀ s ∈ (rasSocketTerminate c retry).old, s.1.Framed s.2 := by
  unfold rasSocketTerminate
  split
  next none => exact ⟨h.fresh (by simp [none]), none, h.old⟩
  next sock some' =>
    refine ⟨?_, rfl, ?_⟩
    · cases retry with
      | false => exact safe rfl
      | true =>
        intro _ mem
        obtain ⟨m, -, rfl⟩ := mem_map.mp mem
        rfl
    · simpa using ⟨h.current sock some', by simpa using h.old⟩

theorem step_inv (c : Conn β) (a : Action β) (c' : Conn β) (h : Inv c) (safe : Safe c a) (next : step c a = some c') :
    Inv c' := by
  cases a with
  | enqueue msg =>
    cases next
    have head : part (c.sendQ ++ [(⟨msg, 0⟩ : Meta β)]).head? = part c.sendQ.head? := by
      cases c.sendQ <;> simp [part]
    refine ⟨?_, fun unsent => ?_, fun sock mem => ?_, h.old⟩
    · have tail := h.tail
      cases q : c.sendQ with
      | nil => simp [Unsent]
      | cons m q => simpa [Unsent, q, or_imp, forall_and] using tail
    · simpa [Unsent, or_imp, forall_and] using h.fresh unsent
    · rw [Sock.Framed, head]
      exact h.current sock mem
  | connect =>
    obtain ⟨none, ⟨⟩⟩ := Option.ite_none_right_eq_some.mp next
    have unsent := h.fresh (by simp_all)
    exact ⟨h.tail, fun _ => unsent, by simp [Sock.Framed, unsent.part_head], h.old⟩
  | prepare frame =>
    obtain ⟨sock, some', next⟩ := Option.bind_eq_some_iff.mp next
    obtain ⟨connecting, ⟨⟩⟩ := Option.ite_none_right_eq_some.mp next
    have unsent := h.fresh (by simp [some', connecting])
    have framed := h.current sock some'
    refine ⟨unsent, by simp, ?_, h.old⟩
    rw [Sock.Framed, unsent.part_head] at framed
    simpa [Sock.Framed] using framed
  | ack =>
    obtain ⟨sock, some', next⟩ := Option.bind_eq_some_iff.mp next
    obtain ⟨-, ⟨⟩⟩ := Option.ite_none_right_eq_some.mp next
    exact ⟨h.tail, by simp, by simpa [Sock.Framed] using h.current sock some', h.old⟩
  | accept frame retry =>
    cases next
    obtain ⟨unsent, -, old⟩ := terminate_inv h safe
    exact ⟨unsent, by simp, by simp [Sock.Framed], old⟩
  | send n =>
    obtain ⟨sock, some', next⟩ := Option.bind_eq_some_iff.mp next
    obtain ⟨connected, ⟨⟩⟩ := Option.ite_none_left_eq_some.mp next
    obtain ⟨bytes, later, -⟩ := rasConnSendMsg_spec sock.status n c.sendQ h.tail
    refine ⟨later, fun connecting => absurd (connecting _ rfl) connected, ?_, h.old⟩
    have framed := h.current sock some'
    rintro _ ⟨⟩
    rw [Sock.Framed] at framed ⊢
    simp [framed, bytes]
  | terminate retry =>
    cases next
    obtain ⟨unsent, none, old⟩ := terminate_inv h safe
    exact ⟨unsent.tail, fun _ => unsent, by simp [none], old⟩

/-- Frames are complete but for the last, over each socket in the order of the queue. A message leaves the queue when it
was sent over one socket, or as one of a handshake or keep-alive when the socket is terminated. -/
theorem frames_complete (actions : List (Action β)) (c : Conn β) (safe : Meets step Safe initial actions)
    (ran : run step initial actions = some c) :
    (∀ s ∈ c.old, s.1.Framed s.2) ∧ (∀ sock ∈ c.sock, sock.Framed c.sendQ.head?) ∧
    (∀ n c', step c (.send n) = some c' → ∃ sock sent sock', c.sock = some sock ∧ c'.sock = some sock' ∧
      sock'.sent = sock.sent ++ sent ∧ c.sendQ.map Meta.msg = sent ++ c'.sendQ.map Meta.msg) ∧
    ∀ a c', step c a = some c' → (∀ n, a ≠ .send n) → ∀ m ∈ c.sendQ, m.msg.type = .other →
      m.msg ∈ c'.sendQ.map Meta.msg := by
  have start : Inv (initial : Conn β) := by constructor <;> simp [initial, Unsent]
  have h := run_invariant Inv step_inv actions start safe ran
  refine ⟨h.old, h.current, fun n c' next => ?_, fun a c' next other m mem kind => ?_⟩
  · obtain ⟨sock, some', next⟩ := Option.bind_eq_some_iff.mp next
    obtain ⟨-, ⟨⟩⟩ := Option.ite_none_left_eq_some.mp next
    exact ⟨sock, _, _, some', rfl, rfl, (rasConnSendMsg_spec sock.status n c.sendQ h.tail).2.2⟩
  · have kept (retry : Bool) : m.msg ∈ (rasSocketTerminate c retry).sendQ.map Meta.msg := by
      unfold rasSocketTerminate
      split
      · exact mem_map_of_mem mem
      · cases retry <;> simp <;> exact ⟨m, by simp [mem, kind]⟩
    cases a <;> simp only [step, Option.bind_eq_some_iff] at next <;> grind

def resent (retry : Bool) : List (Action Nat) :=
  [.accept [0] true, .enqueue ⟨.other, [1, 2]⟩, .send 2, .terminate retry, .accept [0] true, .send 3]

theorem frames_resent : ∃ c, run step initial (resent true) = some c ∧ ∀ s ∈ c.old, s.1.Framed s.2 :=
  ⟨_, rfl, (frames_complete (resent true) _ (by simp [resent, Meets, Safe]) rfl).1⟩

/-- Without the reset the rest of the message goes over the next socket. -/
theorem frame_split : ∃ c, run step initial (resent false) = some c ∧ ∃ sock ∈ c.sock.toList, ¬ sock.Framed c.sendQ.head? :=
  run_reaches step initial (resent false) _ (by decide +kernel)

end Vccl.Ras.Frames
