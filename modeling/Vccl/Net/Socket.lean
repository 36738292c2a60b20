import Vccl.Lib.Transition
import Vccl.Lib.Chunks
import Vccl.Bitops

/-! The sub-tasks of the socket transport: the main thread puts them into the task queues, the helper threads go over their
queues row by row and transfer what they find. -/
namespace Vccl.Net.Socket

open Transition List
open Function (update update_self update_of_ne forall_update_iff)

def maxRequests : Nat := 32

def minChunksize : Nat := 64 * 1024

structure Config where
  nSocksPerThread : Nat
  nThreads : Nat

def Config.nSocks (cfg : Config) : Nat := cfg.nSocksPerThread * cfg.nThreads

/-- `seen` says that the thread has found the task on its way, or will before it leaves the row. -/
structure Task where
  sock : Nat
  slot : Nat
  data : Nat
  size : Nat
  offset : Nat
  used : Bool
  seen : Bool

def Task.pending (t : Task) : Bool := decide (t.offset < t.size)

/-- All tasks in the order of their creation; `todo` are the pieces that the present `ncclNetSocketTest` has still to make
tasks of, and `row` says where the loop of a helper thread is. -/
structure Comm where
  sizes : List Nat
  todo : List (Nat × Nat)
  nextSock : Nat
  next : Nat → Nat
  tasks : List Task
  row : Nat → Nat

def initial : Comm := ⟨[], [], 0, fun _ => 0, [], fun _ => 0⟩

inductive Action where
  | test (size : Nat)
  | getTask
  | progress (tid slot n : Nat)
  | advance (tid : Nat)
  | free (tid slot : Nat)

section Machine

variable (cfg : Config)

/-- The loop of `ncclNetSocketTest` that divides a request into sub-tasks. -/
def pieces (size : Nat) : List (Nat × Nat) :=
  if 0 < cfg.nSocks then Chunks.pieces (max minChunksize (divUp size cfg.nSocks)) size else []

def Task.isAt (tid slot : Nat) (t : Task) : Bool := t.used && decide (t.sock % cfg.nThreads = tid ∧ t.slot = slot)

def Task.rowOf (t : Task) : Nat := t.slot / cfg.nSocksPerThread

/-- `ncclNetSocketGetTask`. -/
def getTask (s : Comm) (piece : Nat × Nat) : Option Comm :=
  let tid := s.nextSock % cfg.nThreads
  if s.tasks.any (Task.isAt cfg tid (s.next tid)) then none
  else some { s with
    tasks := s.tasks ++ [⟨s.nextSock, s.next tid, piece.1, piece.2, 0, true, false⟩]
    nextSock := (s.nextSock + 1) % cfg.nSocks
    next := update s.next tid ((s.next tid + 1) % (maxRequests * cfg.nSocksPerThread)) }

def step (s : Comm) : Action → Option Comm
  | .test size =>
    if s.todo = [] then some { s with sizes := s.sizes ++ [size], todo := pieces cfg size } else none
  | .getTask => s.todo.head?.bind fun piece => getTask cfg { s with todo := s.todo.tail } piece
  | .progress tid slot n =>
    if slot / cfg.nSocksPerThread = s.row tid then
      let progressed t : Task := if t.isAt cfg tid slot then { t with offset := min t.size (t.offset + n), seen := true } else t
      some { s with tasks := s.tasks.map progressed }
    else none
  | .advance tid =>
    if ∀ t ∈ s.tasks, t.sock % cfg.nThreads = tid → t.rowOf cfg = s.row tid → t.seen = true → t.pending = false then
      let row := (s.row tid + 1) % maxRequests
      some { s with
        row := update s.row tid row
        tasks := s.tasks.map fun t =>
          if t.sock % cfg.nThreads = tid ∧ t.rowOf cfg = row then { t with seen := true } else t }
    else none
  | .free tid slot =>
    if ∀ t ∈ s.tasks, t.isAt cfg tid slot = true → t.pending = false then
      some { s with tasks := s.tasks.map fun t => if t.isAt cfg tid slot then { t with used := false } else t }
    else none

/-- How many rows the thread has to go before it comes to this one. -/
def distance (s : Comm) (tid row : Nat) : Nat := (row + maxRequests - s.row tid) % maxRequests

def ahead (s : Comm) (t : Task) : Nat := distance s (t.sock % cfg.nThreads) (t.rowOf cfg)

/-- On its way the thread comes to `a` before it comes to `b`. -/
def Before (s : Comm) (a b : Task) : Prop :=
  a.sock = b.sock → a.pending = true → b.pending = true → ahead cfg s a < ahead cfg s b ∧ (ahead cfg s a = 0 → a.seen = true)

/-- A task is created in a row that the thread comes to after those of the unfinished tasks on the socket. -/
def Safe (s : Comm) : Action → Prop
  | .getTask =>
    let tid := s.nextSock % cfg.nThreads
    ∀ a ∈ s.tasks, a.sock = s.nextSock → a.pending = true →
      ahead cfg s a < distance s tid (s.next tid / cfg.nSocksPerThread) ∧ (ahead cfg s a = 0 → a.seen = true)
  | _ => True

instance (s : Comm) (a : Action) : Decidable (Safe cfg s a) := by
  cases a <;> unfold Safe <;> infer_instance

/-- What the thread transfers next: the unfinished tasks of the row it is at. -/
def Active (s : Comm) (t : Task) : Prop := t.rowOf cfg = s.row (t.sock % cfg.nThreads) ∧ t.pending = true

instance (s : Comm) (t : Task) : Decidable (Active cfg s t) := inferInstanceAs (Decidable (_ ∧ _))

structure Inv (s : Comm) : Prop where
  order : s.tasks.Pairwise (Before cfg s)
  rows : ∀ tid, s.row tid < maxRequests
  next : ∀ tid, s.next tid / cfg.nSocksPerThread < maxRequests
  slots : ∀ t ∈ s.tasks, t.rowOf cfg < maxRequests

/-- Task `k` is piece `k` of the messages and goes to socket `k`, counted around. -/
structure Cut (s : Comm) : Prop where
  all : s.tasks.map (fun t => (t.data, t.size)) ++ s.todo = s.sizes.flatMap (pieces cfg)
  socks : s.tasks.map Task.sock = (range s.tasks.length).map (· % cfg.nSocks)
  nextSock : s.nextSock = s.tasks.length % cfg.nSocks

end Machine

variable {cfg : Config} {s t : Comm}

/-- Tasks only come nearer to their end, and the thread does not move. -/
theorem Inv.map (h : Inv cfg s) (f : Task → Task) (place : ∀ a, (f a).sock = a.sock ∧ (f a).slot = a.slot)
    (later : ∀ a, (f a).pending = true → a.pending = true) (seen : ∀ a, a.seen = true → (f a).seen = true) :
    Inv cfg { s with tasks := s.tasks.map f } := by
  have rowOf a : (f a).rowOf cfg = a.rowOf cfg := by simp [Task.rowOf, place]
  have same a : ahead cfg { s with tasks := s.tasks.map f } (f a) = ahead cfg s a := by simp [ahead, distance, rowOf, place]
  refine { h with order := pairwise_map.mpr (h.order.imp ?_), slots := ?_ }
  · intro a b before sock ha hb
    rw [(place a).1, (place b).1] at sock
    have := before sock (later a ha) (later b hb)
    rw [same, same]
    exact ⟨this.1, fun zero => seen a (this.2 zero)⟩
  · intro t mem
    obtain ⟨a, ha, rfl⟩ := mem_map.mp mem
    exact (rowOf a).trans_lt (h.slots a ha)

theorem Inv.move (h : Inv cfg s) (tid : Nat)
    (passed : ∀ t ∈ s.tasks, t.sock % cfg.nThreads = tid → t.rowOf cfg = s.row tid → t.seen = true → t.pending = false)
    (found : ∀ t ∈ s.tasks, t.sock % cfg.nThreads = tid → t.rowOf cfg = (s.row tid + 1) % maxRequests → t.seen = true) :
    Inv cfg { s with row := update s.row tid ((s.row tid + 1) % maxRequests) } := by
  refine { h with order := h.order.imp_of_mem ?_, rows := ?_ }
  · intro a b ha hb before sock pa pb
    obtain ⟨less, seen⟩ := before sock pa pb
    simp only [ahead, distance, ← sock] at less seen ⊢
    by_cases own : a.sock % cfg.nThreads = tid
    · have low := h.rows tid
      have la := h.slots a ha
      have lb := h.slots b hb
      have left : a.rowOf cfg ≠ s.row tid := by
        intro here
        have := passed a ha own here (seen (by simp [own, here]))
        simp [this] at pa
      rw [own] at less ⊢
      rw [update_self]
      simp only [maxRequests] at *
      exact ⟨by omega, fun zero => found a ha own (by omega)⟩
    · rw [update_of_ne own]
      exact ⟨less, seen⟩
  · exact (forall_update_iff s.row fun _ row => row < maxRequests).mpr ⟨Nat.mod_lt _ (by decide), fun i _ => h.rows i⟩

theorem Inv.getTask (h : Inv cfg s) (safe : Safe cfg s .getTask) (piece : Nat × Nat)
    (next : getTask cfg s piece = some t) : Inv cfg t := by
  obtain ⟨-, ⟨⟩⟩ := Option.ite_none_left_eq_some.mp next
  refine { h with order := ?_, next := ?_, slots := ?_ }
  · refine pairwise_append.mpr ⟨h.order, pairwise_singleton _ _, ?_⟩
    intro a ha b hb
    rw [mem_singleton] at hb
    subst hb
    exact fun sock pa _ => safe a ha sock pa
  · refine (forall_update_iff s.next fun _ slot => slot / cfg.nSocksPerThread < maxRequests).mpr
      ⟨?_, fun i _ => h.next i⟩
    rcases Nat.eq_zero_or_pos cfg.nSocksPerThread with zero | pos
    · simp [zero, maxRequests]
    · apply Nat.div_lt_of_lt_mul
      rw [Nat.mul_comm]
      exact Nat.mod_lt _ (Nat.mul_pos pos (by decide))
  · intro b hb
    rcases mem_append.mp hb with hb | hb
    · exact h.slots b hb
    · rw [mem_singleton] at hb
      subst hb
      exact h.next _

theorem step_inv {a : Action} (h : Inv cfg s) (safe : Safe cfg s a) (next : step cfg s a = some t) : Inv cfg t := by
  cases a with
  | test size =>
    obtain ⟨-, ⟨⟩⟩ := Option.ite_none_right_eq_some.mp next
    exact { h with }
  | getTask =>
    obtain ⟨piece, -, hg⟩ := Option.bind_eq_some_iff.mp next
    exact Inv.getTask (s := { s with todo := s.todo.tail }) { h with } safe piece hg
  | progress tid slot n =>
    obtain ⟨-, ⟨⟩⟩ := Option.ite_none_right_eq_some.mp next
    apply h.map
    · intro a
      split <;> simp
    · intro a
      split
      · simp only [Task.pending, decide_eq_true_eq]
        omega
      · exact id
    · intro a ha
      split <;> simp [ha]
  | advance tid =>
    obtain ⟨passed, ⟨⟩⟩ := Option.ite_none_right_eq_some.mp next
    refine Inv.move (s := { s with tasks := s.tasks.map _ }) (h.map _ ?_ ?_ ?_) tid ?_ ?_
    · intro a
      split <;> simp
    · intro a
      split <;> simp [Task.pending]
    · intro a ha
      split <;> simp [ha]
    all_goals
      intro b hb
      obtain ⟨a, ha, rfl⟩ := mem_map.mp hb
      split
    next entered =>
      intro _ row
      have := h.rows tid
      simp only [Task.rowOf, maxRequests] at entered row this
      omega
    · exact passed a ha
    · simp
    next outside => exact fun own row => absurd ⟨own, row⟩ outside
  | free tid slot =>
    obtain ⟨-, ⟨⟩⟩ := Option.ite_none_right_eq_some.mp next
    apply h.map
    · intro a
      split <;> simp
    · intro a
      split <;> simp [Task.pending]
    · intro a ha
      split <;> simp [ha]

theorem Cut.map (h : Cut cfg s) (f : Task → Task)
    (same : ∀ a, (f a).sock = a.sock ∧ (f a).data = a.data ∧ (f a).size = a.size) :
    Cut cfg { s with tasks := s.tasks.map f } := by
  refine ⟨?_, ?_, ?_⟩
  · simpa [Function.comp_def, same] using h.all
  · simpa [Function.comp_def, same] using h.socks
  · simpa using h.nextSock

theorem step_cut {a : Action} (h : Cut cfg s) (next : step cfg s a = some t) : Cut cfg t := by
  cases a with
  | test size =>
    obtain ⟨empty, ⟨⟩⟩ := Option.ite_none_right_eq_some.mp next
    have := h.all
    rw [empty, append_nil] at this
    exact { h with all := by simp [this] }
  | getTask =>
    obtain ⟨piece, hp, hg⟩ := Option.bind_eq_some_iff.mp next
    obtain ⟨-, ⟨⟩⟩ := Option.ite_none_left_eq_some.mp hg
    obtain ⟨all, socks, nextSock⟩ := h
    refine ⟨?_, ?_, ?_⟩
    · rw [← all, map_append, append_assoc]
      simp [cons_head?_tail hp]
    · simp [socks, range_succ, nextSock]
    · simp [nextSock]
  | progress tid slot n =>
    obtain ⟨-, ⟨⟩⟩ := Option.ite_none_right_eq_some.mp next
    exact h.map _ fun a => by split <;> simp
  | advance tid =>
    obtain ⟨-, ⟨⟩⟩ := Option.ite_none_right_eq_some.mp next
    exact { h.map _ fun a => by split <;> simp with }
  | free tid slot =>
    obtain ⟨-, ⟨⟩⟩ := Option.ite_none_right_eq_some.mp next
    exact h.map _ fun a => by split <;> simp

theorem Cut.sock (h : Cut cfg s) {k : Nat} {a : Task} (ha : s.tasks[k]? = some a) : a.sock = k % cfg.nSocks := by
  have := congrArg (·[k]?) h.socks
  simp only [getElem?_map, ha, Option.map_some] at this
  grind

/-- Task `k` of the two ends of a connection, once the same sizes have gone over the control socket. -/
theorem Cut.agree (left : Cut cfg s) (right : Cut cfg t) (sizes : t.sizes = s.sizes) {k : Nat} {a b : Task}
    (ha : s.tasks[k]? = some a) (hb : t.tasks[k]? = some b) : a.sock = b.sock ∧ a.data = b.data ∧ a.size = b.size := by
  have piece {u : Comm} {c : Task} (h : Cut cfg u) (hc : u.tasks[k]? = some c) :
      (u.sizes.flatMap (pieces cfg))[k]? = some (c.data, c.size) := by
    rw [← h.all, getElem?_append_left (by grind), getElem?_map, hc, Option.map_some]
  have same := (piece left ha).symm.trans (sizes ▸ piece right hb)
  simp only [Option.some.injEq, Prod.mk.injEq] at same
  exact ⟨(left.sock ha).trans (right.sock hb).symm, same⟩

theorem Inv.waits (h : Inv cfg s) :
    s.tasks.Pairwise fun a b => a.sock = b.sock → Active cfg s b → a.pending = false := by
  refine h.order.imp ?_
  intro a b before sock ⟨here, pb⟩
  by_contra pa
  have := before sock (Bool.eq_true_of_not_eq_false pa) pb
  simp [ahead, distance, here] at this

end Vccl.Net.Socket
