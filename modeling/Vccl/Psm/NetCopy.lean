import Vccl.Lib.Wrap
import Vccl.Psm.NetPair

/-! When a pair over `psm_net` is copied exactly: the pieces of the two ends, the invariant of their
buffers, and that fair runs end. -/
namespace Vccl.Psm.NetPair

open List Function Option
open P2p (Comm Transfer Direction planDirection protocolOf proxyNsteps partNsteps ncclMaxNetSize)

/-- What an end needs besides its peer: the Simple protocol, a step count that fits its `int`, and
staging buffers whose `int` offsets do not overflow. -/
structure Regular (cfg : Config) (e : End) : Prop where
  simple : e.direction.protocol = .simple
  fewSteps : divUp (cfg.nbytes e) (cfg.stepSize e) < 2 ^ 31
  fits : e.reg = false →
    (if e.shared then (e.channelId + 1) * psmNetSharedSteps else psmNetSteps) * cfg.chunk ≤ 2 ^ 31

/-- When a pair is copied: there is something to copy, and the two ends cut it alike, because both
buffers are registered or both are not, or because the sizes do not tell the difference. -/
structure Suited (cfg : Config) : Prop where
  send : Regular cfg cfg.send
  recv : Regular cfg cfg.recv
  nonempty : 0 < cfg.nbytes cfg.send
  alike : cfg.send.reg = cfg.recv.reg ∨ cfg.chunk = ncclMaxNetSize ∨
    cfg.nbytes cfg.send ≤ min cfg.chunk ncclMaxNetSize

section Pieces

variable {cfg : Config}

theorem stepSize_pos (cfg : Config) (e : End) : 0 < cfg.stepSize e := by
  have := cfg.someChunk
  unfold Config.stepSize
  split
  · decide
  · exact this

theorem storedSteps_of_lt {n : Nat} (small : n < 2 ^ 31) : storedSteps n = n := by
  rw [storedSteps, toInt32_of_lt small, toSizeT_of_lt (by omega)]

theorem proxyNsteps_of {d : Direction} {part n : Nat} (planned : partNsteps d part = some n) :
    proxyNsteps d part = some (toInt32 n) := by
  rw [proxyNsteps, planned]
  rfl

variable {e : End}

theorem nsteps_eq (regular : Regular cfg e) (inside : cfg.part < e.direction.nParts) (nonempty : 0 < cfg.nbytes e) :
    cfg.nsteps e = divUp (cfg.nbytes e) (cfg.stepSize e) := by
  have few := regular.fewSteps
  unfold Config.nsteps Config.stepSize at *
  cases hr : e.reg with
  | false =>
    simp only [hr, Bool.false_eq_true, if_false] at few ⊢
    exact storedSteps_of_lt few
  | true =>
    simp only [hr, if_true] at few ⊢
    have some_bytes : e.direction.bytes ≠ 0 := by
      intro none
      simp [Config.nbytes, Direction.partSize, P2p.partEnd, none] at nonempty
    have width : e.direction.hostChunk = ncclMaxNetSize := if_pos hr
    have planned : partNsteps e.direction cfg.part = some (divUp (cfg.nbytes e) ncclMaxNetSize) := by
      rw [partNsteps, if_neg (not_le.mpr inside), if_neg some_bytes, width]
      rfl
    rw [proxyNsteps_of planned, getD_some]
    exact storedSteps_of_lt few

theorem same_nbytes (suited : Suited cfg) : cfg.nbytes cfg.send = cfg.nbytes cfg.recv := by
  have simple {t : Transfer} {d : Direction} (hp : planDirection cfg.comm t = some d)
      (protocol : d.protocol = .simple) : protocolOf cfg.comm t = .simple := by
    obtain ⟨_, -, rfl⟩ := map_eq_some_iff.mp hp
    exact protocol
  obtain ⟨hc, hb, -⟩ := P2p.planDirection_some cfg.plannedSend
  obtain ⟨hch, hby, -⟩ := P2p.planDirection_some cfg.plannedRecv
  rw [simple cfg.plannedSend suited.send.simple, cfg.sameBytes] at hc
  rw [simple cfg.plannedRecv suited.recv.simple, hc, some.injEq] at hch
  simp [Config.nbytes, Direction.partSize, Direction.nParts, hch, hb, hby, cfg.sameBytes]

structure SamePieces (cfg : Config) : Prop where
  steps : cfg.nsteps cfg.send = cfg.nsteps cfg.recv
  offset : ∀ k < cfg.nsteps cfg.send, k * cfg.stepSize cfg.send = k * cfg.stepSize cfg.recv
  size : ∀ k < cfg.nsteps cfg.send, cfg.size cfg.send k = cfg.size cfg.recv k

theorem same_pieces (suited : Suited cfg) : SamePieces cfg := by
  have bytes := same_nbytes suited
  have sendSteps := nsteps_eq suited.send cfg.sendPart suited.nonempty
  have recvSteps := nsteps_eq suited.recv cfg.recvPart (bytes ▸ suited.nonempty)
  have equal (hw : cfg.stepSize cfg.send = cfg.stepSize cfg.recv) : SamePieces cfg := by
    refine ⟨?_, ?_, ?_⟩
    · rw [sendSteps, recvSteps, bytes, hw]
    · intro k _
      rw [hw]
    · intro k _
      rw [Config.size, Config.size, bytes, hw]
  rcases suited.alike with same | hwh | _
  · exact equal (by simp [Config.stepSize, same])
  · exact equal (by simp [Config.stepSize, hwh])
  have one (e : End) (total : cfg.nbytes e = cfg.nbytes cfg.send)
      (counted : cfg.nsteps e = divUp (cfg.nbytes e) (cfg.stepSize e)) :
      cfg.nsteps e = 1 ∧ cfg.size e 0 = cfg.nbytes cfg.send := by
    have pos := stepSize_pos cfg e
    have fits : cfg.nbytes cfg.send ≤ cfg.stepSize e := by
      unfold Config.stepSize
      split <;> omega
    have nonempty := suited.nonempty
    have first := Chunks.lt_ceilDiv (cfg.stepSize e) (cfg.nbytes e) 0 pos
    have second := Chunks.lt_ceilDiv (cfg.stepSize e) (cfg.nbytes e) 1 pos
    rw [counted, divUp_eq_ceilDiv, Config.size]
    omega
  obtain ⟨hs, sendSize⟩ := one cfg.send rfl sendSteps
  obtain ⟨hr, recvSize⟩ := one cfg.recv bytes.symm recvSteps
  refine ⟨by rw [hs, hr], ?_, ?_⟩
  · intro k hb
    obtain rfl : k = 0 := by omega
    simp
  · intro k hb
    obtain rfl : k = 0 := by omega
    rw [sendSize, recvSize]

theorem SamePieces.pieces (same : SamePieces cfg) : cfg.pieces cfg.send = cfg.pieces cfg.recv := by
  unfold Config.pieces
  rw [← same.steps]
  apply map_congr_left
  intro k mem
  rw [same.offset k (mem_range.mp mem), same.size k (mem_range.mp mem)]

theorem lt_nsteps_iff (counted : cfg.nsteps e = divUp (cfg.nbytes e) (cfg.stepSize e)) (k : Nat) :
    k < cfg.nsteps e ↔ k * cfg.stepSize e < cfg.nbytes e := by
  rw [counted]
  exact Chunks.lt_ceilDiv _ _ _ (stepSize_pos cfg e)

theorem covered (counted : cfg.nsteps e = divUp (cfg.nbytes e) (cfg.stepSize e)) {o : Nat} (inside : o < cfg.nbytes e) :
    ∃ k < cfg.nsteps e, ∃ i < cfg.size e k, o = k * cfg.stepSize e + i := by
  have pos := stepSize_pos cfg e
  have split := Nat.div_add_mod o (cfg.stepSize e)
  have rest := Nat.mod_lt o pos
  rw [Nat.mul_comm] at split
  refine ⟨o / cfg.stepSize e, ?_, o % cfg.stepSize e, ?_, split.symm⟩
  · rw [lt_nsteps_iff counted]
    omega
  · unfold Config.size
    omega

theorem piece_inside {k : Nat} (below : k * cfg.stepSize e < cfg.nbytes e) :
    k * cfg.stepSize e + cfg.size e k ≤ cfg.nbytes e := by
  unfold Config.size
  omega

theorem pieces_apart {j k i : Nat} (differ : j ≠ k) (inside : i < cfg.size e j) :
    ¬ (k * cfg.stepSize e ≤ j * cfg.stepSize e + i ∧ j * cfg.stepSize e + i < k * cfg.stepSize e + cfg.size e k) := by
  have width : ∀ step, cfg.size e step ≤ cfg.stepSize e := fun step => Nat.min_le_left _ _
  have left := width j
  have right := width k
  rcases Nat.lt_or_gt_of_ne differ with hb | ha
  · have : (j + 1) * cfg.stepSize e ≤ k * cfg.stepSize e := Nat.mul_le_mul_right _ hb
    rw [Nat.succ_mul] at this
    omega
  · have : (k + 1) * cfg.stepSize e ≤ j * cfg.stepSize e := Nat.mul_le_mul_right _ ha
    rw [Nat.succ_mul] at this
    omega

end Pieces

section Slots

variable {e : End}

theorem depth_pos (e : End) : 0 < e.depth := by
  have room : 0 < psmNetSharedSteps / e.nsubs := Nat.div_pos e.fewSubs (Nat.zero_lt_of_lt e.inArgs)
  have steps : 0 < psmNetSteps := by decide
  unfold End.depth maxDepth
  omega

theorem depth_le (e : End) : e.depth ≤ psmNetSteps := Nat.min_le_left _ _

theorem fifoSlot_ne {j k : Nat} (differ : j ≠ k) (left : j < k + psmNetSteps) (right : k < j + psmNetSteps) :
    e.fifoSlot j ≠ e.fifoSlot k := by
  intro same
  have := Wrap.slot_inj same (by omega) (by omega)
  omega

theorem stage_ne {j k : Nat} (differ : j ≠ k) (left : j < k + e.depth) (right : k < j + e.depth) :
    e.stage j ≠ e.stage k := by
  unfold End.stage
  split
  · exact fun same => differ (Wrap.slot_inj same left right)
  · have := depth_le e
    exact fifoSlot_ne differ (by omega) (by omega)

theorem staged_of_regular {cfg : Config} (regular : Regular cfg e) (step : Nat) : cfg.staged e step = true := by
  unfold Config.staged
  cases hr : e.reg with
  | true => rfl
  | false =>
    have fits := regular.fits hr
    have chunk := cfg.someChunk
    simp only [Bool.false_or, decide_eq_true_eq]
    unfold Config.stageOffset
    split
    next shared =>
      rw [if_pos shared, Nat.succ_mul] at fits
      have pool : e.depth * e.nsubs ≤ psmNetSharedSteps :=
        le_trans (Nat.mul_le_mul_right _ (Nat.min_le_right _ _)) (Nat.div_mul_le_self _ _)
      have slot : step % e.depth * e.nsubs + e.index < psmNetSharedSteps := by
        have below : (step % e.depth + 1) * e.nsubs ≤ e.depth * e.nsubs :=
          Nat.mul_le_mul_right _ (Nat.mod_lt step (depth_pos e))
        have index := e.inArgs
        rw [Nat.succ_mul] at below
        omega
      have small : cfg.chunk * (e.channelId * psmNetSharedSteps + (step % e.depth * e.nsubs + e.index)) < 2 ^ 31 := by
        rw [Nat.mul_comm]
        exact lt_of_lt_of_le ((Nat.mul_lt_mul_right chunk).mpr (by omega)) fits
      rw [toInt32_of_lt small]
      omega
    next dedicated =>
      rw [if_neg dedicated] at fits
      have slot : e.fifoSlot step < psmNetSteps := Nat.mod_lt _ (by decide)
      have small : e.fifoSlot step * cfg.chunk < 2 ^ 31 :=
        lt_of_lt_of_le ((Nat.mul_lt_mul_right chunk).mpr slot) fits
      rw [toInt32_of_lt small]
      omega

/-- The sizes of the steps `[lo, hi)` stand in their slots, the other slots are free. -/
structure Holds (e : End) (fifo : Nat → Option Nat) (size : Nat → Nat) (lo hi : Nat) : Prop where
  inside : ∀ k, lo ≤ k → k < hi → fifo (e.fifoSlot k) = some (size k)
  outside : ∀ i, (∀ k, lo ≤ k → k < hi → e.fifoSlot k ≠ i) → fifo i = none

variable {fifo : Nat → Option Nat} {size : Nat → Nat} {lo hi : Nat}

theorem Holds.free (h : Holds e fifo size lo hi) (room : hi < lo + psmNetSteps) :
    fifo (e.fifoSlot hi) = none := by
  apply h.outside
  intro k low high
  exact fifoSlot_ne (by omega) (by omega) (by omega)

theorem Holds.push (h : Holds e fifo size lo hi) (order : lo ≤ hi) (room : hi < lo + psmNetSteps) :
    Holds e (update fifo (e.fifoSlot hi) (some (size hi))) size lo (hi + 1) := by
  constructor
  · intro k low high
    by_cases last : k = hi
    · rw [last, update_self]
    · rw [update_of_ne (fifoSlot_ne last (by omega) (by omega))]
      exact h.inside k low (by omega)
  · intro i ha
    rw [update_of_ne (ha hi order (by omega)).symm]
    exact h.outside i (fun k low high => ha k low (by omega))

theorem Holds.pop (h : Holds e fifo size lo hi) (room : hi ≤ lo + psmNetSteps) :
    Holds e (update fifo (e.fifoSlot lo) none) size (lo + 1) hi := by
  constructor
  · intro k low high
    rw [update_of_ne (fifoSlot_ne (by omega) (by omega) (by omega))]
    exact h.inside k (by omega) high
  intro i ha
  by_cases first : i = e.fifoSlot lo
  · rw [first, update_self]
  rw [update_of_ne first]
  apply h.outside
  intro k low high
  by_cases same : k = lo
  · rw [same]
    exact fun hit => first hit.symm
  · exact ha k (by omega) high

end Slots

section Invariant

variable {β : Type}

theorem write_inside (target source : Nat → β) (start origin : Nat) {n i : Nat} (inside : i < n) :
    write target source start origin n (start + i) = source (origin + i) := by
  rw [write, if_pos ⟨by omega, by omega⟩, Nat.add_sub_cancel_left]

theorem write_outside (target source : Nat → β) {start origin n o : Nat}
    (outside : ¬ (start ≤ o ∧ o < start + n)) : write target source start origin n o = target o :=
  if_neg outside

/-- A step of the sender: what is posted has its size in the FIFO, what is copied or sent lies in its
staging buffer until the send is over. -/
structure SendInv (cfg : Config) (src : Nat → β) (s : Sender β) (log : List Nat) (delivered : Nat → Bool) : Prop where
  order : s.done ≤ s.transmitted ∧ s.transmitted ≤ s.posted
  posted : s.posted ≤ cfg.nsteps cfg.send ∧ s.posted ≤ s.done + cfg.send.depth
  fifo : Holds cfg.send s.connFifo (cfg.size cfg.send) s.done s.posted
  copied : ∀ k, s.copied k = true → cfg.send.reg = false ∧ k < s.posted
  ready : ∀ k < s.transmitted, cfg.send.reg = true ∨ s.copied k = true
  buff : ∀ k, s.done ≤ k → s.copied k = true → ∀ i < cfg.size cfg.send k,
    s.buff (cfg.send.stage k) i = src (k * cfg.stepSize cfg.send + i)
  sends : log = (range s.transmitted).map (cfg.size cfg.send)
  tested : ∀ k < s.done, delivered k = true
  finished : s.finished = true ↔ s.done = cfg.nsteps cfg.send

structure RecvInv (cfg : Config) (src dst : Nat → β) (s : Receiver β) (log : List Nat) (delivered : Nat → Bool) :
    Prop where
  order : s.done ≤ s.transmitted ∧ s.transmitted ≤ s.received ∧
    s.received ≤ s.posted ∧ s.posted ≤ cfg.rounds
  done : s.done ≤ cfg.nsteps cfg.recv
  window : ∀ k < cfg.nsteps cfg.recv, k < s.posted → k < s.done + cfg.recv.depth
  recvs : log = (range (min s.posted (cfg.nsteps cfg.recv))).map (cfg.size cfg.recv)
  received : ∀ k < cfg.nsteps cfg.recv, k < s.received → delivered k = true
  fifo : Holds cfg.recv s.connFifo (cfg.size cfg.recv) s.done
    (min s.transmitted (cfg.nsteps cfg.recv))
  copied : ∀ k, s.copied k = true →
    cfg.recv.reg = false ∧ k < s.transmitted ∧ k < cfg.nsteps cfg.recv
  ready : ∀ k < s.done, cfg.recv.reg = true ∨ s.copied k = true
  buff : cfg.recv.reg = false → ∀ k, delivered k = true → s.copied k = false →
    ∀ i < cfg.size cfg.recv k, s.buff (cfg.recv.stage k) i = src (k * cfg.stepSize cfg.recv + i)
  out : ∀ k, (if cfg.recv.reg then delivered k else s.copied k) = true → ∀ i < cfg.size cfg.recv k,
    s.dst (k * cfg.stepSize cfg.recv + i) = src (k * cfg.stepSize cfg.recv + i)
  rest : ∀ o, cfg.nbytes cfg.recv ≤ o → s.dst o = dst o
  finished : s.finished = true ↔ s.done = cfg.nsteps cfg.recv

structure Inv (cfg : Config) (src dst : Nat → β) (s : State β) : Prop where
  send : SendInv cfg src s.send s.sends s.delivered
  recv : RecvInv cfg src dst s.recv s.recvs s.delivered
  arrived : ∀ k, s.delivered k = true → k < s.send.transmitted ∧ k < s.recv.posted

variable {cfg : Config} {src dst : Nat → β} {s s' : State β}

theorem inv_initial (suited : Suited cfg) (sendBuff recvBuff : Nat → Nat → β) :
    Inv cfg src dst (initial sendBuff recvBuff dst) := by
  have steps := nsteps_eq suited.send cfg.sendPart suited.nonempty
  have some_steps : 0 < cfg.nsteps cfg.send := (lt_nsteps_iff steps 0).mpr (by simpa using suited.nonempty)
  have same := (same_pieces suited).steps
  have holds (e : End) (size : Nat → Nat) (hi : Nat) (none_yet : hi = 0) : Holds e (fun _ => none) size 0 hi :=
    ⟨fun k _ high => absurd high (by omega), fun _ _ => rfl⟩
  refine ⟨?_, ?_, by simp [initial]⟩
  · constructor
    case fifo => exact holds _ _ _ rfl
    case finished =>
      simp only [initial, Bool.false_eq_true, false_iff]
      omega
    all_goals simp [initial]
  · constructor
    case fifo => exact holds _ _ _ (by simp [initial])
    case finished =>
      simp only [initial, Bool.false_eq_true, false_iff]
      omega
    all_goals simp [initial]

theorem Outcome.ite_moved {σ : Type} {c : Prop} [Decidable c] {outcome : Outcome σ} {t : σ} :
    (if c then outcome else .idle) = .moved t ↔ c ∧ outcome = .moved t := by
  split <;> simp_all

theorem recvPost_moved {accepted : Bool} (next : recvPost cfg accepted s = .moved s') :
    s.recv.posted < cfg.rounds ∧
    (s.recv.posted < cfg.nsteps cfg.recv → s.recv.posted < s.recv.done + cfg.recv.depth) ∧
    s' = { s with
      recvs := if s.recv.posted < cfg.nsteps cfg.recv then s.recvs ++ [cfg.size cfg.recv s.recv.posted] else s.recvs
      recv := { s.recv with posted := s.recv.posted + 1 } } := by
  obtain ⟨can, next⟩ := Outcome.ite_moved.mp next
  refine ⟨can.1, ?_⟩
  grind

theorem recvTransmit_moved {flushed : Bool} (next : recvTransmit cfg flushed s = .moved s') :
    s.recv.transmitted < s.recv.received ∧
    s' = { s with
      recv := { s.recv with
        connFifo := if s.recv.transmitted < cfg.nsteps cfg.recv then
            update s.recv.connFifo (cfg.recv.fifoSlot s.recv.transmitted)
              (some (cfg.size cfg.recv s.recv.transmitted))
          else s.recv.connFifo
        transmitted := s.recv.transmitted + 1 } } := by
  obtain ⟨can, next⟩ := Outcome.ite_moved.mp next
  refine ⟨can.1, ?_⟩
  grind

section

variable (h : Inv cfg src dst s)
include h

theorem post_inv (can : s.send.canPost cfg = true)
    (next : post cfg s = some s') : Inv cfg src dst s' := by
  simp only [Sender.canPost, decide_eq_true_eq] at can
  obtain ⟨-, ⟨⟩⟩ := ite_none_left_eq_some.mp next
  have depth := depth_le cfg.send
  have order := h.send.order
  exact
    { h with
      send := { h.send with
        order := ⟨order.1, by simp only; omega⟩
        posted := ⟨can.1, by simp only; omega⟩
        fifo := h.send.fifo.push (by omega) (by omega)
        copied := fun k copied => ⟨(h.send.copied k copied).1, Nat.lt_succ_of_lt (h.send.copied k copied).2⟩ } }

theorem isend_inv {size : Nat} (can : s.send.canSend = true)
    (found : s.send.connFifo (cfg.send.fifoSlot s.send.transmitted) = some size)
    (ready : cfg.send.reg = true ∨ s.send.copied s.send.transmitted = true) : Inv cfg src dst (isend size s) := by
  simp only [Sender.canSend, decide_eq_true_eq] at can
  have order := h.send.order
  have exact_size : size = cfg.size cfg.send s.send.transmitted := by
    rw [h.send.fifo.inside _ order.1 can.1, some.injEq] at found
    exact found.symm
  exact
    { h with
      arrived := fun k arrived => ⟨Nat.lt_succ_of_lt (h.arrived k arrived).1, (h.arrived k arrived).2⟩
      send := { h.send with
        order := ⟨Nat.le_succ_of_le order.1, can.1⟩
        ready := Nat.forall_lt_succ_right.mpr ⟨h.send.ready, ready⟩
        sends := by
          simp only [isend, h.send.sends, exact_size, range_succ, map_append, map_cons,
            map_nil] } }

theorem trySendTest_inv (open_op : s.send.done ≠ cfg.nsteps cfg.send) :
    Inv cfg src dst (trySendTest cfg s) := by
  unfold trySendTest
  split
  next can =>
    have order := h.send.order
    have posted := h.send.posted
    have depth := depth_le cfg.send
    exact
      { h with
        send := { h.send with
          order := ⟨can.1, order.2⟩
          posted := ⟨posted.1, by simp only [test]; omega⟩
          fifo := h.send.fifo.pop (by omega)
          buff := fun k low => h.send.buff k (Nat.le_of_succ_le low)
          tested := Nat.forall_lt_succ_right.mpr ⟨h.send.tested, can.2⟩
          finished := by
            have unfinished : s.send.finished = false := by
              rw [← Bool.not_eq_true, h.send.finished]
              exact open_op
            simp only [test, unfinished, Bool.false_or, decide_eq_true_eq] } }
  · exact h

variable {accepted : Bool}

theorem sendTurn_inv (next : sendTurn cfg accepted s = some s') : Inv cfg src dst s' := by
  unfold sendTurn at next
  split at next
  · cases next
    exact h
  rename_i open_op
  split at next
  next can =>
    exact post_inv h can next
  split at next
  next can =>
    split at next
    · contradiction
    rename_i size hf
    split at next
    next go =>
      cases next
      simp only [Bool.and_eq_true, Bool.or_eq_true] at go
      exact isend_inv h can hf go.1
    · cases next
      exact trySendTest_inv h open_op
  · cases next
    exact trySendTest_inv h open_op

variable {k : Nat}

omit h in
theorem marked_iff {marks : Nat → Bool} {j : Nat} : update marks k true j = true ↔ j = k ∨ marks j = true := by
  by_cases same : j = k <;> simp [same]

theorem sendCopy_inv (next : sendCopy cfg src k s = some s') :
    Inv cfg src dst s' := by
  obtain ⟨can, ⟨⟩⟩ := ite_none_right_eq_some.mp next
  have posted := h.send.posted
  have order := h.send.order
  -- the send of the step is not over: it would have been sent, and so copied, before
  have current : s.send.done ≤ k := by
    by_contra before
    rcases h.send.ready k (by omega) with hr | copied
    · simp [can.1] at hr
    · simp [can.2.2] at copied
  exact
    { h with
      send := { h.send with
        copied := by
          intro j copied
          rcases marked_iff.mp copied with rfl | copied
          · exact ⟨can.1, can.2.1⟩
          · exact h.send.copied j copied
        ready := fun j hb => (h.send.ready j hb).imp_right fun copied => marked_iff.mpr (.inr copied)
        buff := by
          intro j low copied i hin
          by_cases same : j = k
          · subst same
            have written := write_inside (s.send.buff (cfg.send.stage j)) src 0 (j * cfg.stepSize cfg.send) hin
            simpa using written
          have copied := (marked_iff.mp copied).resolve_left same
          have inWindow := (h.send.copied j copied).2
          have first : s.send.done ≤ j := low
          have apart : cfg.send.stage j ≠ cfg.send.stage k := stage_ne same (by omega) (by omega)
          simp only [update_of_ne apart]
          exact h.send.buff j low copied i hin } }

theorem recvPost_inv (next : recvPost cfg accepted s = .moved s') : Inv cfg src dst s' := by
  have order := h.recv.order
  obtain ⟨more, room, rfl⟩ := recvPost_moved next
  exact
    { h with
      arrived := fun k ht => ⟨(h.arrived k ht).1, Nat.lt_succ_of_lt (h.arrived k ht).2⟩
      recv := { h.recv with
        order := ⟨order.1, order.2.1, Nat.le_succ_of_le order.2.2.1, more⟩
        window := by
          intro k hb posted
          rcases Nat.lt_succ_iff_lt_or_eq.mp posted with before | rfl
          · exact h.recv.window k hb before
          · exact room hb
        recvs := by
          simp only [h.recv.recvs]
          split
          · have before : min s.recv.posted (cfg.nsteps cfg.recv) = s.recv.posted := by omega
            have after : min (s.recv.posted + 1) (cfg.nsteps cfg.recv) = s.recv.posted + 1 := by omega
            simp [before, after, range_succ]
          · have same : min (s.recv.posted + 1) (cfg.nsteps cfg.recv) = min s.recv.posted (cfg.nsteps cfg.recv) := by
              omega
            rw [same] } }

theorem recvTest_inv (next : recvTest cfg s = .moved s') : Inv cfg src dst s' := by
  have order := h.recv.order
  obtain ⟨can, ⟨⟩⟩ := Outcome.ite_moved.mp next
  exact
    { h with
      recv := { h.recv with
        order := ⟨order.1, Nat.le_succ_of_le order.2.1, can.1, order.2.2.2⟩
        received := by
          intro k hb received
          rcases Nat.lt_succ_iff_lt_or_eq.mp received with hbe | rfl
          · exact h.recv.received k hb hbe
          · exact can.2 hb } }

theorem recvTransmit_inv {flushed : Bool}
    (next : recvTransmit cfg flushed s = .moved s') : Inv cfg src dst s' := by
  have order := h.recv.order
  obtain ⟨hb, rfl⟩ := recvTransmit_moved next
  exact
    { h with
      recv := { h.recv with
        order := ⟨Nat.le_succ_of_le order.1, hb, order.2.2⟩
        copied := by
          intro k copied
          obtain ⟨hs, hbe, below⟩ := h.recv.copied k copied
          exact ⟨hs, Nat.lt_succ_of_lt hbe, below⟩
        fifo := by
          have fifo := h.recv.fifo
          split
          next more =>
            have depth := depth_le cfg.recv
            have window := h.recv.window s.recv.transmitted more (by omega)
            rw [show min s.recv.transmitted (cfg.nsteps cfg.recv) = s.recv.transmitted by omega] at fifo
            rw [show min (s.recv.transmitted + 1) (cfg.nsteps cfg.recv) = s.recv.transmitted + 1 by omega]
            exact fifo.push order.1 (by omega)
          · rwa [show min (s.recv.transmitted + 1) (cfg.nsteps cfg.recv) =
              min s.recv.transmitted (cfg.nsteps cfg.recv) by omega] } }

theorem recvDone_inv (next : recvDone cfg s = .moved s') : Inv cfg src dst s' := by
  have order := h.recv.order
  obtain ⟨can, ⟨⟩⟩ := Outcome.ite_moved.mp next
  have depth := depth_le cfg.recv
  have below : s.recv.done < cfg.nsteps cfg.recv := Nat.lt_of_le_of_ne h.recv.done can.1
  have room : min s.recv.transmitted (cfg.nsteps cfg.recv) ≤ s.recv.done + psmNetSteps := by
    by_contra far
    have := h.recv.window (s.recv.done + psmNetSteps) (by omega) (by omega)
    omega
  exact
    { h with
      recv := { h.recv with
        order := ⟨can.2.1, order.2⟩
        done := below
        window := by
          intro k hin posted
          have := h.recv.window k hin posted
          simp only
          omega
        fifo := h.recv.fifo.pop room
        ready := Nat.forall_lt_succ_right.mpr ⟨h.recv.ready, (Bool.or_eq_true _ _).mp can.2.2⟩
        finished := by
          have unfinished : s.recv.finished = false := by
            rw [← Bool.not_eq_true, h.recv.finished]
            exact can.1
          simp only [unfinished, Bool.false_or, decide_eq_true_eq] } }

end

theorem Outcome.andThen_some {outcome : Outcome (State β)} {busy : Bool} {rest : Option (State β)}
    (next : outcome.andThen busy s rest = some s') : outcome = .moved s' ∨ s' = s ∨ rest = some s' := by
  cases outcome with
  | moved t => exact .inl (congrArg Outcome.moved (some.inj next))
  | error => contradiction
  | idle =>
    simp only [Outcome.andThen] at next
    split at next
    · exact .inr (.inl (some.inj next).symm)
    · exact .inr (.inr next)

variable {answers : Answers}

theorem recvPass_some (next : recvPass cfg answers s = some s') :
    s' = s ∨ recvPost cfg answers.accepted s = .moved s' ∨ recvTest cfg s = .moved s' ∨
      recvTransmit cfg answers.flushed s = .moved s' ∨ recvDone cfg s = .moved s' := by
  rcases Outcome.andThen_some next with moved | same | next
  · exact .inr (.inl moved)
  · exact .inl same
  rcases Outcome.andThen_some next with moved | same | next
  · exact .inr (.inr (.inl moved))
  · exact .inl same
  rcases Outcome.andThen_some next with moved | same | next
  · exact .inr (.inr (.inr (.inl moved)))
  · exact .inl same
  rcases Outcome.andThen_some next with moved | same | next
  · exact .inr (.inr (.inr (.inr moved)))
  · exact .inl same
  · exact .inl (some.inj next).symm

theorem recvPass_inv (h : Inv cfg src dst s) (next : recvPass cfg answers s = some s') :
    Inv cfg src dst s' := by
  rcases recvPass_some next with rfl | post | test | ht | done
  · exact h
  · exact recvPost_inv h post
  · exact recvTest_inv h test
  · exact recvTransmit_inv h ht
  · exact recvDone_inv h done

theorem write_piece (target source : Nat → β) {e : End} (below : k * cfg.stepSize e < cfg.nbytes e) :
    (∀ j i, j ≠ k → i < cfg.size e j →
      write target source (k * cfg.stepSize e) 0 (cfg.size e k) (j * cfg.stepSize e + i) =
        target (j * cfg.stepSize e + i)) ∧
      ∀ o, cfg.nbytes e ≤ o → write target source (k * cfg.stepSize e) 0 (cfg.size e k) o = target o := by
  constructor
  · intro j i differ hin
    exact write_outside target source (pieces_apart differ hin)
  · intro o hb
    have := piece_inside below
    exact write_outside target source (by omega)

theorem recvCopy_inv (suited : Suited cfg) (h : Inv cfg src dst s) (next : recvCopy cfg k s = some s') :
    Inv cfg src dst s' := by
  have order := h.recv.order
  have counted := nsteps_eq suited.recv cfg.recvPart (same_nbytes suited ▸ suited.nonempty)
  obtain ⟨can, ⟨⟩⟩ := ite_none_right_eq_some.mp next
  obtain ⟨hs, ht, hb, hf⟩ := can
  have there := h.recv.received k hb (by omega)
  obtain ⟨hp, hbe⟩ := write_piece s.recv.dst (s.recv.buff (cfg.recv.stage k))
    ((lt_nsteps_iff counted k).mp hb)
  exact
    { h with
      recv := { h.recv with
        copied := by
          intro j copied
          rcases marked_iff.mp copied with rfl | copied
          · exact ⟨hs, ht, hb⟩
          · exact h.recv.copied j copied
        ready := fun j before => (h.recv.ready j before).imp_right fun copied => marked_iff.mpr (.inr copied)
        buff := by
          intro _ j ha uncopied
          by_cases same : j = k
          · simp [same] at uncopied
          · simp only [update_of_ne same] at uncopied
            exact h.recv.buff hs j ha uncopied
        out := by
          intro j ready i hin
          simp only [hs] at ready
          by_cases same : j = k
          · subst same
            have written := write_inside s.recv.dst (s.recv.buff (cfg.recv.stage j)) (j * cfg.stepSize cfg.recv) 0
              hin
            rw [Nat.zero_add] at written
            exact written.trans (h.recv.buff hs j there hf i hin)
          · simp only [update_of_ne same] at ready
            have old := h.recv.out j
            simp only [hs] at old
            exact (hp j i same hin).trans (old ready i hin)
        rest := fun o past => (hbe o past).trans (h.recv.rest o past) } }

theorem getElem?_map_range {α : Type} {f : Nat → α} {n : Nat} {x : α} (found : ((range n).map f)[k]? = some x) :
    k < n ∧ x = f k := by
  by_cases hin : k < n
  · rw [getElem?_map, getElem?_range hin, map_some, some.injEq] at found
    exact ⟨hin, found.symm⟩
  · rw [getElem?_eq_none (by simpa using hin)] at found
    contradiction

theorem source_bytes (h : Inv cfg src dst s) (sent : k < s.send.transmitted) (fresh : s.delivered k = false) {i : Nat}
    (inside : i < cfg.size cfg.send k) :
    (if cfg.send.reg then fun o => src (k * cfg.stepSize cfg.send + o) else s.send.buff (cfg.send.stage k)) i =
      src (k * cfg.stepSize cfg.send + i) := by
  cases hr : cfg.send.reg with
  | true => rfl
  | false =>
    have current : s.send.done ≤ k := by
      by_contra before
      have := h.send.tested k (by omega)
      simp [fresh] at this
    have copied := (h.send.ready k sent).resolve_left (by simp [hr])
    exact h.send.buff k current copied i inside

theorem stages_apart {j : Nat} (same : SamePieces cfg) (h : Inv cfg src dst s) (staged : cfg.recv.reg = false)
    (arrived : s.delivered j = true) (uncopied : s.recv.copied j = false) (fresh : s.delivered k = false)
    (below : k < cfg.nsteps cfg.recv) (posted : k < s.recv.posted) : cfg.recv.stage j ≠ cfg.recv.stage k := by
  have order := h.recv.order
  have steps := same.steps
  have sendOrder := h.send.order
  have sendPosted := h.send.posted
  obtain ⟨_, jPosted⟩ := h.arrived j arrived
  have jWindow := h.recv.window j (by omega) jPosted
  have kWindow := h.recv.window k below posted
  have jOpen : s.recv.done ≤ j := by
    by_contra before
    rcases h.recv.ready j (by omega) with hr | copied
    · simp [staged] at hr
    · simp [uncopied] at copied
  have kOpen : s.recv.done ≤ k := by
    by_contra before
    have := h.recv.received k below (by omega)
    simp [fresh] at this
  apply stage_ne _ (by omega) (by omega)
  rintro rfl
  simp [arrived] at fresh

theorem deliver_inv (suited : Suited cfg) (h : Inv cfg src dst s) (next : deliver cfg src k s = some s') :
    Inv cfg src dst s' := by
  have same := same_pieces suited
  have counted := nsteps_eq suited.recv cfg.recvPart (same_nbytes suited ▸ suited.nonempty)
  simp only [deliver] at next
  split at next
  next sent posted hf hfo =>
    split at next
    · contradiction
    rename_i hfr
    cases next
    rw [Bool.not_eq_true] at hfr
    rw [h.send.sends] at hf
    rw [h.recv.recvs] at hfo
    obtain ⟨hw, rfl⟩ := getElem?_map_range hf
    obtain ⟨_, rfl⟩ := getElem?_map_range hfo
    have below : k < cfg.nsteps cfg.recv := by omega
    have inSend : k < cfg.nsteps cfg.send := same.steps ▸ below
    have whole : min (cfg.size cfg.send k) (cfg.size cfg.recv k) = cfg.size cfg.recv k := by
      rw [same.size k inSend, Nat.min_self]
    have source {i : Nat} (hin : i < cfg.size cfg.recv k) :
        (if cfg.send.reg then fun o => src (k * cfg.stepSize cfg.send + o)
          else s.send.buff (cfg.send.stage k)) i = src (k * cfg.stepSize cfg.recv + i) := by
      rw [source_bytes h hw hfr (by rw [same.size k inSend]; exact hin), same.offset k inSend]
    generalize (if cfg.send.reg then fun o => src (k * cfg.stepSize cfg.send + o)
      else s.send.buff (cfg.send.stage k)) = bytes at source
    have grows (j : Nat) (there : s.delivered j = true) : update s.delivered k true j = true :=
      marked_iff.mpr (.inr there)
    simp only [whole]
    obtain ⟨hp, hb⟩ := write_piece s.recv.dst bytes ((lt_nsteps_iff counted k).mp below)
    have written := fun {i : Nat} (hin : i < cfg.size cfg.recv k) =>
      write_inside s.recv.dst bytes (k * cfg.stepSize cfg.recv) 0 hin
    have sendKept : SendInv cfg src s.send s.sends (update s.delivered k true) :=
      { h.send with tested := fun j before => grows j (h.send.tested j before) }
    have arrived (j : Nat) (there : update s.delivered k true j = true) :
        j < s.send.transmitted ∧ j < s.recv.posted := by
      rcases marked_iff.mp there with rfl | there
      · exact ⟨hw, by omega⟩
      · exact h.arrived j there
    cases hr : cfg.recv.reg with
    | true =>
      exact
        { send := sendKept
          arrived
          recv := { h.recv with
            received := fun j hin before => grows j (h.recv.received j hin before)
            buff := fun staged => absurd staged (by simp [hr])
            out := by
              intro j there i hin
              simp only [hr, if_true] at there ⊢
              by_cases hit : j = k
              · subst hit
                rw [written hin, Nat.zero_add, source hin]
              · have old := h.recv.out j
                simp only [hr] at old
                rw [hp j i hit hin]
                exact old ((marked_iff.mp there).resolve_left hit) i hin
            rest := fun o past => (hb o past).trans (h.recv.rest o past) } }
    | false =>
      exact
        { send := sendKept
          arrived
          recv := { h.recv with
            received := fun j hin before => grows j (h.recv.received j hin before)
            buff := by
              intro _ j there uncopied i hin
              simp only [Bool.false_eq_true, if_false] at there uncopied ⊢
              by_cases hit : j = k
              · subst hit
                have staged := write_inside (s.recv.buff (cfg.recv.stage j)) bytes 0 0 hin
                rw [Nat.zero_add] at staged
                rw [update_self, staged, source hin]
              · have there := (marked_iff.mp there).resolve_left hit
                rw [update_of_ne (stages_apart same h hr there uncopied hfr below (by omega))]
                exact h.recv.buff hr j there uncopied i hin
            out := by
              have old := h.recv.out
              simp only [hr] at old ⊢
              exact old } }
  · contradiction

theorem step_inv (suited : Suited cfg) {a : Action} (h : Inv cfg src dst s) (next : step cfg src s a = some s') :
    Inv cfg src dst s' := by
  cases a with
  | sendPass accepted =>
    simp only [step, if_pos suited.send.simple] at next
    exact sendTurn_inv h next
  | recvPass answers =>
    simp only [step, if_pos suited.recv.simple] at next
    exact recvPass_inv h next
  | sendCopy k => exact sendCopy_inv h next
  | recvCopy k => exact recvCopy_inv suited h next
  | deliver k => exact deliver_inv suited h next

end Invariant

end Vccl.Psm.NetPair
