import Vccl.Rollback.Invariant

namespace Vccl.Rollback

open Function
open Net (ncclSteps SendSub RecvSub)
open Chunks (slice_le)

variable {β : Type} {cfg : Config β}

structure RecvInv (cfg : Config β) (r : Receiver β) : Prop where
  fixed : r.sub.base = cfg.recvBase ∧ r.sub.nsteps = cfg.nsteps
  postedSlices : cfg.sliceSteps ∣ r.sub.posted
  receivedSlices : cfg.sliceSteps ∣ r.sub.received
  sentSlices : cfg.sliceSteps ∣ r.sub.transmitted
  doneSlices : cfg.sliceSteps ∣ r.sub.done
  behind : r.sub.done ≤ r.sub.transmitted
  flushed : r.sub.transmitted ≤ r.sub.received
  arrived : r.sub.received ≤ r.sub.posted
  limit : r.sub.posted ≤ cfg.nsteps
  depth : r.sub.posted ≤ r.sub.done + ncclSteps
  consumed : r.sub.done = 0 ∨ cfg.recvBase + r.sub.done < r.head + cfg.sliceSteps
  data : ∀ k, cfg.sliceSteps ∣ k → r.sub.done ≤ k → k < r.sub.received →
    r.buffer (cfg.target k) = cfg.data k
  log : ∃ n, r.sub.transmitted = n * cfg.sliceSteps ∧ r.published =
    (List.range n).map fun j => (j * cfg.sliceSteps, cfg.data (j * cfg.sliceSteps))

theorem recvInv_initial (cfg : Config β) : RecvInv cfg (initial cfg).recv := by
  refine ⟨⟨rfl, rfl⟩, ⟨0, rfl⟩, ⟨0, rfl⟩, ⟨0, rfl⟩, ⟨0, rfl⟩, le_rfl, le_rfl, le_rfl, Nat.zero_le _,
    Nat.zero_le _, .inl rfl, ?_, ⟨0, ?_, rfl⟩⟩
  · intro k _ _ before
    simp [initial] at before
  · simp [initial]

variable {r : Receiver β}

theorem RecvInv.post (h : RecvInv cfg r) (more : r.sub.posted < r.sub.nsteps)
    (inside : r.sub.posted < r.sub.done + cfg.net.depth) (ready : Bool) (fifoTail : Nat) (requests : Nat → Nat) :
    RecvInv cfg { r with
      sub := { r.sub with posted := r.sub.posted + cfg.sliceSteps }
      regBufferReady := ready
      fifoTail
      requests } := by
  have steps := h.fixed.2
  rw [net_depth] at inside
  have room := slice_le h.postedSlices (Nat.dvd_add h.doneSlices cfg.aligned) inside
  have last := slice_le h.postedSlices cfg.whole (by omega)
  have arrived := h.arrived
  exact { h with
    postedSlices := Nat.dvd_add h.postedSlices (Nat.dvd_refl _)
    arrived := by simp only; omega
    limit := last
    depth := room }

theorem RecvInv.receive (h : RecvInv cfg r) (pending : r.sub.received < r.sub.posted)
    (arrived : r.buffer (cfg.target r.sub.received) = cfg.data r.sub.received) :
    RecvInv cfg { r with sub := { r.sub with received := r.sub.received + cfg.sliceSteps } } := by
  have next := slice_le h.receivedSlices h.postedSlices pending
  have flushed := h.flushed
  refine { h with
    receivedSlices := Nat.dvd_add h.receivedSlices (Nat.dvd_refl _)
    flushed := by simp only; omega
    arrived := next
    data := ?_ }
  intro k slice low high
  simp only at low high ⊢
  rcases Nat.lt_trichotomy k r.sub.received with hb | here | ha
  · exact h.data k slice low hb
  · rw [here]
    exact arrived
  · have := slice_le h.receivedSlices slice ha
    omega

theorem RecvInv.rollBack (h : RecvInv cfg r) (fifoTail : Nat) :
    RecvInv cfg { r with sub := { r.sub with posted := r.sub.received }, fifoTail } := by
  have arrived := h.arrived
  have limit := h.limit
  have depth := h.depth
  exact { h with
    postedSlices := h.receivedSlices
    arrived := le_rfl
    limit := by simp only; omega
    depth := by simp only; omega }

theorem RecvInv.publish (h : RecvInv cfg r) (pending : r.sub.transmitted < r.sub.received) :
    RecvInv cfg (publish cfg r) := by
  have next := slice_le h.sentSlices h.receivedSlices pending
  have behind := h.behind
  have arrived := h.arrived
  have limit := h.limit
  have steps := h.fixed.2
  obtain ⟨n, sent, log⟩ := h.log
  refine { h with
    sentSlices := Nat.dvd_add h.sentSlices (Nat.dvd_refl _)
    behind := by simp only [Rollback.publish]; omega
    flushed := next
    log := ⟨n + 1, ?_, ?_⟩ }
  · simp only [Rollback.publish]
    rw [sent, Nat.succ_mul]
  · simp only [Rollback.publish]
    rw [if_pos (by omega), h.data _ h.sentSlices behind pending, List.range_succ, List.map_append, ← log,
      sent]
    rfl

def GivesBack (cfg : Config β) (head : Nat) (sub sub' : RecvSub) : Prop :=
  ∃ done, sub' = { sub with done } ∧ sub.done ≤ done ∧ done ≤ sub.transmitted ∧ cfg.sliceSteps ∣ done ∧
    (done = sub.done ∨ sub.base + done < head + cfg.sliceSteps)

theorem advanceDone_moves {head fuel : Nat} {sub : RecvSub} (sent : cfg.sliceSteps ∣ sub.transmitted)
    (slices : cfg.sliceSteps ∣ sub.done) (behind : sub.done ≤ sub.transmitted) :
    GivesBack cfg head sub (Net.advanceDone cfg.net head fuel sub).1 := by
  induction fuel generalizing sub with
  | zero => exact ⟨sub.done, rfl, le_rfl, behind, slices, .inl rfl⟩
  | succ fuel ih =>
    simp only [Net.advanceDone]
    split
    next hm =>
      have next := slice_le slices sent hm.2
      have slices' : cfg.sliceSteps ∣ sub.done + cfg.sliceSteps := Nat.dvd_add slices (Nat.dvd_refl _)
      have low : sub.base + (sub.done + cfg.sliceSteps) < head + cfg.sliceSteps := by omega
      split
      · exact ⟨sub.done + cfg.sliceSteps, rfl, by omega, next, slices', .inr low⟩
      obtain ⟨done, hmo, ha, hl, hs'', consumed⟩ :=
        @ih { sub with done := sub.done + cfg.net.sliceSteps } sent slices' next
      refine ⟨done, hmo, ?_, hl, hs'', ?_⟩
      · exact le_trans (Nat.le_add_right _ _) ha
      · right
        rcases consumed with same | less
        · rw [same]
          exact low
        · exact less
    · exact ⟨sub.done, rfl, le_rfl, behind, slices, .inl rfl⟩

theorem doneSub_moves (head : Nat) {sub : RecvSub} (sent : cfg.sliceSteps ∣ sub.transmitted)
    (slices : cfg.sliceSteps ∣ sub.done) (behind : sub.done ≤ sub.transmitted) :
    GivesBack cfg head sub (Net.doneSub cfg.net head sub).1 := by
  unfold Net.doneSub
  split
  · exact ⟨sub.done, rfl, le_rfl, behind, slices, .inl rfl⟩
  · exact advanceDone_moves sent slices behind

theorem RecvInv.drain (h : RecvInv cfg r) (flushed : Bool) :
    RecvInv cfg (drain cfg r flushed) := by
  unfold Rollback.drain
  split
  next pending =>
    exact h.publish pending.1
  obtain ⟨_, hm, ha, hl, hs, consumed⟩ :=
    doneSub_moves r.head h.sentSlices h.doneSlices h.behind
  have depth := h.depth
  have base := h.fixed.1
  rw [hm]
  refine { h with
    doneSlices := hs
    behind := hl
    depth := by simp only; omega
    consumed := ?_
    data := fun k slice low high => h.data k slice (le_trans ha low) high }
  rcases consumed with same | _
  · rw [same]
    exact h.consumed
  · right
    simp only
    omega

theorem RecvInv.consume (h : RecvInv cfg r) (steps : Nat) :
    RecvInv cfg { r with head := r.head + steps } := by
  refine { h with consumed := ?_ }
  rcases h.consumed with none | _
  · exact .inl none
  · right
    simp only
    omega

section Link

variable {e : SyncEntry}

structure Carries (cfg : Config β) (e : SyncEntry) (s : State β) (idx : Nat) (m : Message) : Prop where
  source : m.source = cfg.source (e.step cfg.sliceSteps idx)
  target : m.target = cfg.target (e.step cfg.sliceSteps idx)
  size : m.size = (cfg.data (e.step cfg.sliceSteps idx)).length
  kept : m.landed = false → s.send.sub.done ≤ e.step cfg.sliceSteps idx
  landed : m.landed = true → s.recv.sub.received ≤ e.step cfg.sliceSteps idx →
    s.recv.buffer (cfg.target (e.step cfg.sliceSteps idx)) = cfg.data (e.step cfg.sliceSteps idx)
  received : e.step cfg.sliceSteps idx < s.recv.sub.received → m.landed = true

structure Current (cfg : Config β) (e : SyncEntry) (s : State β) : Prop where
  head : e.recvFifoTail ≤ s.send.fifoHead ∧ s.send.fifoHead ≤ s.recv.fifoTail
  sent : s.send.sub.transmitted = e.step cfg.sliceSteps (s.send.fifoHead + 1)
  restart : e.restartPos ≤ s.send.sub.done
  received : s.recv.sub.received ≤ s.send.sub.transmitted

structure Link (cfg : Config β) (e : SyncEntry) (s : State β) : Prop where
  tail : e.recvFifoTail ≤ s.recv.fifoTail
  posted : s.recv.sub.posted = e.step cfg.sliceSteps (s.recv.fifoTail + 1)
  restart : cfg.sliceSteps ∣ e.restartPos ∧ e.restartPos ≤ s.recv.sub.received
  sender : s.send.fifoHead < e.recvFifoTail ∧ s.recv.sub.received = e.restartPos ∨ Current cfg e s
  gap : s.cts e.recvFifoTail = none
  cts : ∀ idx r, e.recvFifoTail < idx → s.cts idx = some r →
    idx ≤ s.recv.fifoTail ∧ r = cfg.target (e.step cfg.sliceSteps idx)
  wire : ∀ idx m, e.recvFifoTail < idx → s.wire idx = some m →
    idx ≤ s.send.fifoHead ∧ Carries cfg e s idx m
  sendRequests : ∀ idx, e.recvFifoTail < idx → idx ≤ s.send.fifoHead →
    s.send.sub.done ≤ e.step cfg.sliceSteps idx →
    s.send.requests (slotOf cfg.sendBase (e.step cfg.sliceSteps idx)) = idx
  recvRequests : ∀ idx, e.recvFifoTail < idx → idx ≤ s.recv.fifoTail →
    s.recv.sub.received ≤ e.step cfg.sliceSteps idx →
    s.recv.requests (e.step cfg.sliceSteps idx % ncclSteps) = idx

theorem link_initial (cfg : Config β) : Link cfg ⟨cfg.fifo, 0⟩ (initial cfg) := by
  have first : SyncEntry.step ⟨cfg.fifo, 0⟩ cfg.sliceSteps (cfg.fifo + 1) = 0 := step_first
  refine ⟨le_rfl, first.symm, ⟨⟨0, rfl⟩, le_rfl⟩, .inr ⟨⟨le_rfl, le_rfl⟩, first.symm,
    le_rfl, le_rfl⟩, rfl, ?_, ?_, ?_, ?_⟩
  · intro idx r _ some'
    simp [initial] at some'
  · intro idx m _ some'
    simp [initial] at some'
  all_goals
    intro idx low high
    simp only [initial] at low high
    omega

variable {s : State β} {idx : Nat}

section

variable (h : Link cfg e s)
include h

theorem Link.current (low : e.recvFifoTail < idx) (high : idx ≤ s.send.fifoHead) :
    Current cfg e s := by
  rcases h.sender with ⟨_, -⟩ | current
  · omega
  · exact current

theorem Link.step_lt_sent (low : e.recvFifoTail < idx) (high : idx ≤ s.send.fifoHead) :
    e.step cfg.sliceSteps idx + cfg.sliceSteps ≤ s.send.sub.transmitted := by
  rw [(h.current low high).sent]
  exact step_lt low (Nat.lt_succ_of_le high)

theorem Link.step_lt_posted (low : e.recvFifoTail < idx) (high : idx ≤ s.recv.fifoTail) :
    e.step cfg.sliceSteps idx + cfg.sliceSteps ≤ s.recv.sub.posted := by
  rw [h.posted]
  exact step_lt low (Nat.lt_succ_of_le high)

variable {send : Sender β}

theorem Link.of_view {s' : State β}
    (sender : s'.send.sub.done = s.send.sub.done ∧ s'.send.sub.transmitted = s.send.sub.transmitted ∧
      s'.send.fifoHead = s.send.fifoHead ∧ s'.send.requests = s.send.requests)
    (receiver : s'.recv.sub.posted = s.recv.sub.posted ∧ s'.recv.sub.received = s.recv.sub.received ∧
      s'.recv.fifoTail = s.recv.fifoTail ∧ s'.recv.requests = s.recv.requests ∧ s'.recv.buffer = s.recv.buffer)
    (between : s'.cts = s.cts ∧ s'.wire = s.wire) : Link cfg e s' := by
  rcases s' with ⟨⟨⟨⟩⟩, ⟨⟨⟩⟩⟩
  obtain ⟨rfl, rfl, rfl, rfl⟩ := sender
  obtain ⟨rfl, rfl, rfl, rfl, rfl⟩ := receiver
  obtain ⟨rfl, rfl⟩ := between
  refine { h with sender := h.sender.imp_right fun current => { current with }, wire := ?_ }
  intro idx m low some'
  obtain ⟨high, carries⟩ := h.wire idx m low some'
  exact ⟨high, { carries with }⟩

theorem Link.of_sender
    (sub : send.sub.done = s.send.sub.done ∧ send.sub.transmitted = s.send.sub.transmitted)
    (fifo : send.fifoHead = s.send.fifoHead ∧ send.requests = s.send.requests) :
    Link cfg e { s with send } :=
  h.of_view ⟨sub.1, sub.2, fifo⟩ ⟨rfl, rfl, rfl, rfl, rfl⟩ ⟨rfl, rfl⟩

theorem Link.transmit (inv : SendInv cfg s.send) {target : Region} {size : Nat}
    (near : s.send.sub.transmitted < s.send.sub.done + ncclSteps) (seen : ready cfg s.send = true)
    (filled : s.send.connFifo (slotOf s.send.sub.base s.send.sub.transmitted) = some size)
    (cts : s.cts (s.send.fifoHead + 1) = some target) :
    Link cfg e { s with
      send := { s.send with
        sub := { s.send.sub with transmitted := s.send.sub.transmitted + cfg.sliceSteps }
        fifoHead := s.send.fifoHead + 1
        requests := update s.send.requests
          (slotOf s.send.sub.base s.send.sub.transmitted) (s.send.fifoHead + 1) }
      wire := update s.wire (s.send.fifoHead + 1)
        (some ⟨cfg.source s.send.sub.transmitted, target, size, false⟩) } := by
  have positive := cfg.positive
  rcases h.sender with ⟨_, none⟩ | hc
  · have skipped : s.send.fifoHead + 1 ≠ e.recvFifoTail := by
      intro same
      rw [same, h.gap] at cts
      contradiction
    refine { h with sender := .inl ⟨by simp only; omega, none⟩, wire := ?_, sendRequests := ?_ }
    · intro idx m low some'
      simp only [update_of_ne (show idx ≠ s.send.fifoHead + 1 by omega)] at some'
      obtain ⟨high, -⟩ := h.wire idx m low some'
      omega
    · intro idx low high
      simp only at high
      omega
  · obtain ⟨low, high⟩ := hc.head
    have inside : e.recvFifoTail < s.send.fifoHead + 1 := by omega
    obtain ⟨hp, rfl⟩ := h.cts _ _ inside cts
    have sent := hc.sent
    refine { h with
      sender := .inr ⟨⟨by simp only; omega, hp⟩, ?_, hc.restart, ?_⟩, wire := ?_, sendRequests := ?_ }
    · rw [step_next inside, sent]
    · have := hc.received
      simp only
      omega
    · intro idx m low' some'
      by_cases new : idx = s.send.fifoHead + 1
      · subst new
        simp only [update_self, Option.some.injEq] at some'
        subst some'
        refine ⟨le_rfl, ?_, rfl, ?_, ?_, ?_, ?_⟩
        · rw [sent]
        · rw [inv.base, sent] at filled
          have produced := inv.produced_of_ready seen
          have kept := inv.sent
          exact inv.sizes _ (sent ▸ inv.sentSlices) (by omega) (.inl (by omega)) size filled
        · intro _
          rw [← sent]
          exact inv.sent
        · intro hco
          contradiction
        · intro before
          have := hc.received
          simp only at before
          omega
      · simp only [update_of_ne new] at some'
        obtain ⟨high', carries⟩ := h.wire idx m low' some'
        exact ⟨by simp only; omega, { carries with }⟩
    · intro idx low' high' kept
      simp only at high' kept ⊢
      by_cases new : idx = s.send.fifoHead + 1
      · rw [new, inv.base, ← sent, update_self]
      have before := h.step_lt_sent low' (by omega)
      have other : slotOf cfg.sendBase (e.step cfg.sliceSteps idx) ≠
          slotOf s.send.sub.base s.send.sub.transmitted := by
        rw [inv.base]
        exact slotOf_ne _ (by omega) (by omega)
      rw [update_of_ne other]
      exact h.sendRequests idx low' (by omega) kept

theorem Link.complete (inv : SendInv cfg s.send)
    (pending : s.send.sub.done < s.send.sub.transmitted)
    (landed : landedAt s.wire (s.send.requests (slotOf s.send.sub.base s.send.sub.done)) = true) :
    Link cfg e { s with send := complete cfg s.send } := by
  have restart := h.restart
  refine { h with sender := ?_, wire := ?_, sendRequests := ?_ }
  · rcases h.sender with old | current
    · exact .inl old
    · have := current.restart
      exact .inr { current with restart := by simp only [Rollback.complete]; omega }
  · intro idx m low some'
    obtain ⟨high, carries⟩ := h.wire idx m low some'
    refine ⟨high, { carries with kept := ?_ }⟩
    intro open'
    have kept := carries.kept open'
    have current := h.current low high
    -- the request of the oldest open step
    rw [current.sent] at pending
    obtain ⟨first, low', high', here⟩ := exists_idx restart.1 inv.doneSlices current.restart pending
    have request := h.sendRequests first low' high' (by omega)
    rw [here, ← inv.base] at request
    rw [request] at landed
    have later : e.step cfg.sliceSteps idx ≠ s.send.sub.done := by
      intro same
      have equal := step_inj cfg.positive low low' (same.trans here.symm)
      rw [← equal, landedAt, some'] at landed
      simp only [open'] at landed
      contradiction
    exact slice_le inv.doneSlices (dvd_step restart.1 idx) (by omega)
  · intro idx low high kept
    simp only [Rollback.complete] at kept
    exact h.sendRequests idx low high (by omega)

theorem Link.waits (old : s.send.fifoHead < e.recvFifoTail) : s.recv.sub.received = e.restartPos := by
  rcases h.sender with ⟨-, none⟩ | hc
  · exact none
  · have := hc.head.1
    omega

theorem Link.followed (old : s.send.fifoHead < e.recvFifoTail)
    (head : send.fifoHead = e.recvFifoTail) (sub : send.sub.transmitted = e.restartPos ∧ send.sub.done = e.restartPos) :
    Link cfg e { s with send } := by
  refine { h with sender := .inr ⟨?_, ?_, ?_, ?_⟩, wire := ?_, sendRequests := ?_ }
  · simp only [head]
    exact ⟨le_rfl, h.tail⟩
  · simp only [head, sub.1]
    exact step_first.symm
  · simp only [sub.2]
    exact le_rfl
  · simp only [sub.1, h.waits old]
    exact le_rfl
  · intro idx m low some'
    obtain ⟨high, -⟩ := h.wire idx m low some'
    omega
  · intro idx low high
    simp only [head] at high
    omega

theorem Link.outdated (old : s.send.fifoHead < e.recvFifoTail)
    (head : send.fifoHead < e.recvFifoTail) : Link cfg e { s with send } := by
  refine { h with sender := .inl ⟨head, h.waits old⟩, wire := ?_, sendRequests := ?_ }
  · intro idx m low some'
    obtain ⟨high, -⟩ := h.wire idx m low some'
    omega
  · intro idx low high
    simp only at high
    omega

theorem Link.postRecv (inv : RecvInv cfg s.recv)
    (inside : s.recv.sub.posted < s.recv.sub.done + cfg.net.depth) : Link cfg e (postRecv cfg s) := by
  have positive := cfg.positive
  have tail := h.tail
  have posted := h.posted
  have order : s.recv.sub.done ≤ s.recv.sub.received := le_trans inv.behind inv.flushed
  rw [net_depth] at inside
  have low : e.recvFifoTail < s.recv.fifoTail + 1 := by omega
  refine ⟨by simp only [Rollback.postRecv]; omega, ?_, h.restart, ?_, ?_, ?_, ?_, h.sendRequests, ?_⟩
  · simp only [Rollback.postRecv]
    rw [step_next low, posted]
  · rcases h.sender with old | hc
    · exact .inl old
    · have := hc.head
      exact .inr { hc with head := by simp only [Rollback.postRecv]; omega }
  · simp only [Rollback.postRecv]
    rw [update_of_ne (by omega)]
    exact h.gap
  · intro idx r low' some'
    simp only [Rollback.postRecv] at some' ⊢
    by_cases new : idx = s.recv.fifoTail + 1
    · subst new
      simp only [update_self, Option.some.injEq] at some'
      rw [← some', posted]
      exact ⟨le_rfl, rfl⟩
    · rw [update_of_ne new] at some'
      obtain ⟨high, same⟩ := h.cts idx r low' some'
      exact ⟨by omega, same⟩
  · intro idx m low' some'
    obtain ⟨high, carries⟩ := h.wire idx m low' some'
    exact ⟨high, { carries with }⟩
  · intro idx low' high kept
    simp only [Rollback.postRecv] at high kept ⊢
    by_cases new : idx = s.recv.fifoTail + 1
    · rw [new, ← posted, update_self]
    · have before := h.step_lt_posted low' (by omega)
      have other : e.step cfg.sliceSteps idx % ncclSteps ≠ s.recv.sub.posted % ncclSteps :=
        Wrap.slots_differ (by omega) (by omega)
      rw [update_of_ne other]
      exact h.recvRequests idx low' (by omega) kept

theorem Link.arrived (inv : RecvInv cfg s.recv) (pending : s.recv.sub.received < s.recv.sub.posted)
    (landed : landedAt s.wire (s.recv.requests (s.recv.sub.received % ncclSteps)) = true) :
    ∃ idx m, e.recvFifoTail < idx ∧ e.step cfg.sliceSteps idx = s.recv.sub.received ∧
      s.wire idx = some m ∧ m.landed = true := by
  rw [h.posted] at pending
  obtain ⟨idx, low, high, here⟩ := exists_idx h.restart.1 inv.receivedSlices h.restart.2 pending
  have request := h.recvRequests idx low high (by omega)
  rw [here] at request
  rw [request, landedAt] at landed
  cases message : s.wire idx with
  | none => simp [message] at landed
  | some m =>
    rw [message] at landed
    exact ⟨idx, m, low, here, message, landed⟩

variable {m : Message}

theorem Link.receive (inv : RecvInv cfg s.recv) (low : e.recvFifoTail < idx)
    (here : e.step cfg.sliceSteps idx = s.recv.sub.received) (sent : s.wire idx = some m) (landed : m.landed = true) :
    Link cfg e { s with recv := { s.recv with
      sub := { s.recv.sub with received := s.recv.sub.received + cfg.sliceSteps } } } := by
  obtain ⟨high, -⟩ := h.wire idx m low sent
  have current := h.current low high
  have before := h.step_lt_sent low high
  obtain ⟨hs, hr⟩ := h.restart
  refine { h with
    restart := ⟨hs, by simp only; omega⟩, sender := .inr { current with received := by simp only; omega }
    wire := ?_, recvRequests := ?_ }
  · intro other m' low' some'
    obtain ⟨high', carries⟩ := h.wire other m' low' some'
    refine ⟨high', { carries with landed := ?_, received := ?_ }⟩
    · intro hl' kept
      simp only at kept
      exact carries.landed hl' (by omega)
    intro less
    simp only at less
    rcases Nat.lt_trichotomy (e.step cfg.sliceSteps other) s.recv.sub.received with he | same | hl
    · exact carries.received he
    · have equal := step_inj cfg.positive low' low (same.trans here.symm)
      rw [equal, sent, Option.some.injEq] at some'
      rw [← some']
      exact landed
    · have := slice_le inv.receivedSlices (dvd_step hs other) hl
      omega
  · intro other low' high' kept
    simp only at high' kept
    exact h.recvRequests other low' high' (by omega)

theorem Link.of_receiver {recv : Receiver β}
    (sub : recv.sub.posted = s.recv.sub.posted ∧ recv.sub.received = s.recv.sub.received)
    (fifo : recv.fifoTail = s.recv.fifoTail ∧ recv.requests = s.recv.requests ∧
      recv.buffer = s.recv.buffer) : Link cfg e { s with recv } :=
  h.of_view ⟨rfl, rfl, rfl, rfl⟩ ⟨sub.1, sub.2, fifo⟩ ⟨rfl, rfl⟩

theorem Link.rollBackRecv (inv : RecvInv cfg s.recv) :
    Link cfg ⟨s.recv.fifoTail + 1000, s.recv.sub.received⟩ (rollBackRecv s) := by
  have tail := h.tail
  have behind : s.send.fifoHead ≤ s.recv.fifoTail := by
    rcases h.sender with ⟨_, -⟩ | hc
    · omega
    · exact hc.head.2
  have first : SyncEntry.step ⟨s.recv.fifoTail + 1000, s.recv.sub.received⟩ cfg.sliceSteps
      (s.recv.fifoTail + 1000 + 1) = s.recv.sub.received := step_first
  refine ⟨le_rfl, first.symm, ⟨inv.receivedSlices, le_rfl⟩, .inl ⟨?_, rfl⟩, ?_, ?_, ?_, ?_, ?_⟩
  · simp only [Rollback.rollBackRecv]
    omega
  · simp only [Rollback.rollBackRecv]
    cases he : s.cts (s.recv.fifoTail + 1000) with
    | none => rfl
    | some r =>
      have := (h.cts _ r (by omega) he).1
      omega
  · intro idx r low some'
    simp only at low
    have := (h.cts idx r (by omega) some').1
    omega
  · intro idx m low some'
    simp only at low
    have := (h.wire idx m (by omega) some').1
    omega
  all_goals
    intro idx low high
    simp only [Rollback.rollBackRecv] at low high
    omega

theorem Link.open_step (low : e.recvFifoTail < idx) (sent : s.wire idx = some m)
    (unlanded : m.landed = false) :
    s.recv.sub.received ≤ e.step cfg.sliceSteps idx ∧
      e.step cfg.sliceSteps idx + cfg.sliceSteps ≤ s.recv.sub.posted := by
  obtain ⟨high, carries⟩ := h.wire idx m low sent
  constructor
  · by_contra before
    have := carries.received (by omega)
    simp [unlanded] at this
  · exact h.step_lt_posted low (le_trans high (h.current low high).head.2)

theorem target_ne_of_open (inv : RecvInv cfg s.recv) {k : Nat} (low : e.recvFifoTail < idx)
    (sent : s.wire idx = some m) (unlanded : m.landed = false) (different : k ≠ e.step cfg.sliceSteps idx)
    (first : s.recv.sub.done ≤ k) (last : k < s.recv.sub.posted) : cfg.target k ≠ m.target := by
  have positive := cfg.positive
  have depth := inv.depth
  have order : s.recv.sub.done ≤ s.recv.sub.received := le_trans inv.behind inv.flushed
  obtain ⟨_, _⟩ := h.open_step low sent unlanded
  rw [(h.wire idx m low sent).2.target]
  exact region_ne _ _ different (by omega) (by omega)

end

theorem RecvInv.deliver (inv : RecvInv cfg s.recv) (h : Link cfg e s) (low : e.recvFifoTail < idx)
    (sent : s.wire idx = some m) (unlanded : m.landed = false) (bytes : List β) (landed : Bool) :
    RecvInv cfg (s.deliver idx m bytes landed).recv := by
  refine { inv with data := ?_ }
  intro k slice first before
  simp only [State.deliver] at first before ⊢
  obtain ⟨_, -⟩ := h.open_step low sent unlanded
  have arrived := inv.arrived
  rw [update_of_ne
    (target_ne_of_open h inv low sent unlanded (by omega) first (by omega))]
  exact inv.data k slice first before

theorem Link.deliver (h : Link cfg e s) (inv : RecvInv cfg s.recv) (low : e.recvFifoTail < idx)
    (sent : s.wire idx = some m) (unlanded : m.landed = false) {bytes : List β} {landed : Bool}
    (whole : landed = true → bytes = cfg.data (e.step cfg.sliceSteps idx)) :
    Link cfg e (s.deliver idx m bytes landed) := by
  obtain ⟨high, carries⟩ := h.wire idx m low sent
  refine { h with sender := h.sender.imp_right fun hc => { hc with }, wire := ?_ }
  intro other m' low' some'
  simp only [State.deliver] at some'
  by_cases same : other = idx
  · subst same
    simp only [update_self, Option.some.injEq] at some'
    subst some'
    refine ⟨high, carries.source, carries.target, carries.size, fun _ => carries.kept unlanded, ?_, ?_⟩
    · intro hl' _
      simp only [State.deliver]
      rw [carries.target, update_self]
      exact whole hl'
    · intro hb
      have := carries.received hb
      simp [unlanded] at this
  · rw [update_of_ne same] at some'
    obtain ⟨high', carries'⟩ := h.wire other m' low' some'
    refine ⟨high', { carries' with landed := ?_ }⟩
    intro hl' kept
    simp only [State.deliver] at kept ⊢
    have posted := h.step_lt_posted low' (le_trans high' (h.current low' high').head.2)
    have positive := cfg.positive
    have different : e.step cfg.sliceSteps other ≠ e.step cfg.sliceSteps idx :=
      fun he => same (step_inj cfg.positive low' low he)
    have order : s.recv.sub.done ≤ s.recv.sub.received := le_trans inv.behind inv.flushed
    rw [update_of_ne
      (target_ne_of_open h inv low sent unlanded different (by omega) (by omega))]
    exact carries'.landed hl' kept

end Link

end Vccl.Rollback
