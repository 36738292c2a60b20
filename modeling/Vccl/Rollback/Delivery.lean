import Vccl.Rollback.Link

namespace Vccl.Rollback

open List Option Transition
open Net (ncclSteps SendSub RecvSub)
open Chunks (slice_le)

variable {β : Type} {cfg : Config β}

structure Inv (cfg : Config β) (s : State β) : Prop where
  send : SendInv cfg s.send
  recv : RecvInv cfg s.recv
  link : Link cfg (s.epoch cfg) s
  produced : s.recv.sub.received ≤ s.send.produced
  restarts : ∀ e ∈ s.sync, cfg.sliceSteps ∣ e.restartPos ∧ e.restartPos ≤ s.send.produced
  older : ∀ i e, s.sync[i]? = some e → i + 1 < s.sync.length →
    e.recvFifoTail < (s.epoch cfg).recvFifoTail
  unread : s.send.syncFifoHead < s.sync.length → s.send.fifoHead < (s.epoch cfg).recvFifoTail

theorem inv_initial (cfg : Config β) : Inv cfg (initial cfg) := by
  refine ⟨sendInv_initial cfg, recvInv_initial cfg, link_initial cfg, le_rfl, ?_, ?_, ?_⟩
  all_goals simp [initial]

variable {s : State β}

theorem Inv.of_sender (h : Inv cfg s) {send : Sender β} (inv : SendInv cfg send)
    (sub : send.sub.done = s.send.sub.done ∧ send.sub.transmitted = s.send.sub.transmitted)
    (fifo : send.fifoHead = s.send.fifoHead ∧ send.requests = s.send.requests)
    (sync : send.syncFifoHead = s.send.syncFifoHead) (produced : s.send.produced ≤ send.produced) :
    Inv cfg { s with send } := by
  refine { h with
    send := inv, link := h.link.of_sender sub fifo, produced := le_trans h.produced produced
    restarts := ?_, unread := ?_ }
  · intro e mem
    obtain ⟨hs, before⟩ := h.restarts e mem
    exact ⟨hs, le_trans before produced⟩
  · intro hu
    simp only [sync, fifo.1] at hu ⊢
    exact h.unread hu

variable {t : State β}

theorem Inv.transmit {cts : Bool} (h : Inv cfg s) (sent : transmit cfg s cts = some t) : Inv cfg t := by
  unfold Rollback.transmit at sent
  obtain ⟨⟨-, near, seen, -⟩, sent⟩ := ite_none_right_eq_some.mp sent
  cases size : s.send.connFifo (slotOf s.send.sub.base s.send.sub.transmitted) with
  | none => simp [size] at sent
  | some size' =>
    cases he : s.cts (s.send.fifoHead + 1) with
    | none => simp [he] at sent
    | some target =>
      simp only [size, he, some.injEq] at sent
      subst sent
      have link := h.link.transmit h.send near seen size he
      refine { h with send := h.send.transmit seen _ _, link, unread := ?_ }
      intro hu
      have old := h.unread hu
      rcases link.sender with ⟨old', -⟩ | hc
      · exact old'
      · have low := hc.head.1
        have gap := h.link.gap
        have same : s.send.fifoHead + 1 = (s.epoch cfg).recvFifoTail := Nat.le_antisymm old low
        rw [← same, he] at gap
        contradiction

theorem Inv.testSend {test : Outcome} (h : Inv cfg s) (tested : testSend cfg s test = some t) : Inv cfg t := by
  unfold Rollback.testSend at tested
  split at tested
  next pending =>
    cases test with
    | pending =>
      cases tested
      exact h
    | error =>
      cases tested
      exact h.of_sender { h.send with } ⟨rfl, rfl⟩ ⟨rfl, rfl⟩ rfl le_rfl
    | success =>
      obtain ⟨hl, ⟨⟩⟩ := ite_none_right_eq_some.mp tested
      exact { h with send := h.send.complete pending, link := h.link.complete h.send pending hl }
  · cases tested
    exact h

theorem epoch_of_last (cfg : Config β) {i : Nat} {e : SyncEntry} (entry : s.sync[i]? = some e)
    (last : ¬ i + 1 < s.sync.length) : s.epoch cfg = e := by
  have inside := (List.getElem?_eq_some_iff.mp entry).1
  have same : i = s.sync.length - 1 := by omega
  rw [same, ← List.getLast?_eq_getElem?] at entry
  simp [State.epoch, entry]

theorem Inv.rollBack (h : Inv cfg s) {entry : SyncEntry} (read : s.sync[s.send.syncFifoHead]? = some entry)
    (ahead : s.send.sub.done ≤ entry.restartPos) :
    Inv cfg { s with send := rollBack cfg s.requestSize entry s.send } := by
  have inside := (List.getElem?_eq_some_iff.mp read).1
  have old := h.unread inside
  obtain ⟨hs, hb⟩ := h.restarts entry (mem_of_getElem? read)
  obtain ⟨_, _, _, _, same, -⟩ := finishSteps_finished s.requestSize hs (entry.restartPos - s.send.sub.done)
    s.send.sub.done h.send.doneSlices s.send
  have produced' : (Rollback.rollBack cfg s.requestSize entry s.send).produced = s.send.produced := by
    rw [Rollback.rollBack, same]
  refine ⟨h.send.rollBack s.requestSize hs ahead hb, h.recv, ?_, ?_, ?_, h.older, ?_⟩
  · by_cases last : s.send.syncFifoHead + 1 < s.sync.length
    · exact h.link.outdated old (h.older _ _ read last)
    · have epoch := epoch_of_last cfg read last
      have link := h.link
      show Link cfg (s.epoch cfg) _
      rw [epoch] at link old ⊢
      exact link.followed old rfl ⟨rfl, rfl⟩
  · simp only [produced']
    exact h.produced
  · simp only [produced']
    exact h.restarts
  · intro hu
    simp only [Rollback.rollBack, same] at hu ⊢
    exact h.older _ _ read hu

/-- A pass of the sender that rolls back has completed no step past the restart position; what
lands is for a receive posted since the last rollback of the receiver. -/
def Orderly (cfg : Config β) (s : State β) : Action β → Prop
  | .send answers => ∀ entry ∈ s.rollsBackTo answers, s.send.sub.done ≤ entry.restartPos
  | .land idx => (s.epoch cfg).recvFifoTail < idx
  | .scribble idx _ => (s.epoch cfg).recvFifoTail < idx
  | _ => True

instance (cfg : Config β) (s : State β) (a : Action β) : Decidable (Orderly cfg s a) := by
  cases a <;> unfold Orderly <;> infer_instance

theorem Inv.sendProxyProgress {answers : SendAnswers} (h : Inv cfg s)
    (orderly : ∀ entry ∈ s.rollsBackTo answers, s.send.sub.done ≤ entry.restartPos)
    (passed : sendProxyProgress cfg s answers = some t) : Inv cfg t := by
  unfold Rollback.sendProxyProgress at passed
  split at passed
  · cases passed
    exact h
  cases entry : s.rollsBackTo answers with
  | some entry' =>
    simp only [entry, some.injEq] at passed
    subst passed
    have ahead := orderly entry' entry
    obtain ⟨-, entry⟩ := ite_none_right_eq_some.mp entry
    exact h.rollBack entry ahead
  | none =>
    simp only [entry] at passed
    split at passed
    · cases passed
      exact h
    split at passed
    next hi =>
      cases passed
      exact h.of_sender (h.send.post hi.2) ⟨rfl, rfl⟩ ⟨rfl, rfl⟩ rfl le_rfl
    cases sent : Rollback.transmit cfg s answers.cts with
    | some s' =>
      simp only [sent, some.injEq] at passed
      subst passed
      exact h.transmit sent
    | none =>
      simp only [sent] at passed
      exact h.testSend passed

theorem Inv.drain (h : Inv cfg s) (flushed : Bool) :
    Inv cfg { s with recv := drain cfg s.recv flushed } := by
  have same : (Rollback.drain cfg s.recv flushed).sub.posted = s.recv.sub.posted ∧
      (Rollback.drain cfg s.recv flushed).sub.received = s.recv.sub.received ∧
      (Rollback.drain cfg s.recv flushed).fifoTail = s.recv.fifoTail ∧
      (Rollback.drain cfg s.recv flushed).requests = s.recv.requests ∧
      (Rollback.drain cfg s.recv flushed).buffer = s.recv.buffer := by
    unfold Rollback.drain
    split
    · exact ⟨rfl, rfl, rfl, rfl, rfl⟩
    · obtain ⟨_, hm, -⟩ := doneSub_moves s.recv.head h.recv.sentSlices h.recv.doneSlices
        h.recv.behind
      simp [hm]
  obtain ⟨hp, hr, tail, hre, buffer⟩ := same
  refine { h with
    recv := h.recv.drain flushed, link := h.link.of_receiver ⟨hp, hr⟩ ⟨tail, hre, buffer⟩, produced := ?_ }
  simp only [hr]
  exact h.produced

theorem Inv.receive (h : Inv cfg s) (pending : s.recv.sub.received < s.recv.sub.posted)
    (landed : landedAt s.wire (s.recv.requests (s.recv.sub.received % ncclSteps)) = true) :
    Inv cfg { s with recv := { s.recv with
      sub := { s.recv.sub with received := s.recv.sub.received + cfg.sliceSteps } } } := by
  obtain ⟨idx, m, low, here, sent, landed'⟩ := h.link.arrived h.recv pending landed
  obtain ⟨high, carries⟩ := h.link.wire idx m low sent
  have data := carries.landed landed' (by omega)
  have before := h.link.step_lt_sent low high
  have produced := h.send.behind
  rw [here] at data
  refine { h with
    recv := h.recv.receive pending data, link := h.link.receive h.recv low here sent landed', produced := ?_ }
  simp only
  omega

theorem Inv.rollBackRecv (h : Inv cfg s) : Inv cfg (rollBackRecv s) := by
  have epoch : (Rollback.rollBackRecv s).epoch cfg = ⟨s.recv.fifoTail + 1000, s.recv.sub.received⟩ := by
    simp [State.epoch, Rollback.rollBackRecv]
  have link := h.link.rollBackRecv h.recv
  have tail := h.link.tail
  refine ⟨h.send, h.recv.rollBack _, epoch ▸ link, h.produced, ?_, ?_, ?_⟩
  · exact forall_mem_append.mpr ⟨h.restarts, forall_mem_singleton.mpr ⟨h.recv.receivedSlices, h.produced⟩⟩
  · intro i e entry before
    simp only [Rollback.rollBackRecv, length_append, length_singleton] at before
    simp only [Rollback.rollBackRecv] at entry
    rw [getElem?_append_left (by omega)] at entry
    rw [epoch]
    by_cases last : i + 1 < s.sync.length
    · have := h.older i e entry last
      simp only
      omega
    · rw [epoch_of_last cfg entry last] at tail
      simp only
      omega
  · intro _
    rw [epoch]
    rcases h.link.sender with ⟨_, -⟩ | hc
    · simp only [Rollback.rollBackRecv]
      omega
    · have := hc.head.2
      simp only [Rollback.rollBackRecv]
      omega

theorem Inv.recvProxyProgress {answers : RecvAnswers} (h : Inv cfg s)
    (passed : recvProxyProgress cfg s answers = some t) : Inv cfg t := by
  unfold Rollback.recvProxyProgress at passed
  split at passed
  next he =>
    obtain ⟨more, hi, -⟩ := he
    cases passed
    exact { h with recv := h.recv.post more hi _ _ _, link := h.link.postRecv h.recv hi }
  · split at passed
    next pending =>
      cases test : answers.test with
      | pending =>
        simp only [test, some.injEq] at passed
        subst passed
        exact h.drain _
      | error =>
        simp only [test, some.injEq] at passed
        subst passed
        exact h.rollBackRecv
      | success =>
        simp only [test] at passed
        obtain ⟨hl, ⟨⟩⟩ := ite_none_right_eq_some.mp passed
        exact h.receive pending hl
    · cases passed
      exact h.drain _

theorem Inv.deliver (h : Inv cfg s) {idx : Nat} {m : Message} (low : (s.epoch cfg).recvFifoTail < idx)
    (sent : s.wire idx = some m) (unlanded : m.landed = false) {bytes : List β} {landed : Bool}
    (whole : landed = true → bytes = cfg.data ((s.epoch cfg).step cfg.sliceSteps idx)) :
    Inv cfg (s.deliver idx m bytes landed) :=
  { h with
    recv := h.recv.deliver h.link low sent unlanded bytes landed
    link := h.link.deliver h.recv low sent unlanded whole }

theorem Inv.whole (h : Inv cfg s) {idx : Nat} {m : Message} (low : (s.epoch cfg).recvFifoTail < idx)
    (sent : s.wire idx = some m) (unlanded : m.landed = false) :
    (s.send.buffer m.source).take m.size = cfg.data ((s.epoch cfg).step cfg.sliceSteps idx) := by
  obtain ⟨high, carries⟩ := h.link.wire idx m low sent
  have before := h.link.step_lt_sent low high
  have behind := h.send.behind
  have positive := cfg.positive
  rw [carries.source, carries.size, h.send.data _ (dvd_step h.link.restart.1 idx)
    (carries.kept unlanded) (by omega), take_length]

theorem inv_step (s : State β) (a : Action β) (t : State β) (h : Inv cfg s) (orderly : Orderly cfg s a)
    (stepped : step cfg s a = some t) : Inv cfg t := by
  cases a with
  | send answers => exact h.sendProxyProgress orderly stepped
  | recv answers => exact h.recvProxyProgress stepped
  | gpuBegin bytes =>
    obtain ⟨send, hb, rfl⟩ := map_eq_some_iff.mp stepped
    have inv := h.send.gpuBegin hb
    obtain ⟨-, ⟨⟩⟩ := ite_none_right_eq_some.mp hb
    exact h.of_sender inv ⟨rfl, rfl⟩ ⟨rfl, rfl⟩ rfl le_rfl
  | gpuEnd =>
    obtain ⟨send, he, rfl⟩ := map_eq_some_iff.mp stepped
    have inv := h.send.gpuEnd he
    obtain ⟨-, ⟨⟩⟩ := ite_none_right_eq_some.mp he
    exact h.of_sender inv ⟨rfl, rfl⟩ ⟨rfl, rfl⟩ rfl (Nat.le_add_right _ _)
  | gpuConsume steps =>
    cases stepped
    exact { h with recv := h.recv.consume steps, link := h.link.of_receiver ⟨rfl, rfl⟩ ⟨rfl, rfl, rfl⟩ }
  | land idx =>
    simp only [step] at stepped
    cases sent : s.wire idx with
    | none => simp [sent] at stepped
    | some m =>
      simp only [sent] at stepped
      obtain ⟨hu, ⟨⟩⟩ := ite_none_left_eq_some.mp stepped
      exact h.deliver orderly sent (by simpa using hu)
        fun _ => h.whole orderly sent (by simpa using hu)
  | scribble idx bytes =>
    simp only [step] at stepped
    cases sent : s.wire idx with
    | none => simp [sent] at stepped
    | some m =>
      simp only [sent] at stepped
      obtain ⟨hu, ⟨⟩⟩ := ite_none_left_eq_some.mp stepped
      exact h.deliver orderly sent (by simpa using hu) (by simp)

theorem Inv.delivered (h : Inv cfg s) : Delivered cfg s := by
  refine ⟨h.recv.log, ?_⟩
  intro k slice published unconsumed
  apply h.recv.data k slice
  · rcases h.recv.consumed with _ | _
    · omega
    · by_contra before
      have := slice_le slice h.recv.doneSlices (by omega)
      omega
  · exact lt_of_lt_of_le published h.recv.flushed

/-- In an orderly run the slices published are the sender's, each once, in order and with its bytes. -/
theorem published_in_order (cfg : Config β) (actions : List (Action β)) (s : State β)
    (orderly : Meets (step cfg) (Orderly cfg) (initial cfg) actions)
    (ran : run (step cfg) (initial cfg) actions = some s) : Delivered cfg s :=
  (run_invariant (Inv cfg) inv_step actions (inv_initial cfg) orderly ran).delivered

/- Ten steps in slices of two over dedicated buffers; the bytes of a slice are its first step. -/
def tenSteps : Config Nat where
  nsteps := 10
  sliceSteps := 2
  protocol := .simple
  useGdr := true
  shared := false
  sendBase := 0
  sendReg := false
  nbytes := 10
  recvBase := 0
  recvReg := false
  data := fun step => [step]
  fifo := 0
  sendHead := 0
  recvTail := 0
  positive := Nat.two_pos
  aligned := by decide
  whole := by decide
  credits := by decide
  tails := by decide

def recvPass (test : Outcome) : Action Nat := .recv ⟨true, test, true⟩

def sendPass (cts : Bool) (test : Outcome) : Action Nat := .send ⟨true, cts, test⟩

/- Both sides have filled their buffers and the first slice has landed. -/
def firstLanded : List (Action Nat) :=
  replicate 4 (recvPass .pending) ++ replicate 4 (sendPass false .pending) ++
    [.gpuBegin [], .gpuEnd, .gpuBegin [], .gpuEnd, .gpuBegin [], .gpuEnd, .gpuBegin [], .gpuEnd] ++
    [sendPass true .pending, .land 1]

/- The receive of the first slice fails and the sender sends it again. -/
def sentAgain : List (Action Nat) :=
  [recvPass .error, sendPass false .pending] ++ replicate 4 (recvPass .pending) ++
    [sendPass true .pending, .land 1005, recvPass .success, recvPass .pending]

theorem first_slice_sent_again : ∃ s,
    run (step tenSteps) (initial tenSteps) (firstLanded ++ sentAgain) = some s ∧
      s.recv.published = [(0, [0])] ∧ Delivered tenSteps s := by
  obtain ⟨s, ran, hf⟩ := run_reaches (step tenSteps) (initial tenSteps)
    (firstLanded ++ sentAgain) (fun s => s.recv.published = [(0, [0])]) (by decide +kernel)
  exact ⟨s, ran, hf,
    published_in_order tenSteps _ s (by decide +kernel) ran⟩

/- The same, but the sender has polled its completion and the GPU has filled the slot anew. -/
def slotReused : List (Action Nat) :=
  [sendPass false .success, .gpuBegin [], .gpuEnd]

theorem reused_slot_published : ∃ s,
    run (step tenSteps) (initial tenSteps) (firstLanded ++ slotReused ++ sentAgain) = some s ∧
      s.recv.published = [(0, [8])] ∧ ¬ Delivered tenSteps s := by
  obtain ⟨s, ran, hf⟩ := run_reaches (step tenSteps) (initial tenSteps)
    (firstLanded ++ slotReused ++ sentAgain) (fun s => s.recv.published = [(0, [8])])
    (by decide +kernel)
  have published := hf
  refine ⟨s, ran, published, fun hd => ?_⟩
  obtain ⟨n, -, log⟩ := hd.log
  rw [published] at log
  cases n with
  | zero => simp at log
  | succ n =>
    rw [range_succ_eq_map] at log
    have first := (cons.inj log).1
    simp [tenSteps] at first

end Vccl.Rollback
