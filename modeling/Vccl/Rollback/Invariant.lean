import Vccl.Rollback.Model
import Vccl.Lib.Chunks
import Vccl.Lib.Wrap

/-! The invariant behind the delivery of slices. The sender keeps every slice it has not completed;
the messages that may land are those for receives posted since the last rollback of the receiver,
and an `idx` of that time stands for the same step at both ends. -/
namespace Vccl.Rollback

open Function
open Net (ncclSteps SendSub RecvSub)
open Chunks (slice_le)

variable {β : Type} {cfg : Config β}

theorem net_depth (cfg : Config β) : cfg.net.depth = ncclSteps := by
  simp [Config.net, Net.Config.depth, Net.maxDepth, ncclSteps, Net.ncclSharedSteps]

theorem slotOf_ne (base : Nat) {i j : Nat} (before : i < j) (near : j < i + ncclSteps) :
    slotOf base i ≠ slotOf base j :=
  Wrap.slots_differ (by omega) (by omega)

theorem region_ne (reg : Bool) (base : Nat) {i j : Nat} (different : i ≠ j)
    (left : i < j + ncclSteps) (right : j < i + ncclSteps) : region reg base i ≠ region reg base j := by
  cases reg with
  | true => simpa [region] using different
  | false =>
    simp only [region, Bool.false_eq_true, if_false, ne_eq, Region.slot.injEq]
    rcases Nat.lt_or_gt_of_ne different with hb | ha
    · exact slotOf_ne base hb right
    · exact (slotOf_ne base ha left).symm

/-- The step of the receive with this `idx`, if no rollback follows the one of the entry. -/
def SyncEntry.step (e : SyncEntry) (slice idx : Nat) : Nat :=
  e.restartPos + slice * (idx - (e.recvFifoTail + 1))

section Steps

variable {e : SyncEntry} {slice : Nat}

theorem step_first : e.step slice (e.recvFifoTail + 1) = e.restartPos := by
  simp [SyncEntry.step]

theorem step_next {idx : Nat} (inside : e.recvFifoTail < idx) :
    e.step slice (idx + 1) = e.step slice idx + slice := by
  unfold SyncEntry.step
  have split : idx + 1 - (e.recvFifoTail + 1) = idx - (e.recvFifoTail + 1) + 1 := by omega
  rw [split, Nat.mul_succ, Nat.add_assoc]

theorem step_lt {i j : Nat} (inside : e.recvFifoTail < i) (before : i < j) :
    e.step slice i + slice ≤ e.step slice j := by
  rw [← step_next inside]
  exact Nat.add_le_add_left (Nat.mul_le_mul_left _ (by omega)) _

theorem step_inj (positive : 0 < slice) {i j : Nat} (left : e.recvFifoTail < i)
    (right : e.recvFifoTail < j) (same : e.step slice i = e.step slice j) : i = j := by
  rcases Nat.lt_trichotomy i j with hb | he | ha
  · have : e.step slice i + slice ≤ e.step slice j := step_lt left hb
    omega
  · exact he
  · have : e.step slice j + slice ≤ e.step slice i := step_lt right ha
    omega

theorem dvd_step (restart : slice ∣ e.restartPos) (idx : Nat) : slice ∣ e.step slice idx :=
  Nat.dvd_add restart (Nat.dvd_mul_right _ _)

theorem exists_idx {k last : Nat} (restart : slice ∣ e.restartPos) (slices : slice ∣ k)
    (low : e.restartPos ≤ k) (high : k < e.step slice (last + 1)) :
    ∃ idx, e.recvFifoTail < idx ∧ idx ≤ last ∧ e.step slice idx = k := by
  obtain ⟨n, _⟩ := Nat.dvd_sub slices restart
  have exact' : e.step slice (e.recvFifoTail + 1 + n) = k := by
    unfold SyncEntry.step
    rw [Nat.add_sub_cancel_left]
    omega
  refine ⟨e.recvFifoTail + 1 + n, by omega, ?_, exact'⟩
  by_contra past
  have : e.step slice (last + 1) ≤ e.step slice (e.recvFifoTail + 1 + n) := by
    exact Nat.add_le_add_left (Nat.mul_le_mul_left _ (by omega)) _
  omega

end Steps

structure SendInv (cfg : Config β) (s : Sender β) : Prop where
  base : s.sub.base = cfg.sendBase
  postedSlices : cfg.sliceSteps ∣ s.sub.posted
  sentSlices : cfg.sliceSteps ∣ s.sub.transmitted
  doneSlices : cfg.sliceSteps ∣ s.sub.done
  producedSlices : cfg.sliceSteps ∣ s.produced
  sent : s.sub.done ≤ s.sub.transmitted
  behind : s.sub.transmitted ≤ s.produced
  credit : s.sendHead ≤ cfg.sendBase + s.sub.done
  ahead : s.produced ≤ s.sub.done + ncclSteps
  room : s.filling = true → s.produced + cfg.sliceSteps ≤ s.sub.done + ncclSteps
  tail : s.recvTail ≤ cfg.sendBase + s.produced
  flags : ∀ r k, s.flags r = cfg.sendBase + k + 1 → k < s.produced
  data : ∀ k, cfg.sliceSteps ∣ k → s.sub.done ≤ k → k < s.produced →
    s.buffer (cfg.source k) = cfg.data k
  sizes : ∀ k, cfg.sliceSteps ∣ k → s.sub.done ≤ k → k < s.produced ∨ s.filling = true ∧ k = s.produced →
    ∀ n, s.connFifo (slotOf cfg.sendBase k) = some n → n = (cfg.data k).length

theorem sendInv_initial (cfg : Config β) : SendInv cfg (initial cfg).send := by
  refine ⟨rfl, ⟨0, rfl⟩, ⟨0, rfl⟩, ⟨0, rfl⟩, ⟨0, rfl⟩, le_rfl, le_rfl, ?_, Nat.zero_le _, ?_, ?_, ?_,
    ?_, ?_⟩
  · simpa [initial] using cfg.credits
  · intro hf
    simp [initial] at hf
  · simpa [initial] using cfg.tails
  · intro r k flag
    simp [initial] at flag
  · intro k _ _ before
    simp [initial] at before
  · intro k _ _ _ n size
    simp [initial] at size

variable {s : Sender β}

theorem SendInv.post (h : SendInv cfg s) (inside : s.sub.posted < s.sub.done + cfg.net.depth) :
    SendInv cfg (post cfg s) := by
  have depth := net_depth cfg
  have room : s.sub.posted + cfg.sliceSteps ≤ s.sub.done + ncclSteps :=
    slice_le h.postedSlices (Nat.dvd_add h.doneSlices cfg.aligned) (by omega)
  have credit := h.credit
  refine { h with postedSlices := Nat.dvd_add h.postedSlices (Nat.dvd_refl _), credit := ?_ }
  simp only [Rollback.post]
  split
  · have base := h.base
    omega
  · exact credit

theorem SendInv.produced_of_ready (h : SendInv cfg s) (seen : ready cfg s = true) :
    s.sub.transmitted < s.produced := by
  have tail := h.tail
  have base := h.base
  have flagged : s.flags (cfg.source s.sub.transmitted) = s.sub.base + s.sub.transmitted + 1 →
      s.sub.transmitted < s.produced := by
    rw [base]
    exact h.flags _ _
  unfold ready at seen
  cases hp : cfg.protocol with
  | simple =>
    simp only [hp, decide_eq_true_eq] at seen
    omega
  | ll128 =>
    simp only [hp, Bool.and_eq_true, decide_eq_true_eq] at seen
    omega
  | ll =>
    simp only [hp, decide_eq_true_eq] at seen
    exact flagged seen

theorem SendInv.transmit (h : SendInv cfg s) (seen : ready cfg s = true) (fifoHead : Nat) (requests : Nat → Nat) :
    SendInv cfg { s with
      sub := { s.sub with transmitted := s.sub.transmitted + cfg.sliceSteps }
      fifoHead
      requests } := by
  have next := slice_le h.sentSlices h.producedSlices (h.produced_of_ready seen)
  have sent := h.sent
  exact { h with
    sentSlices := Nat.dvd_add h.sentSlices (Nat.dvd_refl _)
    sent := by simp only; omega
    behind := next }

variable {t : Sender β}

theorem SendInv.forward (h : SendInv cfg s) {done : Nat} (slices : cfg.sliceSteps ∣ done) (ahead : s.sub.done ≤ done)
    (sent : done ≤ t.sub.transmitted) (sentSlices : cfg.sliceSteps ∣ t.sub.transmitted)
    (behind : t.sub.transmitted ≤ s.produced)
    (same : t.sub.done = done ∧ t.sub.base = s.sub.base ∧ t.sub.posted = s.sub.posted)
    (gpu : t.produced = s.produced ∧ t.filling = s.filling ∧ t.recvTail = s.recvTail ∧
      t.flags = s.flags ∧ t.buffer = s.buffer) (credit : t.sendHead ≤ cfg.sendBase + done)
    (sizes : ∀ slot n, t.connFifo slot = some n → s.connFifo slot = some n) : SendInv cfg t := by
  rcases t with ⟨⟨⟩⟩
  obtain ⟨rfl, rfl, rfl, rfl, rfl⟩ := gpu
  obtain ⟨rfl, rfl, rfl⟩ := same
  refine { h with
    sentSlices, doneSlices := slices, sent, behind, credit
    ahead := le_trans h.ahead (Nat.add_le_add_right ahead _)
    room := fun filling => le_trans (h.room filling) (Nat.add_le_add_right ahead _)
    data := fun k slice low => h.data k slice (le_trans ahead low), sizes := ?_ }
  intro k slice low here n size
  exact h.sizes k slice (le_trans ahead low) here n (sizes _ _ size)

theorem update_none_some {f : Nat → Option Nat} {slot i n : Nat}
    (size : update f slot none i = some n) : f i = some n := by
  by_cases here : i = slot
  · simp [here] at size
  · rwa [update_of_ne here] at size

theorem SendInv.complete (h : SendInv cfg s) (pending : s.sub.done < s.sub.transmitted) :
    SendInv cfg (complete cfg s) := by
  have next := slice_le h.doneSlices h.sentSlices pending
  refine h.forward (Nat.dvd_add h.doneSlices (Nat.dvd_refl _)) (by omega)
    next h.sentSlices h.behind ⟨rfl, rfl, rfl⟩ ⟨rfl, rfl, rfl, rfl, rfl⟩ ?_ ?_
  · have credit := h.credit
    have base := h.base
    simp only [Rollback.complete]
    split <;> push_cast <;> omega
  · intro slot n size
    exact update_none_some size

def Finished (limit : Nat) (s t : Sender β) : Prop :=
  ∃ nsteps nbytes connFifo sendHead, t = { s with sub := { s.sub with nsteps }, nbytes, connFifo, sendHead } ∧
    (sendHead = s.sendHead ∨ sendHead ≤ s.sub.base + limit) ∧
    ∀ slot n, connFifo slot = some n → s.connFifo slot = some n

theorem Finished.refl (limit : Nat) (s : Sender β) : Finished limit s s :=
  ⟨_, _, _, _, rfl, .inl rfl, fun _ _ size => size⟩

theorem Finished.trans {limit : Nat} {u : Sender β} (first : Finished limit s t) (second : Finished limit t u) :
    Finished limit s u := by
  obtain ⟨_, _, _, _, rfl, credit, sizes⟩ := first
  obtain ⟨_, _, _, _, rfl, credit', sizes'⟩ := second
  refine ⟨_, _, _, _, rfl, ?_, fun slot n size => sizes slot n (sizes' slot n size)⟩
  rcases credit' with same | hb
  · rw [same]
    exact credit
  · exact .inr hb

theorem finishStep_finished {limit size step : Nat} (inside : step + cfg.sliceSteps ≤ limit) :
    Finished limit s (finishStep cfg size step s) := by
  unfold finishStep
  simp only
  repeat' split
  all_goals refine ⟨_, _, _, _, rfl, ?_, ?_⟩
  all_goals first
    | exact .inl rfl
    | exact fun _ _ size => size
    | exact fun _ _ => update_none_some
    | simp only; omega

theorem finishSteps_finished (sizes : Nat → Nat) {restartPos : Nat} (restart : cfg.sliceSteps ∣ restartPos)
    (fuel step : Nat) (slices : cfg.sliceSteps ∣ step) (s : Sender β) :
    Finished restartPos s (finishSteps cfg sizes restartPos fuel step s) := by
  induction fuel generalizing step s with
  | zero => exact Finished.refl _ _
  | succ fuel ih =>
    simp only [finishSteps]
    split
    next before =>
      exact (finishStep_finished (slice_le slices restart before)).trans
        (ih _ (Nat.dvd_add slices (Nat.dvd_refl _)) _)
    · exact Finished.refl _ _

theorem SendInv.rollBack (h : SendInv cfg s) (sizes : Nat → Nat) {entry : SyncEntry}
    (slices : cfg.sliceSteps ∣ entry.restartPos) (ahead : s.sub.done ≤ entry.restartPos)
    (behind : entry.restartPos ≤ s.produced) : SendInv cfg (rollBack cfg sizes entry s) := by
  obtain ⟨_, _, _, _, same, finished, hs⟩ :=
    finishSteps_finished sizes slices (entry.restartPos - s.sub.done) s.sub.done h.doneSlices s
  rw [Rollback.rollBack, same]
  refine h.forward slices ahead le_rfl slices behind ⟨rfl, rfl, rfl⟩ ⟨rfl, rfl, rfl, rfl, rfl⟩ ?_ hs
  have credit := h.credit
  have start := h.base
  rcases finished with _ | _
  all_goals
    simp only
    omega

theorem SendInv.gpuBegin {bytes : List β} (h : SendInv cfg s) (began : gpuBegin cfg bytes s = some t) :
    SendInv cfg t := by
  have credit := h.credit
  have positive := cfg.positive
  obtain ⟨⟨_, -, room⟩, began⟩ := Option.ite_none_right_eq_some.mp began
  have room' : s.produced + cfg.sliceSteps ≤ s.sub.done + ncclSteps := by omega
  cases began
  refine { h with room := fun _ => room', flags := ?_, data := ?_, sizes := ?_ }
  · intro r k flag
    by_cases here : r = cfg.source s.produced
    · simp [here] at flag
    · simp only [update_of_ne here] at flag
      exact h.flags r k flag
  · intro k slice low high
    simp only at low high ⊢
    have other : cfg.source k ≠ cfg.source s.produced := region_ne _ _ (by omega) (by omega) (by omega)
    rw [update_of_ne other]
    exact h.data k slice low high
  · intro k slice low here n size
    simp only at low here size
    rcases here with hb | ⟨-, rfl⟩
    · have other : slotOf cfg.sendBase k ≠ slotOf cfg.sendBase s.produced :=
        slotOf_ne _ hb (by omega)
      rw [update_of_ne other] at size
      exact h.sizes k slice low (.inl hb) n size
    · simpa using size.symm

theorem SendInv.gpuEnd (h : SendInv cfg s) (ended : gpuEnd cfg s = some t) :
    SendInv cfg t := by
  have positive := cfg.positive
  have behind := h.behind
  obtain ⟨hf, ended⟩ := Option.ite_none_right_eq_some.mp ended
  have room := h.room hf
  cases ended
  refine { h with
    producedSlices := Nat.dvd_add h.producedSlices (Nat.dvd_refl _)
    behind := by simp only; omega
    ahead := room
    room := by simp
    tail := by simp only; omega
    flags := ?_
    data := ?_
    sizes := ?_ }
  · intro r k flag
    by_cases here : r = cfg.source s.produced
    · simp only [here, update_self] at flag
      simp only
      omega
    · simp only [update_of_ne here] at flag
      have := h.flags r k flag
      simp only
      omega
  · intro k slice low high
    simp only at low high ⊢
    rcases Nat.lt_or_ge k s.produced with hb | ha
    · have other : cfg.source k ≠ cfg.source s.produced :=
        region_ne _ _ (by omega) (by omega) (by omega)
      rw [update_of_ne other]
      exact h.data k slice low hb
    · have same : k = s.produced := by
        by_contra different
        have := slice_le h.producedSlices slice (by omega)
        omega
      rw [same, update_self]
  · intro k slice low here n size
    simp only [Bool.false_eq_true, false_and, or_false] at low here size
    refine h.sizes k slice low ?_ n size
    rcases Nat.lt_or_ge k s.produced with hb | ha
    · exact .inl hb
    · right
      refine ⟨hf, ?_⟩
      by_contra different
      have := slice_le h.producedSlices slice (by omega)
      omega

end Vccl.Rollback
