import Vccl.Net.Counters

/-! The ring slots of the steps in flight. A step of a receive sub is in flight from its post
until the GPU has consumed it; positions past `nsteps` carry no step. -/
namespace Vccl.Net

open Transition

variable {cfg : Config}

theorem Config.depth_le (cfg : Config) : cfg.depth ≤ ncclSteps := Nat.min_le_left _ _

theorem ringSlots_differ (base : Nat) {lo hi i j : Nat} (window : hi ≤ lo + cfg.depth)
    (first : lo ≤ i) (before : i < j) (last : j < hi) :
    (base + i) % ncclSteps ≠ (base + j) % ncclSteps := by
  have shallow := cfg.depth_le
  apply Wrap.slots_differ <;> omega

theorem sharedSlot_sub {α : Type} {subs : List α} {a b : α} {s t i j : Nat} (length : subs.length = cfg.nsubs)
    (left : subs[s]? = some a) (right : subs[t]? = some b) (same : cfg.sharedSlot s i = cfg.sharedSlot t j) :
    s < cfg.nsubs ∧ s = t ∧ a = b := by
  obtain ⟨hs, -⟩ := List.getElem?_eq_some_iff.mp left
  obtain ⟨ht, -⟩ := List.getElem?_eq_some_iff.mp right
  rw [length] at hs ht
  have sub := congrArg (· % cfg.nsubs) same
  obtain rfl : s = t := by simpa [Config.sharedSlot, Nat.mod_eq_of_lt hs, Nat.mod_eq_of_lt ht] using sub
  exact ⟨hs, rfl, Option.some.inj (left.symm.trans right)⟩

theorem sharedSlot_step {s lo hi i j : Nat} (sub : s < cfg.nsubs) (window : hi ≤ lo + cfg.depth)
    (left : lo ≤ i ∧ i < hi) (right : lo ≤ j ∧ j < hi)
    (same : cfg.sharedSlot s i = cfg.sharedSlot s j) : i = j := by
  have steps : i % cfg.depth = j % cfg.depth := by
    have scaled : i % cfg.depth * cfg.nsubs = j % cfg.depth * cfg.nsubs := Nat.add_right_cancel same
    exact Nat.eq_of_mul_eq_mul_right (Nat.zero_lt_of_lt sub) scaled
  exact Wrap.slot_inj steps (by omega) (by omega)

structure SendCounters (cfg : Config) (args : SendArgs) : Prop where
  counters : ∀ sub ∈ args.subs, sub.done ≤ sub.transmitted ∧ sub.transmitted ≤ sub.posted ∧
    sub.posted ≤ sub.done + cfg.depth
  slots : ∀ sub ∈ args.subs, ∀ i j, sub.done ≤ i → i < j → j < sub.posted →
    (sub.base + i) % ncclSteps ≠ (sub.base + j) % ncclSteps
  sharedSlots : ∀ s t a b, args.subs[s]? = some a → args.subs[t]? = some b →
    ∀ i j, a.done ≤ i ∧ i < a.posted → b.done ≤ j ∧ j < b.posted →
      cfg.sharedSlot s i = cfg.sharedSlot t j → s = t ∧ i = j
  finished : args.done = args.subs.countP fun sub => decide (sub.done = sub.nsteps)

structure RecvCounters (cfg : Config) (args : RecvArgs) : Prop where
  counters : ∀ g ∈ args.groups, ∀ sub ∈ g, sub.done ≤ sub.transmitted ∧
    sub.transmitted ≤ sub.received ∧ sub.received ≤ sub.posted ∧
    min sub.posted sub.nsteps ≤ sub.done + cfg.depth ∧ sub.posted ≤ sub.transmitted + cfg.depth
  lockStep : ∀ g ∈ args.groups, ∀ a ∈ g, ∀ b ∈ g,
    a.posted = b.posted ∧ a.received = b.received ∧ a.transmitted = b.transmitted
  slots : ∀ g ∈ args.groups, ∀ sub ∈ g, ∀ i j, sub.done ≤ i → i < j →
    j < min sub.posted sub.nsteps → (sub.base + i) % ncclSteps ≠ (sub.base + j) % ncclSteps
  /-- The requests of a group, by step; `irecv` and `iflush` requests share the ring. -/
  requests : ∀ g ∈ args.groups, ∀ sub ∈ g, ∀ i j, sub.transmitted ≤ i → i < j → j < sub.posted →
    i % ncclSteps ≠ j % ncclSteps
  sharedSlots : ∀ s t a b, args.groups.flatten[s]? = some a → args.groups.flatten[t]? = some b →
    ∀ i j, a.done ≤ i ∧ i < min a.posted a.nsteps → b.done ≤ j ∧ j < min b.posted b.nsteps →
      cfg.sharedSlot s i = cfg.sharedSlot t j → s = t ∧ i = j
  finished : args.done = args.groups.flatten.countP fun sub => decide (sub.done = sub.nsteps)

theorem SendInv.toCounters {args : SendArgs} (h : SendInv cfg args) : SendCounters cfg args := by
  refine ⟨?_, ?_, ?_, h.counted⟩
  · intro sub mem
    have inv := h.subs sub mem
    exact ⟨inv.completed, inv.sent, inv.depth⟩
  · intro sub mem i j first before last
    exact ringSlots_differ sub.base (h.subs sub mem).depth first before last
  intro s t a b left right i j inA inB same
  obtain ⟨hb, rfl, rfl⟩ := sharedSlot_sub h.length left right same
  have inv := h.subs a (List.mem_of_getElem? left)
  exact ⟨rfl, sharedSlot_step hb inv.depth inA inB same⟩

theorem RecvInv.toCounters {args : RecvArgs} (h : RecvInv cfg args) : RecvCounters cfg args := by
  refine ⟨?_, ?_, ?_, ?_, ?_, h.counted⟩
  · intro g here sub mem
    obtain ⟨P, R, T, inv⟩ := h.groups g here
    obtain ⟨rfl, rfl, rfl, hbe, depth, _⟩ := inv.subs sub mem
    exact ⟨hbe, inv.flushed, inv.arrived, depth, inv.depth⟩
  · intro g here a memberA b memberB
    obtain ⟨P, R, T, inv⟩ := h.groups g here
    have left := inv.subs a memberA
    have right := inv.subs b memberB
    exact ⟨left.posted.trans right.posted.symm, left.received.trans right.received.symm,
      left.transmitted.trans right.transmitted.symm⟩
  · intro g here sub mem i j first before last
    obtain ⟨P, R, T, inv⟩ := h.groups g here
    obtain ⟨rfl, rfl, rfl, _, depth, _⟩ := inv.subs sub mem
    exact ringSlots_differ sub.base depth first before last
  · intro g here sub mem i j first before last
    obtain ⟨P, R, T, inv⟩ := h.groups g here
    obtain ⟨rfl, rfl, rfl, _⟩ := inv.subs sub mem
    simpa using ringSlots_differ 0 inv.depth first before last
  · intro s t a b left right i j inA inB same
    obtain ⟨hb, rfl, rfl⟩ := sharedSlot_sub h.length left right same
    obtain ⟨g, here, mem⟩ := List.mem_flatten.mp (List.mem_of_getElem? left)
    obtain ⟨P, R, T, inv⟩ := h.groups g here
    obtain ⟨rfl, rfl, rfl, _, depth, _⟩ := inv.subs a mem
    exact ⟨rfl, sharedSlot_step hb depth inA inB same⟩

theorem progress_counters (sendCfg recvCfg : Config) (sendOp : SendOp sendCfg)
    (recvOp : RecvOp recvCfg) :
    (∀ args, Reachable (sendStep sendCfg) sendOp.start args →
      SendCounters sendCfg args) ∧
    ∀ args, Reachable (recvStep recvCfg) recvOp.start args →
      RecvCounters recvCfg args := by
  constructor
  · intro args hr
    exact (send_reachable_inv sendOp hr).toCounters
  · intro args hr
    exact (recv_reachable_inv recvOp hr).toCounters

def twoSubs : Config where
  sliceSteps := 1
  nsubs := 2
  positive := Nat.one_pos
  aligned := one_dvd _

def shortSend : SendOp twoSubs where
  subs := [(1, 0), (10, 0)]
  count := rfl
  steps := by decide

def shortRecv : RecvOp twoSubs where
  groups := [[(1, 0), (10, 0)]]
  count := rfl
  steps := by decide

def answerRecv (head : Nat → Nat) : RecvAnswers :=
  ⟨fun _ _ => true, fun _ => true, fun _ => true, fun _ => true, fun _ i => head i⟩

def slowGpu : List RecvAnswers :=
  List.replicate 24 (answerRecv fun _ => 0) ++ [answerRecv (fun i => i), answerRecv (fun i => i)]

/-- A sub of one step is posted nine times while unfinished: its group runs on. -/
theorem short_sub_posted_past_depth :
    ∃ args, Reachable (recvStep twoSubs) shortRecv.start args ∧
      ∃ g ∈ args.groups, ∃ sub ∈ g, sub.done ≠ sub.nsteps ∧
        ¬ sub.posted ≤ sub.done + twoSubs.depth := by
  obtain ⟨args, ran, hf⟩ := run_reaches (recvStep twoSubs) shortRecv.start slowGpu
    (fun args => ∃ g ∈ args.groups, ∃ sub ∈ g, sub.done ≠ sub.nsteps ∧ ¬ sub.posted ≤ sub.done + twoSubs.depth)
    (by decide +kernel)
  exact ⟨args, ⟨slowGpu, ran⟩, hf⟩

theorem short_ops_counters :
    (∃ args, run (sendStep twoSubs) shortSend.start [fun _ => ⟨true, true, true⟩] =
      some args ∧ SendCounters twoSubs args) ∧
    ∃ args, run (recvStep twoSubs) shortRecv.start slowGpu = some args ∧
      RecvCounters twoSubs args := by
  obtain ⟨args, ran, _⟩ := run_reaches (recvStep twoSubs) shortRecv.start slowGpu (fun _ => True) (by decide +kernel)
  exact ⟨⟨_, rfl, (progress_counters twoSubs twoSubs shortSend shortRecv).1 _
      ⟨[fun _ => ⟨true, true, true⟩], rfl⟩⟩,
    args, ran, (progress_counters twoSubs twoSubs shortSend shortRecv).2 args ⟨slowGpu, ran⟩⟩

end Vccl.Net
