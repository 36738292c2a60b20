import Vccl.Lib.Chunks
import Vccl.Net.Progress
import Vccl.Lib.Wrap

namespace Vccl.Net

open List Transition
open Chunks (slice_le Tally)

section Send

variable {cfg : Config}

structure SendSubInv (cfg : Config) (sub : SendSub) : Prop where
  completed : sub.done ≤ sub.transmitted
  sent : sub.transmitted ≤ sub.posted
  depth : sub.posted ≤ sub.done + cfg.depth
  postedSlices : cfg.sliceSteps ∣ sub.posted
  sentSlices : cfg.sliceSteps ∣ sub.transmitted
  doneSlices : cfg.sliceSteps ∣ sub.done

def SendSub.isDone (sub : SendSub) : Bool := decide (sub.done = sub.nsteps)

theorem sendSub_inv (answer : SendAnswer) {sub : SendSub} (h : SendSubInv cfg sub) :
    SendSubInv cfg (sendSub cfg answer sub).1 := by
  have limit : cfg.sliceSteps ∣ sub.done + cfg.depth := Nat.dvd_add h.doneSlices cfg.aligned
  unfold sendSub
  split
  · exact h
  split
  next room =>
    have fits := slice_le h.postedSlices limit room.2
    exact ⟨h.completed, Nat.le_add_right_of_le h.sent, fits,
      (Nat.dvd_add_self_right).mpr h.postedSlices, h.sentSlices, h.doneSlices⟩
  · split
    next _ ready =>
      have fits := slice_le h.sentSlices h.postedSlices ready.1
      exact ⟨Nat.le_add_right_of_le h.completed, fits, h.depth, h.postedSlices,
        (Nat.dvd_add_self_right).mpr h.sentSlices, h.doneSlices⟩
    · split
      next _ hc =>
        have fits := slice_le h.doneSlices h.sentSlices hc.1
        refine ⟨fits, h.sent, ?_, h.postedSlices, h.sentSlices,
          (Nat.dvd_add_self_right).mpr h.doneSlices⟩
        have depth := h.depth
        simp only
        omega
      · exact h

theorem sendSub_counts (cfg : Config) (answer : SendAnswer) (sub : SendSub) :
    Tally SendSub.isDone SendSub.nsteps [sub] [(sendSub cfg answer sub).1] (sendSub cfg answer sub).2 := by
  unfold sendSub
  split
  · exact ⟨rfl, rfl⟩
  rename_i hu
  split
  · exact ⟨rfl, rfl⟩
  split
  · exact ⟨rfl, rfl⟩
  split
  · apply Tally.single
    · rfl
    · simp only [SendSub.isDone]
      split <;> simp [*]
  · exact ⟨rfl, rfl⟩

theorem sendSubs_inv (answers : Nat → SendAnswer) (subs : List SendSub) (s : Nat)
    (h : ∀ sub ∈ subs, SendSubInv cfg sub) :
    (∀ sub ∈ (sendSubs cfg answers s subs).1, SendSubInv cfg sub) ∧
      Tally SendSub.isDone SendSub.nsteps subs (sendSubs cfg answers s subs).1 (sendSubs cfg answers s subs).2 := by
  induction subs generalizing s with
  | nil => exact ⟨by simp [sendSubs], rfl, rfl⟩
  | cons sub rest ih =>
    obtain ⟨first, later⟩ := forall_mem_cons.mp h
    obtain ⟨ho, ht⟩ := ih (s + 1) later
    exact ⟨forall_mem_cons.mpr ⟨sendSub_inv (answers s) first, ho⟩,
      (sendSub_counts cfg (answers s) sub).append ht⟩

structure SendInv (cfg : Config) (args : SendArgs) : Prop where
  subs : ∀ sub ∈ args.subs, SendSubInv cfg sub
  length : args.subs.length = cfg.nsubs
  counted : args.done = args.subs.countP SendSub.isDone

theorem sendStart_inv (op : SendOp cfg) : SendInv cfg op.start := by
  refine ⟨?_, by simp [SendOp.start, op.count], ?_⟩
  · intro sub mem
    obtain ⟨p, _, rfl⟩ := mem_map.mp mem
    exact ⟨le_rfl, le_rfl, Nat.zero_le _, dvd_zero _, dvd_zero _, dvd_zero _⟩
  refine (countP_eq_zero.mpr ?_).symm
  intro sub mem
  obtain ⟨p, here, rfl⟩ := mem_map.mp mem
  have some' := op.steps p here
  simp only [SendSub.isDone, decide_eq_true_eq]
  omega

variable {args : SendArgs}

theorem sendProxyProgress_inv (h : SendInv cfg args) (answers : Nat → SendAnswer) :
    SendInv cfg (sendProxyProgress cfg args answers) := by
  unfold sendProxyProgress
  split
  · exact h
  · obtain ⟨subs, ht⟩ := sendSubs_inv answers args.subs 0 h.subs
    exact ⟨subs, ht.length.trans h.length, by simp [ht.count, h.counted]⟩

theorem send_reachable_inv (op : SendOp cfg) (reached : Reachable (sendStep cfg) op.start args) :
    SendInv cfg args :=
  reachable_invariant (SendInv cfg) (sendStart_inv op)
    (fun _ answers _ h taken => Option.some.inj taken ▸ sendProxyProgress_inv h answers) reached

end Send

section Recv

variable {cfg : Config}

/-- `P`, `R`, `T` are the counters the subs of a group have in common. -/
structure RecvSubInv (cfg : Config) (P R T : Nat) (sub : RecvSub) : Prop where
  posted : sub.posted = P
  received : sub.received = R
  transmitted : sub.transmitted = T
  behind : sub.done ≤ T
  depth : min P sub.nsteps ≤ sub.done + cfg.depth
  slices : cfg.sliceSteps ∣ sub.done

structure GroupInv (cfg : Config) (P R T : Nat) (g : Group) : Prop where
  subs : ∀ sub ∈ g, RecvSubInv cfg P R T sub
  flushed : T ≤ R
  arrived : R ≤ P
  depth : P ≤ T + cfg.depth
  postedSlices : cfg.sliceSteps ∣ P
  receivedSlices : cfg.sliceSteps ∣ R
  flushedSlices : cfg.sliceSteps ∣ T

def RecvSub.isDone (sub : RecvSub) : Bool := decide (sub.done = sub.nsteps)

variable {g : Group}

theorem countPosts_room {ready : Nat → Bool} {i n : Nat} (counted : countPosts cfg ready i g n ≠ 0) :
    (∀ sub ∈ g, sub.posted < sub.nsteps → sub.posted < sub.done + cfg.depth) ∧
      (n = 0 → ∃ sub ∈ g, sub.posted < sub.nsteps) := by
  induction g generalizing i n with
  | nil => simp_all [countPosts]
  | cons sub rest ih =>
    simp only [countPosts] at counted
    split at counted
    next wanted =>
      split at counted
      · contradiction
      rename_i room
      have others : ∀ sub' ∈ rest, sub'.posted < sub'.nsteps →
          sub'.posted < sub'.done + cfg.depth := by
        split at counted
        all_goals exact (ih counted).1
      refine ⟨?_, fun _ => ⟨sub, by simp, wanted⟩⟩
      refine forall_mem_cons.mpr ⟨?_, others⟩
      intro hw
      omega
    next satisfied =>
      obtain ⟨others, exists'⟩ := ih counted
      refine ⟨?_, ?_⟩
      · refine forall_mem_cons.mpr ⟨?_, others⟩
        intro hw
        contradiction
      · intro zero
        obtain ⟨sub', mem, hw⟩ := exists' zero
        exact ⟨sub', by simp [mem], hw⟩

variable {answers : RecvAnswers} {s P R T : Nat} {g' : Group}

def LockStep (cfg : Config) (g : Group) : Prop := ∃ P R T, GroupInv cfg P R T g

def Advances (cfg : Config) (g g' : Group) : Prop := LockStep cfg g' ∧ Tally RecvSub.isDone RecvSub.nsteps g g' 0

theorem GroupInv.advances (h : GroupInv cfg P R T g) (p r t : Nat)
    (slices : cfg.sliceSteps ∣ p ∧ cfg.sliceSteps ∣ r ∧ cfg.sliceSteps ∣ t) (flushed : T + t ≤ R + r)
    (arrived : R + r ≤ P + p) (depth : P + p ≤ T + t + cfg.depth)
    (subs : ∀ sub ∈ g, min (P + p) sub.nsteps ≤ sub.done + cfg.depth) :
    Advances cfg g (g.map fun sub => { sub with
      posted := sub.posted + p, received := sub.received + r, transmitted := sub.transmitted + t }) := by
  refine ⟨⟨P + p, R + r, T + t, ?_, flushed, arrived, depth, Nat.dvd_add h.postedSlices slices.1,
    Nat.dvd_add h.receivedSlices slices.2.1, Nat.dvd_add h.flushedSlices slices.2.2⟩, ?_, ?_⟩
  · rw [forall_mem_map]
    intro sub mem
    obtain ⟨rfl, rfl, rfl, hb, -, hw⟩ := h.subs sub mem
    exact ⟨rfl, rfl, rfl, Nat.le_add_right_of_le hb, subs sub mem, hw⟩
  · rw [map_map]
    rfl
  · rw [countP_map]
    rfl

theorem postGroup_advances (answers : RecvAnswers) (s : Nat) (g g' : Group) (h : LockStep cfg g)
    (taken : postGroup cfg answers s g = some g') : Advances cfg g g' := by
  obtain ⟨P, R, T, h⟩ := h
  obtain ⟨room, ⟨⟩⟩ := Option.ite_none_right_eq_some.mp taken
  obtain ⟨ha, wanted⟩ := countPosts_room room.1
  have next : ∀ sub ∈ g, P < sub.nsteps → P + cfg.sliceSteps ≤ sub.done + cfg.depth := by
    intro sub mem hw
    have own := h.subs sub mem
    have below := ha sub mem (own.posted ▸ hw)
    exact slice_le h.postedSlices (Nat.dvd_add own.slices cfg.aligned) (own.posted ▸ below)
  apply h.advances cfg.sliceSteps 0 0 (by simp) h.flushed (Nat.le_add_right_of_le h.arrived)
  · obtain ⟨sub, mem, hw⟩ := wanted rfl
    have own := h.subs sub mem
    have bound := next sub mem (own.posted ▸ hw)
    have behind := own.behind
    omega
  · intro sub mem
    have depth := (h.subs sub mem).depth
    by_cases hw : P < sub.nsteps
    · have bound := next sub mem hw
      omega
    · omega

theorem testGroup_advances (answers : RecvAnswers) (s : Nat) (g g' : Group) (h : LockStep cfg g)
    (taken : testGroup cfg answers s g = some g') : Advances cfg g g' := by
  obtain ⟨P, R, T, h⟩ := h
  cases g with
  | nil => cases taken
  | cons first rest =>
    obtain ⟨hr, ⟨⟩⟩ := Option.ite_none_right_eq_some.mp taken
    have own := h.subs first (by simp)
    have below : R < P := own.received ▸ own.posted ▸ hr.1
    exact h.advances 0 cfg.sliceSteps 0 (by simp) (Nat.le_add_right_of_le h.flushed)
      (slice_le h.receivedSlices h.postedSlices below) h.depth fun sub mem => (h.subs sub mem).depth

theorem flushGroup_advances (answers : RecvAnswers) (s : Nat) (g g' : Group) (h : LockStep cfg g)
    (taken : flushGroup cfg answers s g = some g') : Advances cfg g g' := by
  obtain ⟨P, R, T, h⟩ := h
  cases g with
  | nil => cases taken
  | cons first rest =>
    obtain ⟨hr, ⟨⟩⟩ := Option.ite_none_right_eq_some.mp taken
    have own := h.subs first (by simp)
    have below : T < R := own.transmitted ▸ own.received ▸ hr.1
    have depth := h.depth
    exact h.advances 0 0 cfg.sliceSteps (by simp) (slice_le h.flushedSlices h.receivedSlices below)
      h.arrived (by omega) fun sub mem => (h.subs sub mem).depth

theorem phase_inv {act : Nat → Group → Option Group}
    (advances : ∀ s g g', LockStep cfg g → act s g = some g' → Advances cfg g g')
    (gs : List Group) (s : Nat) (h : ∀ g ∈ gs, LockStep cfg g) :
    (∀ g ∈ (phase act s gs).1, LockStep cfg g) ∧
      Tally RecvSub.isDone RecvSub.nsteps gs.flatten (phase act s gs).1.flatten 0 := by
  induction gs generalizing s with
  | nil => exact ⟨by simp [phase], rfl, rfl⟩
  | cons g rest ih =>
    obtain ⟨own, later⟩ := forall_mem_cons.mp h
    obtain ⟨ho, ht⟩ := ih (s + 1) later
    simp only [phase]
    split
    next g' taken =>
      obtain ⟨step, first⟩ := advances s g g' own taken
      exact ⟨forall_mem_cons.mpr ⟨step, ho⟩, first.append ht⟩
    · exact ⟨forall_mem_cons.mpr ⟨own, ho⟩, ht.behind g⟩

theorem advanceDone_inv {head : Nat} (slices : cfg.sliceSteps ∣ T) (fuel : Nat) {sub : RecvSub}
    (h : RecvSubInv cfg P R T sub) (unfinished : sub.done ≠ sub.nsteps) :
    RecvSubInv cfg P R T (advanceDone cfg head fuel sub).1 ∧
      Tally RecvSub.isDone RecvSub.nsteps [sub] [(advanceDone cfg head fuel sub).1] (advanceDone cfg head fuel sub).2 := by
  induction fuel generalizing sub with
  | zero => exact ⟨h, rfl, rfl⟩
  | succ fuel ih =>
    simp only [advanceDone]
    split
    next ready =>
      have below : sub.done < T := h.transmitted ▸ ready.2
      have fits := slice_le h.slices slices below
      have depth := h.depth
      have next : RecvSubInv cfg P R T { sub with done := sub.done + cfg.sliceSteps } :=
        ⟨h.posted, h.received, h.transmitted, fits, by simp only; omega,
          (Nat.dvd_add_self_right).mpr h.slices⟩
      split
      next last =>
        exact ⟨next, .single rfl (by simp [RecvSub.isDone, last, unfinished])⟩
      next more =>
        obtain ⟨inv, ht⟩ := ih next more
        have same : Tally RecvSub.isDone RecvSub.nsteps [sub] [{ sub with done := sub.done + cfg.sliceSteps }] 0 :=
          .single rfl (by simp_all [RecvSub.isDone])
        exact ⟨inv, same.trans ht⟩
    · exact ⟨h, rfl, rfl⟩

theorem doneSub_inv (head : Nat) (slices : cfg.sliceSteps ∣ T) {sub : RecvSub} (h : RecvSubInv cfg P R T sub) :
    RecvSubInv cfg P R T (doneSub cfg head sub).1 ∧
      Tally RecvSub.isDone RecvSub.nsteps [sub] [(doneSub cfg head sub).1] (doneSub cfg head sub).2 := by
  unfold doneSub
  split
  · exact ⟨h, rfl, rfl⟩
  next hu =>
    exact advanceDone_inv slices _ h hu

theorem doneGroup_inv (head : Nat → Nat) (slices : cfg.sliceSteps ∣ T) (g : Group) (i : Nat)
    (h : ∀ sub ∈ g, RecvSubInv cfg P R T sub) :
    (∀ sub ∈ (doneGroup cfg head i g).1, RecvSubInv cfg P R T sub) ∧
      Tally RecvSub.isDone RecvSub.nsteps g (doneGroup cfg head i g).1 (doneGroup cfg head i g).2 := by
  induction g generalizing i with
  | nil => exact ⟨by simp [doneGroup], rfl, rfl⟩
  | cons sub rest ih =>
    obtain ⟨here, later⟩ := forall_mem_cons.mp h
    obtain ⟨ho, ht⟩ := ih (i + 1) later
    obtain ⟨first, one⟩ := doneSub_inv (head i) slices here
    exact ⟨forall_mem_cons.mpr ⟨first, ho⟩, one.append ht⟩

theorem doneGroups_inv (head : Nat → Nat → Nat) (gs : List Group) (s : Nat)
    (h : ∀ g ∈ gs, LockStep cfg g) :
    (∀ g ∈ (doneGroups cfg head s gs).1, LockStep cfg g) ∧
      Tally RecvSub.isDone RecvSub.nsteps gs.flatten (doneGroups cfg head s gs).1.flatten
        (doneGroups cfg head s gs).2 := by
  induction gs generalizing s with
  | nil => exact ⟨by simp [doneGroups], rfl, rfl⟩
  | cons g rest ih =>
    obtain ⟨⟨P, R, T, inv⟩, later⟩ := forall_mem_cons.mp h
    obtain ⟨ho, ht⟩ := ih (s + 1) later
    obtain ⟨subs, first⟩ := doneGroup_inv (head s) inv.flushedSlices g 0 inv.subs
    exact ⟨forall_mem_cons.mpr ⟨⟨P, R, T, { inv with subs }⟩, ho⟩, first.append ht⟩

structure RecvInv (cfg : Config) (args : RecvArgs) : Prop where
  groups : ∀ g ∈ args.groups, LockStep cfg g
  length : args.groups.flatten.length = cfg.nsubs
  counted : args.done = args.groups.flatten.countP RecvSub.isDone

variable {args : RecvArgs}

theorem recvProxyProgress_inv (h : RecvInv cfg args) (answers : RecvAnswers) :
    RecvInv cfg (recvProxyProgress cfg args answers) := by
  obtain ⟨hg₁, tally₁⟩ := phase_inv (postGroup_advances answers) args.groups 0 h.groups
  obtain ⟨hg₂, tally₂⟩ := phase_inv (testGroup_advances answers) _ 0 hg₁
  obtain ⟨hg₃, tally₃⟩ := phase_inv (flushGroup_advances answers) _ 0 hg₂
  obtain ⟨hg₄, tally₄⟩ := doneGroups_inv answers.head _ 0 hg₃
  have tally₂ := tally₁.trans tally₂
  have tally₃ := tally₂.trans tally₃
  have tally₄ := tally₃.trans tally₄
  unfold recvProxyProgress
  split
  · exact h
  simp only
  split
  · exact ⟨hg₁, tally₁.length.trans h.length, h.counted.trans tally₁.count.symm⟩
  · split
    · exact ⟨hg₂, tally₂.length.trans h.length, h.counted.trans tally₂.count.symm⟩
    · split
      · exact ⟨hg₃, tally₃.length.trans h.length, h.counted.trans tally₃.count.symm⟩
      · exact ⟨hg₄, tally₄.length.trans h.length, by simp [h.counted, tally₄.count]⟩

theorem recvStart_inv (op : RecvOp cfg) : RecvInv cfg op.start := by
  have flat : op.start.groups.flatten =
      op.groups.flatten.map fun p => (⟨p.1, p.2, 0, 0, 0, 0⟩ : RecvSub) := by
    rw [RecvOp.start, map_flatten]
  refine ⟨?_, by rw [flat, length_map, op.count], ?_⟩
  · intro g mem
    obtain ⟨_, _, rfl⟩ := mem_map.mp mem
    refine ⟨0, 0, 0, ?_, le_rfl, le_rfl, Nat.zero_le _, dvd_zero _, dvd_zero _, dvd_zero _⟩
    intro sub here
    obtain ⟨p, _, rfl⟩ := mem_map.mp here
    exact ⟨rfl, rfl, rfl, le_rfl, by simp, dvd_zero _⟩
  · rw [flat]
    refine (countP_eq_zero.mpr ?_).symm
    intro sub mem
    obtain ⟨p, here, rfl⟩ := mem_map.mp mem
    have some' := op.steps p here
    simp only [RecvSub.isDone, decide_eq_true_eq]
    omega

theorem recv_reachable_inv (op : RecvOp cfg) (reached : Reachable (recvStep cfg) op.start args) :
    RecvInv cfg args :=
  reachable_invariant (RecvInv cfg) (recvStart_inv op)
    (fun _ answers _ h taken => Option.some.inj taken ▸ recvProxyProgress_inv h answers) reached

end Recv

end Vccl.Net
