import Vccl.Plan.Batches
import Vccl.Plan.Schedule

/-! The array of batches in the kernel arguments: `finishPlan` takes the batches of the channels in
turns and links those of a channel by relative jumps. -/
namespace Vccl.Plan

open List Function

/-- An element of the array. `owner` is the channel and not part of the source. -/
structure Slot where
  nextJump : Nat
  batch : Batch
  owner : Nat
  deriving DecidableEq

/-- `batchZero[0..batchIx)`, `batchPrev` as indices, the queues and `hasBatchMask` as the list of its
one bits. -/
structure Laying where
  out : List Slot
  prev : Nat → Option Nat
  queues : Nat → List Batch
  mask : List Nat

/-- `nextJump` has 14 bits. -/
def link (s : Laying) (c : Nat) : List Slot :=
  match s.prev c with
  | none => s.out
  | some i => s.out.modify i fun slot => { slot with nextJump := (s.out.length - i) % 2 ^ 14 }

def place (s : Laying) (c : Nat) : Laying :=
  match s.queues c with
  | [] => { s with mask := s.mask.erase c }
  | b :: rest =>
    { out := link s c ++ [⟨0, b, c⟩]
      prev := update s.prev c (some s.out.length)
      queues := update s.queues c rest
      mask := if rest = [] then s.mask.erase c else s.mask }

def layRound (s : Laying) : Laying := s.mask.foldl place s

def layRounds : Nat → Laying → Laying
  | 0, s => s
  | n + 1, s => if s.mask = [] then s else layRounds n (layRound s)

def startLaying (plan : KernelPlan) : Laying where
  out := []
  prev := fun _ => none
  queues := fun c => (plan.channels c).batches
  mask := oneBits plan.channelMask

/-- The batches of the kernel arguments. No queue is longer than `nWorkBatches`, so neither is the
outer loop. -/
def workBatches (plan : KernelPlan) : List Slot := (layRounds plan.nWorkBatches (startLaying plan)).out

def Chain (out : List Slot) (c : Nat) : Nat → List Batch → Nat → Prop
  | _, [], _ => False
  | i, [b], last => i = last ∧ out[i]? = some ⟨0, b, c⟩
  | i, b :: b' :: rest, last =>
    ∃ jump, 0 < jump ∧ out[i]? = some ⟨jump, b, c⟩ ∧ Chain out c (i + jump) (b' :: rest) last

variable {out : List Slot} {c i last : Nat} {bs : List Batch}

theorem Chain.le (h : Chain out c i bs last) :
    i ≤ last := by
  induction bs generalizing i with
  | nil => exact h.elim
  | cons b rest ih =>
    cases rest with
    | nil => exact h.1.le
    | cons b' rest =>
      obtain ⟨jump, -, -, tail⟩ := h
      exact le_trans (Nat.le_add_right i jump) (ih tail)

variable {out' : List Slot}

theorem Chain.mono (h : Chain out c i bs last)
    (same : ∀ (i : Nat) (slot : Slot), out[i]? = some slot → slot.owner = c → out'[i]? = some slot) :
    Chain out' c i bs last := by
  induction bs generalizing i with
  | nil => exact h.elim
  | cons b rest ih =>
    cases rest with
    | nil => exact ⟨h.1, same i _ h.2 rfl⟩
    | cons b' rest =>
      obtain ⟨jump, pos, here, tail⟩ := h
      exact ⟨jump, pos, same i _ here rfl, ih tail⟩

variable {b : Batch}

theorem Chain.snoc {next : Nat} (h : Chain out c i bs last) (beyond : last < next)
    (same : ∀ (i : Nat) (slot : Slot), i ≠ last → out[i]? = some slot → out'[i]? = some slot)
    (linked : ∀ b, out[last]? = some ⟨0, b, c⟩ → out'[last]? = some ⟨next - last, b, c⟩)
    (new : out'[next]? = some ⟨0, b, c⟩) : Chain out' c i (bs ++ [b]) next := by
  induction bs generalizing i with
  | nil => exact h.elim
  | cons b' rest ih =>
    cases rest with
    | nil =>
      obtain ⟨rfl, here⟩ := h
      have target : i + (next - i) = next := by omega
      exact ⟨next - i, by omega, linked b' here, target, by rw [target]; exact new⟩
    | cons b'' rest =>
      obtain ⟨jump, pos, here, tail⟩ := h
      have before := tail.le
      exact ⟨jump, pos, same i _ (by omega) here, ih tail⟩

theorem Chain.last_lt (h : Chain out c i bs last) :
    ∃ b, out[last]? = some ⟨0, b, c⟩ := by
  induction bs generalizing i with
  | nil => exact h.elim
  | cons b rest ih =>
    cases rest with
    | nil => exact ⟨b, h.1 ▸ h.2⟩
    | cons b' rest =>
      obtain ⟨_, -, -, tail⟩ := h
      exact ih tail

def Laid (orig : Nat → List Batch) (first : Nat → Nat) (s : Laying) : Prop :=
  ∀ c, s.prev c = none ∧ s.queues c = orig c ∨
    ∃ last bs, s.prev c = some last ∧ bs ++ s.queues c = orig c ∧ Chain s.out c (first c) bs last

theorem length_link (s : Laying) (c : Nat) : (link s c).length = s.out.length := by
  unfold link
  split
  · rfl
  · simp

variable {s : Laying}

theorem link_other {slot : Slot} (differs : s.prev c ≠ some i) (here : s.out[i]? = some slot) :
    (link s c ++ [⟨0, b, c⟩])[i]? = some slot := by
  have inside : i < s.out.length := (List.getElem?_eq_some_iff.mp here).1
  rw [List.getElem?_append_left (by rwa [length_link])]
  unfold link
  split
  · exact here
  next p prev =>
    have other : p ≠ i := fun same => differs (by rw [prev, same])
    simp [other, here]

variable {orig : Nat → List Batch} {first : Nat → Nat} {rest : List Batch}

theorem place_eq (queue : s.queues c = b :: rest) :
    place s c =
      { out := link s c ++ [⟨0, b, c⟩]
        prev := update s.prev c (some s.out.length)
        queues := update s.queues c rest
        mask := if rest = [] then s.mask.erase c else s.mask } := by
  rw [place, queue]

theorem Laid.place (h : Laid orig first s) (queue : s.queues c = b :: rest)
    (near : ∀ last, s.prev c = some last → s.out.length - last < 2 ^ 14)
    (start : s.prev c = none → first c = s.out.length) : Laid orig first (place s c) := by
  have placed := place_eq queue
  have new : (link s c ++ [⟨0, b, c⟩])[s.out.length]? = some ⟨0, b, c⟩ := by
    rw [← length_link s c]
    simp
  rw [placed]
  intro c'
  by_cases here : c' = c
  · subst here
    right
    simp only [update_self]
    rcases h c' with ⟨none, all⟩ | ⟨last, bs, prev, all, chain⟩
    · refine ⟨s.out.length, [b], rfl, by rw [← all, queue]; rfl, ?_⟩
      exact ⟨start none, by rw [start none]; exact new⟩
    refine ⟨s.out.length, bs ++ [b], rfl, by rw [← all, queue]; simp, ?_⟩
    obtain ⟨b', at_last⟩ := chain.last_lt
    have inside : last < s.out.length := (List.getElem?_eq_some_iff.mp at_last).1
    refine chain.snoc inside ?_ ?_ new
    · intro i slot hd at_i
      refine link_other ?_ at_i
      rw [prev]
      exact fun same => hd (Option.some.inj same).symm
    · intro b' at_last
      have small := Nat.mod_eq_of_lt (near last prev)
      rw [List.getElem?_append_left (by rw [length_link]; exact inside), link, prev]
      simp only [List.getElem?_modify, if_true, at_last, Option.map_eq_map, Option.map_some, small]
  · simp only [update_of_ne here]
    rcases h c' with ⟨none, all⟩ | ⟨last, bs, prev, all, chain⟩
    · exact .inl ⟨none, all⟩
    refine .inr ⟨last, bs, prev, all, chain.mono ?_⟩
    intro i slot at_i ho
    refine link_other ?_ at_i
    -- The element that is linked belongs to channel `c`.
    intro hl
    rcases h c with ⟨none, -⟩ | ⟨_, _, prev', -, chain'⟩
    · rw [none] at hl
      contradiction
    rw [prev'] at hl
    obtain rfl := Option.some.inj hl
    obtain ⟨b', at_last⟩ := chain'.last_lt
    rw [at_last] at at_i
    cases at_i
    exact here ho.symm

/-- In the middle of a round: the channels `todo` are still to come, those of the mask below `k` had
their turn. In between, a channel falls behind by one element for each turn of another one. -/
structure Round (first : Nat → Nat) (s : Laying) (k : Nat) (todo : List Nat) : Prop where
  sorted : todo.Pairwise (· < ·)
  later : ∀ c ∈ todo, k ≤ c
  distinct : s.mask.Nodup
  inMask : ∀ c ∈ todo, c ∈ s.mask
  inside : ∀ c ∈ s.mask, c < maxChannels ∧ (c < k ∨ c ∈ todo)
  nonempty : ∀ c ∈ s.mask, s.queues c ≠ []
  near : ∀ c ∈ s.mask, ∀ last, s.prev c = some last →
    (c < k → s.out.length + c ≤ last + k) ∧ (k ≤ c → s.out.length + c ≤ last + maxChannels + k)
  start : ∀ c ∈ todo, s.prev c = none → first c = s.out.length + todo.idxOf c

variable {c' : Nat}

theorem place_of_ne (s : Laying) (differs : c' ≠ c) :
    (place s c).queues c' = s.queues c' ∧ (place s c).prev c' = s.prev c' := by
  unfold place
  split
  · exact ⟨rfl, rfl⟩
  · exact ⟨update_of_ne differs _ _, update_of_ne differs _ _⟩

theorem Round.place {k : Nat} {todo : List Nat} (h : Round first s k (c :: todo)) (laid : Laid orig first s) :
    Round first (place s c) (c + 1) todo ∧ Laid orig first (place s c) := by
  obtain ⟨hb, hs⟩ := pairwise_cons.mp h.sorted
  have here := h.inMask c mem_cons_self
  have order := h.later c mem_cons_self
  obtain ⟨b, _, queue⟩ := exists_cons_of_ne_nil (h.nonempty c here)
  have placed := place_eq queue
  have length : (Plan.place s c).out.length = s.out.length + 1 := by
    rw [placed]
    simp [length_link]
  have old : ∀ c' ∈ (Plan.place s c).mask, c' ∈ s.mask := by
    rw [placed]
    intro c' mem
    split at mem
    · exact mem_of_mem_erase mem
    · exact mem
  have kept : ∀ c' ∈ s.mask, c' ≠ c → c' ∈ (Plan.place s c).mask := by
    rw [placed]
    intro c' mem differs
    split
    · exact (mem_erase_of_ne differs).mpr mem
    · exact mem
  refine ⟨⟨hs, ?_, ?_, ?_, ?_, ?_, ?_, ?_⟩, ?_⟩
  · exact fun c' mem => hb c' mem
  · rw [placed]
    split
    · exact h.distinct.erase c
    · exact h.distinct
  · intro c' mem
    exact kept c' (h.inMask c' (mem_cons_of_mem _ mem)) (hb c' mem).ne'
  · intro c' mem
    obtain ⟨hsm, turn⟩ := h.inside c' (old c' mem)
    refine ⟨hsm, ?_⟩
    rcases turn with past | here
    · left
      omega
    · rcases mem_cons.mp here with rfl | todo
      · exact .inl (Nat.lt_succ_self _)
      · exact .inr todo
  · intro c' mem
    by_cases same : c' = c
    · subst same
      rw [placed] at mem ⊢
      simp only [update_self]
      intro he
      simp only [he] at mem
      exact h.distinct.not_mem_erase mem
    · rw [(place_of_ne s same).1]
      exact h.nonempty c' (old c' mem)
  · intro c' mem last prev
    by_cases same : c' = c
    · subst same
      rw [placed] at prev
      simp only [update_self, Option.some.injEq] at prev
      omega
    · rw [(place_of_ne s same).2] at prev
      obtain ⟨past, _⟩ := h.near c' (old c' mem) last prev
      rcases (h.inside c' (old c' mem)).2 with turn | turn
      · omega
      · rcases mem_cons.mp turn with rfl | turn
        · contradiction
        · have := hb c' turn
          omega
  · intro c' mem prev
    have differs : c' ≠ c := (hb c' mem).ne'
    rw [(place_of_ne s differs).2] at prev
    rw [h.start c' (mem_cons_of_mem _ mem) prev, idxOf_cons_ne _ differs.symm]
    omega
  · refine laid.place queue ?_ ?_
    · intro last prev
      have := (h.near c here last prev).2 order
      unfold maxChannels at this
      omega
    · intro prev
      rw [h.start c mem_cons_self prev, idxOf_cons_self]
      omega

theorem Round.finish {k : Nat} (todo : List Nat) (bound : k ≤ maxChannels) (h : Round first s k todo)
    (laid : Laid orig first s) :
    Round first (todo.foldl Plan.place s) maxChannels [] ∧ Laid orig first (todo.foldl Plan.place s) := by
  induction todo generalizing s k with
  | nil =>
    rw [foldl_nil]
    refine ⟨⟨Pairwise.nil, by simp, h.distinct, by simp, ?_, h.nonempty, ?_, by simp⟩, laid⟩
    · intro c mem
      have small := (h.inside c mem).1
      exact ⟨small, .inl small⟩
    · intro c mem last prev
      obtain ⟨_, _⟩ := h.near c mem last prev
      rcases (h.inside c mem).2 with turn | turn
      · omega
      · contradiction
  | cons c todo ih =>
    obtain ⟨hr, laid⟩ := h.place laid
    have small := (h.inside c (h.inMask c mem_cons_self)).1
    exact ih small hr laid

theorem foldl_place_queues (todo : List Nat) (s : Laying) (distinct : todo.Nodup)
    (nonempty : ∀ c ∈ todo, s.queues c ≠ []) :
    (∀ c ∈ todo, (todo.foldl place s).queues c = (s.queues c).tail ∧ (todo.foldl place s).prev c ≠ none) ∧
      (∀ c ∉ todo, (todo.foldl place s).queues c = s.queues c ∧
        (todo.foldl place s).prev c = s.prev c) ∧
      ∀ c ∈ (todo.foldl place s).mask, c ∈ s.mask := by
  induction todo generalizing s with
  | nil => simp
  | cons c todo ih =>
    obtain ⟨hf, distinct⟩ := nodup_cons.mp distinct
    obtain ⟨b, _, queue⟩ := exists_cons_of_ne_nil (nonempty c mem_cons_self)
    have placed := place_eq queue
    have more : ∀ c' ∈ todo, (place s c).queues c' ≠ [] := by
      intro c' mem
      have differs : c' ≠ c := fun same => hf (same ▸ mem)
      rw [(place_of_ne s differs).1]
      exact nonempty c' (mem_cons_of_mem _ mem)
    obtain ⟨ht, hu, masks⟩ := ih (place s c) distinct more
    rw [foldl_cons]
    refine ⟨?_, ?_, ?_⟩
    · intro c' mem
      by_cases same : c' = c
      · subst same
        obtain ⟨queues, prev⟩ := hu c' hf
        rw [queues, prev, placed]
        simp [queue]
      · rcases mem_cons.mp mem with rfl | mem
        · contradiction
        · obtain ⟨queues, prev⟩ := ht c' mem
          rw [queues, (place_of_ne s same).1]
          exact ⟨rfl, prev⟩
    · intro c' ha
      rw [mem_cons, not_or] at ha
      obtain ⟨queues, prev⟩ := hu c' ha.2
      rw [queues, prev]
      exact place_of_ne s ha.1
    · intro c' mem
      have inMask := masks c' mem
      rw [placed] at inMask
      split at inMask
      · exact mem_of_mem_erase inMask
      · exact inMask

structure Between (orig : Nat → List Batch) (first : Nat → Nat) (s : Laying) : Prop where
  laid : Laid orig first s
  sorted : s.mask.Pairwise (· < ·)
  inside : ∀ c ∈ s.mask, c < maxChannels
  nonempty : ∀ c ∈ s.mask, s.queues c ≠ []
  near : ∀ c ∈ s.mask, ∀ last, s.prev c = some last → s.out.length + c ≤ last + maxChannels
  start : ∀ c ∈ s.mask, s.prev c = none → first c = s.out.length + s.mask.idxOf c

theorem place_mask_sublist (s : Laying) (c : Nat) : (place s c).mask.Sublist s.mask := by
  unfold place
  split
  · exact erase_sublist
  · split
    · exact erase_sublist
    · exact Sublist.refl _

theorem foldl_place_mask (todo : List Nat) (s : Laying) : (todo.foldl place s).mask.Sublist s.mask := by
  induction todo generalizing s with
  | nil => exact Sublist.refl _
  | cons c todo ih => exact (ih (place s c)).trans (place_mask_sublist s c)

theorem place_mask_kept (mem : c' ∈ s.mask) (more : (place s c).queues c' ≠ []) : c' ∈ (place s c).mask := by
  by_cases same : c' = c
  · subst same
    unfold place at more ⊢
    split at more
    · contradiction
    · simp only [update_self] at more
      simpa [more] using mem
  · unfold place
    split
    · exact (mem_erase_of_ne same).mpr mem
    · split
      · exact (mem_erase_of_ne same).mpr mem
      · exact mem

theorem place_queues_nil (empty : s.queues c' = []) : (place s c).queues c' = [] := by
  by_cases same : c' = c
  · subst same
    simp [place, empty]
  · rw [(place_of_ne s same).1, empty]

theorem foldl_place_queues_nil (todo : List Nat) (empty : s.queues c = []) :
    (todo.foldl place s).queues c = [] := by
  induction todo generalizing s with
  | nil => exact empty
  | cons c' todo ih => exact ih (place_queues_nil empty)

theorem foldl_place_mask_kept (todo : List Nat) (mem : c ∈ s.mask) (more : (todo.foldl place s).queues c ≠ []) :
    c ∈ (todo.foldl place s).mask := by
  induction todo generalizing s with
  | nil => exact mem
  | cons c' todo ih =>
    refine ih (place_mask_kept mem fun he => more ?_) more
    exact foldl_place_queues_nil todo he

theorem Between.layRound (h : Between orig first s) :
    Between orig first (layRound s) ∧
      (∀ c ∈ s.mask, (layRound s).queues c = (s.queues c).tail ∧ (layRound s).prev c ≠ none) ∧
      (∀ c ∉ s.mask, (layRound s).queues c = s.queues c ∧ (layRound s).prev c = s.prev c) ∧
      ∀ c ∈ (layRound s).mask, c ∈ s.mask := by
  have round : Round first s 0 s.mask :=
    { sorted := h.sorted
      later := fun c _ => Nat.zero_le c
      distinct := h.sorted.imp fun less => less.ne
      inMask := fun _ mem => mem
      inside := fun c mem => ⟨h.inside c mem, .inr mem⟩
      nonempty := h.nonempty
      near := fun c mem last prev => ⟨by omega, fun _ => h.near c mem last prev⟩
      start := h.start }
  obtain ⟨he, laid⟩ := round.finish s.mask (Nat.zero_le _) h.laid
  have queues := foldl_place_queues s.mask s round.distinct h.nonempty
  refine ⟨⟨laid, h.sorted.sublist (foldl_place_mask _ s), ?_, he.nonempty, ?_, ?_⟩, queues⟩
  · exact fun c mem => (he.inside c mem).1
  · intro c mem last prev
    exact (he.near c mem last prev).1 (he.inside c mem).1
  · intro c mem prev
    exact absurd prev (queues.1 c (queues.2.2 c mem)).2

theorem layRounds_all (n : Nat) (h : Between orig first s) (enough : ∀ c ∈ s.mask, (s.queues c).length ≤ n)
    (rest : ∀ c ∉ s.mask, s.queues c = []) :
    Laid orig first (layRounds n s) ∧ ∀ c, (layRounds n s).queues c = [] := by
  induction n generalizing s with
  | zero =>
    refine ⟨h.laid, fun c => ?_⟩
    by_cases mem : c ∈ s.mask
    · exact eq_nil_of_length_eq_zero (Nat.le_zero.mp (enough c mem))
    · exact rest c mem
  | succ n ih =>
    rw [layRounds]
    split
    next he =>
      refine ⟨h.laid, fun c => rest c ?_⟩
      rw [he]
      exact not_mem_nil
    · obtain ⟨hb, ht, hu, masks⟩ := h.layRound
      refine ih hb ?_ ?_
      · intro c mem
        have old := masks c mem
        have before := enough c old
        rw [(ht c old).1, length_tail]
        omega
      · intro c ha
        by_cases old : c ∈ s.mask
        · by_contra more
          exact ha (foldl_place_mask_kept s.mask old more)
        · rw [(hu c old).1]
          exact rest c old

def blockOf (mask c : Nat) : Nat := ((range c).filter fun i => mask.testBit i).length

theorem idxOf_oneBits {mask : Nat} (mem : c ∈ oneBits mask) : (oneBits mask).idxOf c = blockOf mask c := by
  obtain ⟨hs, bit⟩ := mem_oneBits.mp mem
  obtain ⟨d, split⟩ := Nat.exists_eq_add_of_le (Nat.succ_le_of_lt hs)
  have range : List.range 64 = List.range c ++ c :: (List.range d).map (c + 1 + ·) := by
    rw [split, range_add, range_succ]
    simp
  have fresh : c ∉ (List.range c).filter fun i => mask.testBit i := by simp
  rw [oneBits, range, filter_append, filter_cons, if_pos bit, idxOf_append_of_notMem fresh]
  simp [blockOf]

theorem workBatches_chain (plan : KernelPlan)
    (masked : ∀ c, (plan.channels c).batches ≠ [] ↔ c ∈ oneBits plan.channelMask)
    (counted : ∀ c, (plan.channels c).batches.length ≤ plan.nWorkBatches) (mem : c ∈ oneBits plan.channelMask) :
    ∃ last, Chain (workBatches plan) c (blockOf plan.channelMask c) (plan.channels c).batches last := by
  have sorted : (oneBits plan.channelMask).Pairwise (· < ·) := pairwise_lt_range.filter _
  have between : Between (fun c => (plan.channels c).batches) (fun c => (oneBits plan.channelMask).idxOf c)
      (startLaying plan) :=
    { laid := fun _ => .inl ⟨rfl, rfl⟩
      sorted
      inside := fun c mem => (mem_oneBits.mp mem).1
      nonempty := fun c mem => (masked c).mpr mem
      near := fun _ _ _ prev => nomatch prev
      start := fun _ _ _ => (Nat.zero_add _).symm }
  obtain ⟨laid, he⟩ := layRounds_all plan.nWorkBatches between (fun c _ => counted c) (by
    intro c ha
    by_contra more
    exact ha ((masked c).mp more))
  rw [← idxOf_oneBits mem]
  rcases laid c with ⟨-, all⟩ | ⟨last, bs, -, all, hc⟩
  · rw [he c] at all
    exact absurd all.symm ((masked c).mpr mem)
  · rw [he c, append_nil] at all
    obtain rfl : bs = (plan.channels c).batches := all
    exact ⟨last, hc⟩

end Vccl.Plan
