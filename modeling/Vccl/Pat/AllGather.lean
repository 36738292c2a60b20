import Vccl.Pat.GatherCopy

/-! The all-gather algorithm on all ranks. Every rank runs the same schedule with its own blocks, so what a
rank sends on a dimension is what the rank it sends to expects there, and every block comes to every rank
once. -/
namespace Vccl.Pat.Gather

open Rounds Dyadic List

/-- The messages of a dimension on its two sides: as many are posted as are received, in each one the same
blocks are at the same offsets, and a message holds one block at an offset. -/
structure Matched (sends receives : List (Touch Nat)) : Prop where
  posts_eq : posts sends = posts receives
  same : ∀ place, place ∈ places 0 sends ↔ place ∈ places 0 receives
  posted : ∀ place ∈ places 0 sends, place.message < posts sends
  unique : ∀ place ∈ places 0 sends, ∀ place' ∈ places 0 sends,
    place.message = place'.message → place.sub = place'.sub → place = place'

def recvPeer (c : Args) (rank d : Nat) : Nat := (rank + 1 <<< d) % c.nranks

def startShmem (step : Nat → Nat) : Shmem := ⟨0, fun d => ⟨step d, 0⟩⟩

section Run

variable {all steps : List PatStep} (same : taken (all.map PatStep.plain) = steps)
include same

theorem filterMap_run {α : Type} (f : PatStep → Option α) (skips : ∀ ps, ps.skipped = true → f ps = none)
    (plain : ∀ ps, f ps.plain = f ps) : all.filterMap f = steps.filterMap f := by
  rw [← same, filterMap_taken f skips, filterMap_map]
  apply filterMap_congr
  intro ps _
  exact (plain ps).symm

theorem received_run (e : Nat) : received e all = received e steps :=
  filterMap_run same _ (fun ps skipped => by simp [recvTouch, skipped]) (fun _ => rfl)

theorem sent_run (e : Nat) : sent e all = sent e steps :=
  filterMap_run same _ (fun ps skipped => by simp [sendTouch, skipped]) (fun _ => rfl)

theorem localPlaces_run : localPlaces all = localPlaces steps :=
  filterMap_run same _ (fun ps skipped => by simp [localTouch, skipped]) (fun _ => rfl)

end Run

section Ranks

variable {c : Args} {g m p : Nat} (powers : Powers c g m p)
include powers

theorem program_matched (rank e : Nat) :
    Matched (sent e (program c (recvPeer c rank e) g m)) (received e (program c rank g m)) := by
  have sends := program_sent powers rank e
  rw [← Nat.one_shiftLeft] at sends
  have repeats := program_received powers rank e
  have fits : ∀ i, c.postFreq * c.getNelem (c.chunkOffset i) ≤ c.postFreq * c.chunkCount := by
    intro i
    exact Nat.mul_le_mul_left _ (Nat.min_le_left _ _)
  have solid := program_solid powers rank fits e
  constructor
  · rw [recvPeer, sends, posts_flatMap_last, repeats.posts_eq]
  · intro place
    rw [recvPeer, sends, places_flatMap_last solid, repeats.mem_places solid]
  · intro place
    rw [recvPeer, sends, places_flatMap_last solid, posts_flatMap_last]
    intro mem
    have := (entries_message solid mem).2.1
    omega
  · intro place mem place' mem'
    rw [recvPeer, sends, places_flatMap_last solid] at mem mem'
    exact entries_unique solid mem mem'

variable (inside : c.stop ≤ c.count) {rank j x : Nat} (is_rank : rank < c.nranks) (is_block : j < c.nranks)
  (in_part : c.offset ≤ x ∧ x < c.stop)
include inside is_rank is_block in_part

theorem own_covers (slot : Nat) :
    (fresh slot 0 (localPlaces (program c rank g m))).countP
        (fun q => covers (j * c.count + x) q.item q.size) =
      if distance c rank j = 0 then 1 else 0 := by
  have each : ∀ i ∈ range c.chunks,
      covers (j * c.count + x) ((rank + c.nranks) % c.nranks * c.count + c.chunkOffset i)
          (c.getNelem (c.chunkOffset i)) =
        decide (distance c rank j = 0 ∧ i = (x - c.offset) / c.chunkCount) := by
    intro i mem
    have fits := (c.chunk_inside (mem_range.mp mem)).trans inside
    rw [covers_block fits (by omega), decide_eq_decide, Nat.add_mod_right, c.mem_chunk in_part]
    have here := @block_iff c rank j is_rank is_block 0 (by omega)
    rw [Nat.add_zero] at here
    rw [here, eq_comm]
  rw [fresh_own rank powers, countP_map]
  change (range c.chunks).countP (fun i => covers (j * c.count + x)
    ((rank + c.nranks) % c.nranks * c.count + c.chunkOffset i) (c.getNelem (c.chunkOffset i))) = _
  rw [countP_congr (fun i mem => by rw [each i mem])]
  split
  next own =>
    simp only [own, true_and]
    rw [countP_range_eq, if_pos (c.chunk_lt in_part)]
  next other =>
    simp [other]

theorem program_writes_once {connStepSize : Nat} {all : List PatStep}
    (ran : taken (all.map PatStep.plain) = program c rank g m)
    (fits : ∀ i, c.postFreq * c.getNelem (c.chunkOffset i) ≤ connStepSize) (step : Nat → Nat) :
    (writes connStepSize (startShmem step) all).countP
      (fun w => covers (j * c.count + x) w.1 w.2) = 1 := by
  have bounded : ∀ ps ∈ all, ∀ d, ps.skipped = false → ps.recvDim = some d → d < g + m := by
    intro ps mem d taken_ps dim
    by_contra beyond
    have none_there := program_received_beyond powers rank (Nat.le_of_not_lt beyond)
    rw [← received_run ran, received, filterMap_eq_nil_iff] at none_there
    have := none_there ps mem
    simp [recvTouch, taken_ps, dim] at this
  have on : ∀ e, countOn connStepSize (covers (j * c.count + x)) (startShmem step) e all =
      if LowBit e (distance c rank j) then 1 else 0 := by
    intro e
    have low : ((startShmem step).recvDims e).accSize ≤ ((startShmem step).recvDims e).step * connStepSize :=
      Nat.zero_le _
    rw [countOn, received_run ran,
      (program_received powers rank e).fresh_eq (program_solid powers rank fits e) low,
      countP_entries]
    exact program_covers powers inside is_rank is_block in_part e
  have own : countLocal connStepSize (covers (j * c.count + x)) (startShmem step) all =
      if distance c rank j = 0 then 1 else 0 := by
    rw [countLocal, localPlaces_run ran]
    exact own_covers powers inside is_rank is_block in_part connStepSize
  rw [countP_writes all _ bounded, own, Finset.sum_congr rfl (fun e _ => on e)]
  rcases Nat.eq_zero_or_pos (distance c rank j) with zero | pos
  · simp [zero, not_lowBit_zero]
  obtain ⟨d, low⟩ := exists_lowBit pos
  have d_inside : d < g + m := low.lt ((distance_lt c rank j).trans_le powers.ranks_le)
  have same : ∀ e, LowBit e (distance c rank j) ↔ e = d :=
    fun e => ⟨fun here => here.unique low, fun eq => eq ▸ low⟩
  simp only [same]
  rw [Finset.sum_ite_eq', if_pos (Finset.mem_range.mpr d_inside), if_neg pos.ne']

end Ranks

/-- Every rank comes to its last step; on each dimension the messages a rank posts are the ones its peer
receives, block by block; and the workers write each element of each rank's block once, when a chunk and a
step fit a slot of the connections. -/
theorem all_gather_exact (c : Args) :
    ∃ steps : Nat → List PatStep,
      (∀ rank, Runs c rank (steps rank)) ∧
      (∀ rank d, Matched (sent d (steps (recvPeer c rank d))) (received d (steps rank))) ∧
      ∀ connStepSize, c.chunkCount ≤ connStepSize → c.stepSize ≤ connStepSize * c.typeSize →
        c.stop ≤ c.count → ∀ step : Nat → Nat, ∀ rank < c.nranks, ∀ j < c.nranks,
          ∀ x, c.offset ≤ x ∧ x < c.stop →
            (writes connStepSize (startShmem step) (steps rank)).countP
              (fun w => covers (j * c.count + x) w.1 w.2) = 1 := by
  obtain ⟨g, m, p, powers⟩ := exists_powers c
  have ends : ∀ rank, Ends (getNextOp c rank) (reset c c.offset) (program c rank g m) :=
    fun _ => ends_program powers
  choose fuel all ran same using ends
  refine ⟨all, fun rank => ⟨fuel rank, ran rank⟩, ?_, ?_⟩
  · intro rank d
    rw [sent_run (same _), received_run (same rank)]
    exact program_matched powers rank d
  · intro connStepSize chunk step_fits inside step rank is_rank j is_block x in_part
    exact program_writes_once powers inside is_rank is_block in_part (same rank)
      (message_fits c chunk step_fits) step

def fiveRanks : Args :=
  { stepSize := 64, stepDepth := 8, maxParallelFactor := 16, offset := 2, stop := 7, count := 10
    chunkCount := 2, typeSize := 4, nranks := 5
    some_ranks := by decide, some_part := by decide, some_chunk := Nat.two_pos, sized := by decide }

theorem five_ranks_gather :
    ∃ steps : Nat → List PatStep, (∀ rank, Runs fiveRanks rank (steps rank)) ∧
      (writes 16 (startShmem fun _ => 0) (steps 1)).countP (fun w => covers 34 w.1 w.2) = 1 := by
  obtain ⟨steps, runs, -, once⟩ := all_gather_exact fiveRanks
  exact ⟨steps, runs, once 16 (by decide) (by decide) (by decide) (fun _ => 0) 1 (by decide) 3 (by decide) 4
    (by decide)⟩

end Vccl.Pat.Gather
