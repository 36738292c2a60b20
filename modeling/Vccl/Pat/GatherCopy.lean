import Vccl.Pat.GatherTree

/-! What the workers write to the output when they carry out the steps of the all-gather algorithm. A
worker copies a block to the output unless the mark of the connection says that it has been copied. -/
namespace Vccl.Pat.Gather

open Rounds Dyadic List

structure Peer where
  step : Nat
  accSize : Nat

structure Shmem where
  localAccSize : Nat
  recvDims : Nat → Peer

def patCopy (connStepSize : Nat) (shmem : Shmem) (ps : PatStep) : Option (Nat × Nat) × Shmem :=
  if ps.skipped then (none, shmem)
  else match ps.recvDim with
    | some d =>
      let peer := shmem.recvDims d
      let stop := (peer.step + ps.stepOffset) * connStepSize + ps.recvOffset.getD 0 + ps.nelem
      let peer' : Peer := ⟨peer.step + ps.postRecv.toNat, max peer.accSize stop⟩
      (if peer.accSize < stop then some (ps.outIx, ps.nelem) else none,
        { shmem with recvDims := Function.update shmem.recvDims d peer' })
    | none =>
      (if shmem.localAccSize < ps.inpIx + ps.nelem then some (ps.outIx, ps.nelem) else none,
        { shmem with localAccSize := max shmem.localAccSize (ps.inpIx + ps.nelem) })

def writes (connStepSize : Nat) : Shmem → List PatStep → List (Nat × Nat)
  | _, [] => []
  | shmem, ps :: rest =>
    (patCopy connStepSize shmem ps).1.toList ++ writes connStepSize (patCopy connStepSize shmem ps).2 rest

def localTouch (ps : PatStep) : Option (Place Nat) :=
  if ps.skipped = false ∧ ps.recvDim = none then some ⟨0, ps.inpIx, ps.nelem, ps.outIx⟩ else none

def localPlaces (steps : List PatStep) : List (Place Nat) := steps.filterMap localTouch

section Counting

variable (slot : Nat) (q : Nat → Nat → Bool)

def countOn (shmem : Shmem) (e : Nat) (steps : List PatStep) : Nat :=
  (fresh slot (shmem.recvDims e).accSize (places (shmem.recvDims e).step (received e steps))).countP
    fun p => q p.item p.size

def countLocal (shmem : Shmem) (steps : List PatStep) : Nat :=
  (fresh slot shmem.localAccSize (localPlaces steps)).countP fun p => q p.item p.size

variable {slot q}

theorem fresh_cons (mark : Nat) (p : Place Nat) (rest : List (Place Nat)) :
    (fresh slot mark (p :: rest)).countP (fun p => q p.item p.size) =
      (if mark < p.stop slot then (q p.item p.size).toNat else 0) +
        (fresh slot (max mark (p.stop slot)) rest).countP fun p => q p.item p.size := by
  rw [fresh]
  split
  next hb =>
    rw [max_eq_right hb.le, countP_cons]
    cases q p.item p.size <;> simp [Nat.add_comm]
  next hw =>
    rw [max_eq_left (Nat.le_of_not_lt hw), Nat.zero_add]

theorem countP_toList (w : Nat × Nat) (b : Prop) [Decidable b] :
    ((if b then some w else none).toList.countP fun w => q w.1 w.2) =
      if b then (q w.1 w.2).toNat else 0 := by
  split
  · cases hit : q w.1 w.2 <;> simp [hit]
  · rfl

section Step

variable (slot q) (shmem : Shmem) {ps : PatStep} (rest : List PatStep)

theorem patCopy_local (taken : ps.skipped = false) (own : ps.recvDim = none) :
    (∀ e, countOn slot q shmem e (ps :: rest) = countOn slot q (patCopy slot shmem ps).2 e rest) ∧
      countLocal slot q shmem (ps :: rest) =
        ((patCopy slot shmem ps).1.toList.countP fun w => q w.1 w.2) +
          countLocal slot q (patCopy slot shmem ps).2 rest := by
  have copied : patCopy slot shmem ps =
      (if shmem.localAccSize < ps.inpIx + ps.nelem then some (ps.outIx, ps.nelem) else none,
        { shmem with localAccSize := max shmem.localAccSize (ps.inpIx + ps.nelem) }) := by
    simp [patCopy, taken, own]
  constructor
  · intro e
    simp [countOn, received, recvTouch, own, copied]
  · have head : localPlaces (ps :: rest) = ⟨0, ps.inpIx, ps.nelem, ps.outIx⟩ :: localPlaces rest := by
      simp [localPlaces, localTouch, taken, own]
    rw [countLocal, head, fresh_cons, copied, countP_toList]
    simp only [Place.stop, Nat.zero_mul, Nat.zero_add, countLocal]

theorem patCopy_received {d : Nat} (taken : ps.skipped = false) (dim : ps.recvDim = some d) :
    (∀ e, countOn slot q shmem e (ps :: rest) =
      (if e = d then (patCopy slot shmem ps).1.toList.countP fun w => q w.1 w.2 else 0) +
        countOn slot q (patCopy slot shmem ps).2 e rest) ∧
      countLocal slot q shmem (ps :: rest) = countLocal slot q (patCopy slot shmem ps).2 rest := by
  constructor
  · intro e
    by_cases same : e = d
    · subst same
      have head : received e (ps :: rest) =
          ⟨ps.stepOffset, ps.recvOffset.getD 0, ps.nelem, ps.postRecv, ps.outIx⟩ :: received e rest := by
        simp [received, recvTouch, taken, dim]
      rw [countOn, head, places, fresh_cons]
      simp only [patCopy, taken, dim, Bool.false_eq_true, if_false, countP_toList, countOn,
        Function.update_self]
      rfl
    · have skip : received e (ps :: rest) = received e rest := by
        simp [received, recvTouch, dim, Ne.symm same]
      rw [countOn, skip, if_neg same, countOn]
      simp [patCopy, taken, dim, Function.update_of_ne same]
  · simp [countLocal, localPlaces, localTouch, dim, patCopy, taken]

end Step

theorem countP_writes {dims : Nat} (steps : List PatStep) (shmem : Shmem)
    (inside : ∀ ps ∈ steps, ∀ d, ps.skipped = false → ps.recvDim = some d → d < dims) :
    (writes slot shmem steps).countP (fun w => q w.1 w.2) =
      (∑ e ∈ Finset.range dims, countOn slot q shmem e steps) + countLocal slot q shmem steps := by
  induction steps generalizing shmem with
  | nil => simp [writes, countOn, countLocal, received, localPlaces, places, fresh]
  | cons ps rest ih =>
    have later := ih (patCopy slot shmem ps).2 (fun ps' mem => inside ps' (by simp [mem]))
    rw [writes, countP_append, later]
    cases skipped : ps.skipped with
    | true =>
      have same : patCopy slot shmem ps = (none, shmem) := by simp [patCopy, skipped]
      simp [same, countOn, countLocal, received, localPlaces, recvTouch, localTouch, skipped]
    | false =>
      cases dim : ps.recvDim with
      | none =>
        obtain ⟨on, own⟩ := patCopy_local slot q shmem rest skipped dim
        rw [Finset.sum_congr rfl (fun e _ => on e)]
        omega
      | some d =>
        obtain ⟨on, own⟩ := patCopy_received slot q shmem rest skipped dim
        have d_inside := inside ps (by simp) d skipped dim
        rw [Finset.sum_congr rfl (fun e _ => on e), Finset.sum_add_distrib, Finset.sum_ite_eq',
          if_pos (Finset.mem_range.mpr d_inside)]
        omega

end Counting

def covers (y item size : Nat) : Bool := item ≤ y ∧ y < item + size

section Blocks

variable {c : Args} {g m p : Nat} (powers : Powers c g m p) (inside : c.stop ≤ c.count)
  {rank j x : Nat} (is_rank : rank < c.nranks) (is_block : j < c.nranks)
  (in_part : c.offset ≤ x ∧ x < c.stop)

def distance (c : Args) (rank j : Nat) : Nat := (j + c.nranks - rank) % c.nranks

theorem distance_lt (c : Args) (rank j : Nat) : distance c rank j < c.nranks :=
  Nat.mod_lt _ (by have := c.some_ranks; omega)

include is_rank is_block in
theorem block_iff {s : Nat} (near : s < c.nranks) : (rank + s) % c.nranks = j ↔ s = distance c rank j := by
  have split_mod : ∀ k, k < 2 * c.nranks → k % c.nranks = if k < c.nranks then k else k - c.nranks := by
    intro k hs
    split
    next lt =>
      exact Nat.mod_eq_of_lt lt
    next ge =>
      rw [Nat.mod_eq_sub_mod (Nat.le_of_not_lt ge), Nat.mod_eq_of_lt (by omega)]
  rw [distance, split_mod _ (by omega), split_mod _ (by omega)]
  split <;> split <;> omega

theorem covers_block {b off w : Nat} (fits : off + w ≤ c.count) (small : x < c.count) :
    covers (j * c.count + x) (b * c.count + off) w = decide (b = j ∧ off ≤ x ∧ x < off + w) := by
  rw [covers, decide_eq_decide]
  rcases Nat.lt_trichotomy b j with lt | rfl | gt
  · have := Nat.mul_le_mul_right c.count (Nat.succ_le_of_lt lt)
    rw [Nat.succ_mul] at this
    omega
  · omega
  · have := Nat.mul_le_mul_right c.count (Nat.succ_le_of_lt gt)
    rw [Nat.succ_mul] at this
    omega

def roundCovers (r : Round Nat) (y : Nat) : Nat :=
  (range r.count).countP fun i => covers y (r.item i) r.size

include is_rank is_block in
theorem blockRound_covers {off first stride : Nat} (small : first < stride)
    (fits : off + c.getNelem off ≤ c.count) (in_block : x < c.count) :
    roundCovers (blockRound c rank off first stride) (j * c.count + x) =
      if off ≤ x ∧ x < off + c.getNelem off then
        if distance c rank j % stride = first then 1 else 0
      else 0 := by
  have pos : 0 < stride := by omega
  have each : ∀ f ∈ range (below first stride c.nranks),
      covers (j * c.count + x) ((rank + (first + f * stride)) % c.nranks * c.count + off) (c.getNelem off) =
        decide (first + f * stride = distance c rank j ∧ off ≤ x ∧ x < off + c.getNelem off) := by
    intro f mem
    rw [mem_range, lt_below pos] at mem
    rw [covers_block fits in_block, decide_eq_decide, block_iff is_rank is_block mem]
  change (range (below first stride c.nranks)).countP (fun f => covers (j * c.count + x)
    ((rank + (first + f * stride)) % c.nranks * c.count + off) (c.getNelem off)) = _
  rw [countP_congr (fun f mem => by rw [each f mem])]
  split
  next here =>
    simp only [here, and_true]
    exact countP_below small (distance_lt c rank j)
  next away =>
    simp [away]

theorem sum_map_ite (l : List Nat) (k v : Nat) : (l.map fun x => if k = x then v else 0).sum = l.count k * v := by
  induction l with
  | nil => simp
  | cons x rest ih =>
    rw [map_cons, sum_cons, ih, count_cons, Nat.add_mul, Nat.add_comm]
    by_cases same : k = x
    · simp [same]
    · simp [same, Ne.symm same]

include powers is_rank is_block in
theorem chunk_covers {off : Nat} (fits : off + c.getNelem off ≤ c.count) (in_block : x < c.count) (e : Nat) :
    ((chunkRounds c rank off m e).map fun r => roundCovers r (j * c.count + x)).sum =
      if off ≤ x ∧ x < off + c.getNelem off then
        if LowBit e (distance c rank j) then 1 else 0
      else 0 := by
  have pos := aggDelta_pos powers
  unfold chunkRounds
  split
  next low =>
    have each : ∀ y ∈ (asOrder m).filter (LowBit e ·),
        roundCovers (blockRound c rank off (0 + y) c.aggDelta) (j * c.count + x) =
          if off ≤ x ∧ x < off + c.getNelem off then
            if distance c rank j % c.aggDelta = y then 1 else 0
          else 0 := by
      intro y mem
      have small := asOrder_lt m y (mem_filter.mp mem).1
      rw [← powers.delta] at small
      rw [Nat.zero_add, blockRound_covers is_rank is_block small fits in_block]
    rw [orderRounds, map_map]
    simp only [Function.comp_def]
    rw [map_congr_left each]
    split
    · have same : LowBit e (distance c rank j) ↔ LowBit e (distance c rank j % c.aggDelta) := by
        conv_lhs => rw [← Nat.div_add_mod (distance c rank j) c.aggDelta]
        apply lowBit_add
        rw [powers.delta]
        exact (Nat.pow_dvd_pow 2 low).mul_right _
      rw [sum_map_ite, Nat.mul_one]
      simp only [same]
      split
      next here =>
        apply count_eq_one_of_mem ((asOrder_nodup m).filter _)
        rw [mem_filter, mem_asOrder, ← powers.delta]
        exact ⟨⟨here.pos, Nat.mod_lt _ pos⟩, by simpa using here⟩
      next away =>
        apply count_eq_zero_of_not_mem
        intro mem
        exact away (by simpa using (mem_filter.mp mem).2)
    · simp
  · have small : 2 ^ e < 2 ^ (e + 1) := Nat.pow_lt_pow_right (by decide) (Nat.lt_succ_self e)
    rw [map_singleton, blockRound_covers is_rank is_block small fits in_block]
    rfl

theorem sum_map_flatMap {α β : Type} (l : List α) (f : α → List β) (h : β → Nat) :
    ((l.flatMap f).map h).sum = (l.map fun a => ((f a).map h).sum).sum := by
  rw [map_flatMap, flatMap, sum_flatten, map_map]
  rfl

include powers inside is_rank is_block in_part in
theorem program_covers (e : Nat) :
    ((programRounds c rank m e).map fun r => roundCovers r (j * c.count + x)).sum =
      if LowBit e (distance c rank j) then 1 else 0 := by
  have each : ∀ i ∈ range c.chunks,
      ((chunkRounds c rank (c.chunkOffset i) m e).map fun r => roundCovers r (j * c.count + x)).sum =
        if (x - c.offset) / c.chunkCount = i then
          if LowBit e (distance c rank j) then 1 else 0
        else 0 := by
    intro i mem
    rw [mem_range] at mem
    have fits := (c.chunk_inside mem).trans inside
    rw [chunk_covers powers is_rank is_block fits (by omega)]
    simp [c.mem_chunk in_part, eq_comm]
  rw [programRounds, sum_map_flatMap, map_congr_left each, sum_map_ite, nodup_range.count, if_pos (mem_range.mpr (c.chunk_lt in_part)),
    Nat.one_mul]

end Blocks

section Own

variable (c : Args) (rank : Nat)

def ownPlace (offset : Nat) : Place Nat :=
  ⟨0, offset, c.getNelem offset, (rank + c.nranks) % c.nranks * c.count + offset⟩

theorem localTouch_phase1 (offset as a : Nat) :
    localTouch (phase1 c rank offset (c.getNelem offset) as a) = none ∨
      localTouch (phase1 c rank offset (c.getNelem offset) as a) = some (ownPlace c rank offset) := by
  simp only [phase1]
  generalize a * c.aggDelta + as - 1 <<< firstBitSet (a * c.aggDelta + as) c.nrPow2 = s
  by_cases own : s = 0
  · subst own
    split
    · simp [localTouch, ownPlace]
    · by_cases skip : c.nranks ≤ a * c.aggDelta + as <;> simp [localTouch, ownPlace, skip]
  · left
    simp only [own, ne_eq, not_false_eq_true, if_true]
    split <;> split <;> simp [localTouch]

theorem localTouch_phase2 (offset scale a : Nat) :
    localTouch (phase2 c rank offset (c.getNelem offset) scale a) = none ∨
      localTouch (phase2 c rank offset (c.getNelem offset) scale a) = some (ownPlace c rank offset) := by
  simp only [phase2]
  generalize (2 * a + 1) * scale * c.aggDelta -
    1 <<< firstBitSet ((2 * a + 1) * scale * c.aggDelta) c.nrPow2 = s
  by_cases own : s = 0
  · subst own
    by_cases skip : c.nranks ≤ (2 * a + 1) * scale * c.aggDelta <;> simp [localTouch, ownPlace, skip]
  · left
    simp [own, localTouch]

theorem localTouch_own (offset : Nat) :
    localTouch (phase1 c rank offset (c.getNelem offset) 1 0) = some (ownPlace c rank offset) := by
  have one : firstBitSet 1 c.nrPow2 = 0 := rfl
  have two := c.some_ranks
  simp [phase1, one, localTouch, ownPlace, Nat.not_le.mpr (show 1 < c.nranks by omega)]

variable {c} {g m p : Nat} (powers : Powers c g m p)

theorem mem_taken_map {f : Nat → PatStep} {n : Nat} {ps : PatStep}
    (mem : ps ∈ taken ((range n).map f)) : ∃ a, ps = f a := by
  obtain ⟨a, -, same⟩ := mem_map.mp (mem_filter.mp mem).1
  exact ⟨a, same.symm⟩

theorem localPlaces_chunk {offset : Nat} {q : Place Nat}
    (mem : q ∈ localPlaces (chunkSteps c rank offset g m)) : q = ownPlace c rank offset := by
  obtain ⟨ps, hin, ht⟩ := mem_filterMap.mp mem
  have two_cases : localTouch ps = none ∨ localTouch ps = some (ownPlace c rank offset) := by
    rw [chunkSteps, mem_append, mem_flatMap, mem_flatMap] at hin
    rcases hin with ⟨k, -, in_group⟩ | ⟨v, -, in_group⟩
    · obtain ⟨a, rfl⟩ := mem_taken_map in_group
      exact localTouch_phase2 c rank offset _ a
    rw [asSteps, mem_append] at in_group
    rcases in_group with hino | hi
    · obtain ⟨a, rfl⟩ := mem_taken_map hino
      exact localTouch_phase1 c rank offset v a
    · split at hi
      · obtain ⟨a, rfl⟩ := mem_taken_map hi
        left
        simp [localTouch, phase0]
      · cases hi
  rw [ht] at two_cases
  simpa using two_cases

include powers in
theorem own_mem_chunk (offset : Nat) :
    ownPlace c rank offset ∈ localPlaces (chunkSteps c rank offset g m) := by
  have own := localTouch_own c rank offset
  rw [localPlaces, mem_filterMap]
  refine ⟨_, ?_, own⟩
  rw [chunkSteps, mem_append, mem_flatMap, mem_flatMap]
  right
  refine ⟨1, ?_, ?_⟩
  · rw [mem_asOrder]
    exact ⟨by decide, Nat.one_lt_two_pow powers.some_left.ne'⟩
  rw [asSteps, mem_append]
  left
  apply mem_filter.mpr
  refine ⟨mem_map.mpr ⟨0, mem_range.mpr (aggFactor_pos powers), rfl⟩, ?_⟩
  by_contra hs
  simp only [Bool.not_eq_true, Bool.not_eq_false'] at hs
  rw [localTouch, if_neg (by simp [hs])] at own
  cases own

theorem fresh_same {slot mark : Nat} {q : Place Nat} {l : List (Place Nat)} (rest : List (Place Nat))
    (all : ∀ q' ∈ l, q' = q) (some_one : q ∈ l) (new : mark < q.stop slot) :
    fresh slot mark (l ++ rest) = q :: fresh slot (q.stop slot) rest := by
  have again : ∀ l' : List (Place Nat), (∀ q' ∈ l', q' = q) →
      fresh slot (q.stop slot) (l' ++ rest) = fresh slot (q.stop slot) rest := by
    intro l' same
    induction l' with
    | nil => rfl
    | cons q' l' ih =>
      rw [cons_append, same q' (by simp), fresh, if_neg (Nat.lt_irrefl _)]
      exact ih fun q'' mem => same q'' (by simp [mem])
  cases l with
  | nil => cases some_one
  | cons q' l' =>
    rw [cons_append, all q' (by simp), fresh, if_pos new,
      again l' fun q'' mem => all q'' (by simp [mem])]

include powers in
theorem fresh_own (slot : Nat) :
    fresh slot 0 (localPlaces (program c rank g m)) =
      (range c.chunks).map fun i => ownPlace c rank (c.chunkOffset i) := by
  have from_chunk : ∀ k i mark, i + k = c.chunks → mark ≤ c.chunkOffset i →
      fresh slot mark ((range' i k).flatMap fun i =>
          localPlaces (chunkSteps c rank (c.chunkOffset i) g m)) =
        (range' i k).map fun i => ownPlace c rank (c.chunkOffset i) := by
    intro k
    induction k with
    | zero =>
      intro i mark _ _
      rfl
    | succ k ih =>
      intro i mark ht low
      have some_elem := c.getNelem_pos (show i < c.chunks by omega)
      have stop : (ownPlace c rank (c.chunkOffset i)).stop slot =
          c.chunkOffset i + c.getNelem (c.chunkOffset i) := by
        simp [ownPlace, Place.stop]
      rw [range'_succ, flatMap_cons, map_cons,
        fresh_same _ (fun q' => localPlaces_chunk rank) (own_mem_chunk rank powers _) (by omega),
        ih (i + 1) _ (by omega)]
      rw [stop, Args.chunkOffset, Args.chunkOffset, Args.getNelem, Nat.add_mul]
      omega
  have all := from_chunk c.chunks 0 0 (Nat.zero_add _) (Nat.zero_le _)
  rw [← range_eq_range'] at all
  rw [← all, program, localPlaces, filterMap_flatMap]
  rfl

end Own

end Vccl.Pat.Gather
