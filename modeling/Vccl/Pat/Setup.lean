import Vccl.Bitops

/-! What the two parallel aggregated tree algorithms are constructed with and the step they hand to a
worker. The loops of the constructors double the aggregation factor, so both factors are powers of two
that multiply to the number of ranks rounded up. -/
namespace Vccl.Pat

open List

/-- The arguments of the constructors, with the size of the element type; `stop` is the end of the part.
A part has an element, since its size is divided by. -/
structure Args where
  stepSize : Nat
  stepDepth : Nat
  maxParallelFactor : Nat
  offset : Nat
  stop : Nat
  count : Nat
  chunkCount : Nat
  typeSize : Nat
  nranks : Nat
  some_ranks : 2 ≤ nranks
  some_part : offset < stop
  some_chunk : 0 < chunkCount
  sized : 0 < typeSize

/-- The flags are `PatUsed` and, where `skipped`, `PatSkipped`; -1 is `none`. -/
structure PatStep where
  recvDim : Option Nat
  sendDim : Option Nat
  recvOffset : Option Nat
  sendOffset : Option Nat
  stepOffset : Nat
  postRecv : Bool
  postSend : Bool
  nelem : Nat
  last : Nat
  skipped : Bool
  inpIx : Nat
  outIx : Nat
deriving DecidableEq

def PatStep.plain (ps : PatStep) : PatStep := { ps with last := 0 }

def taken (steps : List PatStep) : List PatStep := steps.filter (!·.skipped)

def firstBitSet (i max : Nat) : Nat := ((range i).find? i.testBit).getD max

/-- The first loop: messages are aggregated while two of them fit a step. -/
def aggregate (stepSize channelBytes nranks : Nat) : Nat → Nat × Nat → Nat × Nat
  | 0, factors => factors
  | fuel + 1, (aggFactor, aggDelta) =>
    if 2 ≤ stepSize / (channelBytes * aggFactor) ∧ aggFactor < nranks / 2 then
      aggregate stepSize channelBytes nranks fuel (aggFactor * 2, aggDelta / 2)
    else (aggFactor, aggDelta)

def deepen (nranks : Nat) : Nat → Nat → Nat × Nat → Nat × Nat
  | 0, _, factors => factors
  | fuel + 1, d, (aggFactor, aggDelta) =>
    if 1 < d ∧ aggFactor < nranks / 2 then
      deepen nranks fuel (d / 2) (aggFactor * 2, aggDelta / 2)
    else (aggFactor, aggDelta)

namespace Args

def nrPow2 (c : Args) : Nat := 1 <<< log2Up c.nranks

def channelSize (c : Args) : Nat := c.stop - c.offset

-- The factor at least doubles in each turn and stops at half the ranks.
def aggregated (c : Args) : Nat × Nat :=
  aggregate c.stepSize (c.channelSize * c.typeSize) c.nranks c.nranks (1, c.nrPow2)

def deepened (c : Args) : Nat × Nat := deepen c.nranks c.nranks c.stepDepth c.aggregated

def postFreq (c : Args) : Nat := c.aggregated.1

def parallelFactor (c : Args) : Nat :=
  if c.postFreq < c.maxParallelFactor then c.postFreq else c.maxParallelFactor

def aggFactor (c : Args) : Nat := c.deepened.1

def aggDelta (c : Args) : Nat := c.deepened.2

def getNelem (c : Args) (offset : Nat) : Nat := min c.chunkCount (c.stop - offset)

def chunks (c : Args) : Nat := divUp (c.stop - c.offset) c.chunkCount

def chunkOffset (c : Args) (i : Nat) : Nat := c.offset + i * c.chunkCount

end Args

theorem Args.lt_chunks (c : Args) (i : Nat) : i < c.chunks ↔ c.chunkOffset i < c.stop := by
  have := c.some_part
  rw [chunks, divUp, Nat.lt_iff_add_one_le, Nat.le_div_iff_mul_le c.some_chunk, Nat.add_mul, chunkOffset]
  omega

theorem Args.getNelem_pos (c : Args) {i : Nat} (inside : i < c.chunks) : 0 < c.getNelem (c.chunkOffset i) := by
  have := c.some_chunk
  rw [c.lt_chunks] at inside
  simp only [getNelem]
  omega

theorem Args.mem_chunk (c : Args) {i x : Nat} (in_part : c.offset ≤ x ∧ x < c.stop) :
    (c.chunkOffset i ≤ x ∧ x < c.chunkOffset i + c.getNelem (c.chunkOffset i)) ↔
      i = (x - c.offset) / c.chunkCount := by
  have inner : (c.chunkOffset i ≤ x ∧ x < c.chunkOffset i + c.getNelem (c.chunkOffset i)) ↔
      i * c.chunkCount ≤ x - c.offset ∧ x - c.offset < i * c.chunkCount + c.chunkCount := by
    simp only [getNelem, chunkOffset]
    omega
  rw [eq_comm, Nat.div_eq_iff c.some_chunk]
  have := c.some_chunk
  omega

theorem Args.chunk_lt (c : Args) {x : Nat} (in_part : c.offset ≤ x ∧ x < c.stop) :
    (x - c.offset) / c.chunkCount < c.chunks := by
  have here := (c.mem_chunk in_part).mpr rfl
  rw [c.lt_chunks]
  omega

theorem Args.chunk_inside (c : Args) {i : Nat} (inside : i < c.chunks) :
    c.chunkOffset i + c.getNelem (c.chunkOffset i) ≤ c.stop := by
  rw [c.lt_chunks] at inside
  simp only [getNelem]
  omega

theorem firstBitSet_odd_mul (f e max : Nat) : firstBitSet ((2 * f + 1) * 2 ^ e) max = e := by
  have bits : ∀ j, ((2 * f + 1) * 2 ^ e).testBit j = (decide (e ≤ j) && (2 * f + 1).testBit (j - e)) := by
    intro j
    exact Nat.testBit_mul_two_pow _ _ _
  have found : (range ((2 * f + 1) * 2 ^ e)).find? ((2 * f + 1) * 2 ^ e).testBit = some e := by
    rw [find?_range_eq_some]
    refine ⟨?_, ?_, ?_⟩
    · simp [bits]
    · rw [mem_range]
      calc e < 2 ^ e := Nat.lt_two_pow_self
        _ ≤ (2 * f + 1) * 2 ^ e := Nat.le_mul_of_pos_left _ (by omega)
    · intro j lt
      simp [bits, Nat.not_le.mpr lt]
  rw [firstBitSet, found, Option.getD_some]

theorem log2Up_two_pow (m : Nat) : log2Up (2 ^ m) = m := by
  unfold log2Up
  cases m with
  | zero => rfl
  | succ m =>
    have := Nat.two_pow_pos m
    rw [if_neg (by omega), Nat.add_right_cancel_iff, Nat.log2_eq_iff (by omega)]
    omega

theorem taken_append (l l' : List PatStep) : taken (l ++ l') = taken l ++ taken l' :=
  filter_append ..

theorem taken_eq_nil {l : List PatStep} (skipped : ∀ ps ∈ l, ps.skipped = true) : taken l = [] := by
  rw [taken, filter_eq_nil_iff]
  intro ps mem
  simp [skipped ps mem]

structure Split (dims k : Nat) (factors : Nat × Nat) : Prop where
  factor : factors.1 = 2 ^ k
  delta : factors.2 = 2 ^ (dims - k)
  some_left : k < dims

theorem Split.double {dims k nranks aggFactor aggDelta : Nat} (ranks_le : nranks ≤ 2 ^ dims)
    (h : Split dims k (aggFactor, aggDelta)) (more : aggFactor < nranks / 2) :
    Split dims (k + 1) (aggFactor * 2, aggDelta / 2) := by
  obtain ⟨hf, delta, _⟩ := h
  simp only at hf delta
  have room : k + 1 < dims := by
    apply (Nat.pow_lt_pow_iff_right (show 1 < 2 by decide)).mp
    omega
  refine ⟨?_, ?_, room⟩
  · rw [hf, Nat.pow_succ]
  · rw [delta, show dims - k = dims - (k + 1) + 1 by omega]
    omega

theorem aggregate_split {stepSize channelBytes nranks dims : Nat} (ranks_le : nranks ≤ 2 ^ dims) :
    ∀ fuel k factors, Split dims k factors →
      ∃ k', k ≤ k' ∧ Split dims k' (aggregate stepSize channelBytes nranks fuel factors)
  | 0, k, _, h => ⟨k, Nat.le_refl k, h⟩
  | fuel + 1, k, (aggFactor, aggDelta), h => by
    rw [aggregate]
    split
    next more =>
      obtain ⟨k', le, h'⟩ :=
        aggregate_split ranks_le fuel (k + 1) _ (h.double ranks_le more.2)
      exact ⟨k', by omega, h'⟩
    · exact ⟨k, Nat.le_refl k, h⟩

theorem deepen_split {nranks dims : Nat} (ranks_le : nranks ≤ 2 ^ dims) :
    ∀ fuel d k factors, Split dims k factors →
      ∃ k', k ≤ k' ∧ Split dims k' (deepen nranks fuel d factors)
  | 0, _, k, _, h => ⟨k, Nat.le_refl k, h⟩
  | fuel + 1, d, k, (aggFactor, aggDelta), h => by
    rw [deepen]
    split
    next more =>
      obtain ⟨k', le, h'⟩ :=
        deepen_split ranks_le fuel (d / 2) (k + 1) _ (h.double ranks_le more.2)
      exact ⟨k', by omega, h'⟩
    · exact ⟨k, Nat.le_refl k, h⟩

theorem aggregate_fits {stepSize channelBytes nranks : Nat} :
    ∀ fuel factors, (aggregate stepSize channelBytes nranks fuel factors).1 = factors.1 ∨
      channelBytes * (aggregate stepSize channelBytes nranks fuel factors).1 ≤ stepSize
  | 0, _ => .inl rfl
  | fuel + 1, (aggFactor, aggDelta) => by
    rw [aggregate]
    split
    next more =>
      rcases aggregate_fits fuel (aggFactor * 2, aggDelta / 2) with same | fits
      · right
        rw [same, ← Nat.mul_assoc]
        have some_bytes : 0 < channelBytes * aggFactor := by
          apply Nat.pos_of_ne_zero
          intro zero
          rw [zero] at more
          omega
        have := (Nat.le_div_iff_mul_le some_bytes).mp more.1
        omega
      · exact .inr fits
    · exact .inl rfl

/-- The sizes the constructor chose: `2 ^ g` trees of `2 ^ m` ranks are aggregated and a message is
posted for every `2 ^ p` of them. -/
structure Powers (c : Args) (g m p : Nat) : Prop where
  factor : c.aggFactor = 2 ^ g
  delta : c.aggDelta = 2 ^ m
  freq : c.postFreq = 2 ^ p
  freq_le : p ≤ g
  some_left : 0 < m
  dims : g + m = log2Up c.nranks
  ranks_le : c.nranks ≤ 2 ^ (g + m)
  lt_ranks : 2 ^ (g + m) < 2 * c.nranks
  parallel_le : c.parallelFactor ≤ 2 ^ p

theorem two_pow_log2Up_lt {n : Nat} (two : 2 ≤ n) : 2 ^ log2Up n < 2 * n := by
  unfold log2Up
  rw [if_neg (by omega)]
  have := Nat.log2_self_le (n := n - 1) (by omega)
  omega

theorem exists_powers (c : Args) : ∃ g m p, Powers c g m p := by
  have two := c.some_ranks
  have up := le_pow2Up c.nranks
  rw [pow2Up_eq] at up
  have start : Split (log2Up c.nranks) 0 (1, c.nrPow2) := by
    refine ⟨rfl, Nat.one_shiftLeft _, ?_⟩
    unfold log2Up
    rw [if_neg (by omega)]
    omega
  obtain ⟨p, -, first⟩ := aggregate_split up c.nranks 0 _ start
  obtain ⟨g, le, hs⟩ := deepen_split up c.nranks c.stepDepth p _ first
  have left := hs.some_left
  have total : g + (log2Up c.nranks - g) = log2Up c.nranks := by omega
  refine ⟨g, log2Up c.nranks - g, p, hs.factor, hs.delta, first.factor, le, by omega, total,
    by rwa [total], ?_, ?_⟩
  · rw [total]
    exact two_pow_log2Up_lt two
  · have freq : c.postFreq = 2 ^ p := first.factor
    unfold Args.parallelFactor
    split <;> omega

theorem message_fits (c : Args) {connStepSize : Nat} (chunk : c.chunkCount ≤ connStepSize)
    (step : c.stepSize ≤ connStepSize * c.typeSize) (i : Nat) :
    c.postFreq * c.getNelem (c.chunkOffset i) ≤ connStepSize := by
  have few : c.getNelem (c.chunkOffset i) ≤ c.channelSize := by
    simp only [Args.getNelem, Args.chunkOffset, Args.channelSize]
    omega
  rcases aggregate_fits c.nranks (1, c.nrPow2) with same | fits
  · have freq : c.postFreq = 1 := same
    rw [freq, Nat.one_mul]
    exact (Nat.min_le_left _ _).trans chunk
  · have bytes : c.channelSize * c.typeSize * c.postFreq ≤ connStepSize * c.typeSize := fits.trans step
    rw [Nat.mul_right_comm] at bytes
    calc c.postFreq * c.getNelem (c.chunkOffset i) ≤ c.postFreq * c.channelSize := Nat.mul_le_mul_left _ few
      _ = c.channelSize * c.postFreq := Nat.mul_comm _ _
      _ ≤ connStepSize := Nat.le_of_mul_le_mul_right bytes c.sized

section Calls

variable {S : Type} (getNextOp : S → PatStep × S)

def run : Nat → S → Option (List PatStep)
  | 0, _ => none
  | fuel + 1, s =>
    if (getNextOp s).1.last = 2 then some [(getNextOp s).1]
    else (run fuel (getNextOp s).2).map ((getNextOp s).1 :: ·)

def Ends (s : S) (steps : List PatStep) : Prop :=
  ∃ fuel all, run getNextOp fuel s = some all ∧ taken (all.map PatStep.plain) = steps

def Follows (s : S) (steps : List PatStep) : Prop :=
  if (getNextOp s).1.last = 2 then steps = [] else Ends getNextOp (getNextOp s).2 steps

variable {getNextOp} {l : List PatStep} {s : S}

theorem follows_of_ne (going : (getNextOp s).1.last ≠ 2) (ends : Ends getNextOp (getNextOp s).2 l) :
    Follows getNextOp s l := by
  unfold Follows
  rwa [if_neg going]

theorem Ends.call (follows : Follows getNextOp s l) :
    Ends getNextOp s (taken [(getNextOp s).1.plain] ++ l) := by
  unfold Follows at follows
  split at follows
  next he =>
    subst follows
    refine ⟨1, [(getNextOp s).1], ?_, ?_⟩
    · rw [run, if_pos he]
    · simp
  next hg =>
    obtain ⟨fuel, all, ran, rest⟩ := follows
    refine ⟨fuel + 1, (getNextOp s).1 :: all, ?_, ?_⟩
    · rw [run, if_neg hg, ran, Option.map_some]
    · rw [map_cons, ← rest, ← singleton_append, taken_append]

theorem Ends.group (state : Nat → S) (step : Nat → PatStep) (n : Nat)
    (inner : ∀ i < n, (getNextOp (state i)).1.last ≠ 2 ∧ (getNextOp (state i)).2 = state (i + 1))
    (steps : ∀ i ≤ n, (getNextOp (state i)).1.plain = step i) (follows : Follows getNextOp (state n) l) :
    Ends getNextOp (state 0) (taken ((range (n + 1)).map step) ++ l) := by
  have from_call : ∀ k i, i + k = n →
      Ends getNextOp (state i) (taken ((range' i (k + 1)).map step) ++ l) := by
    intro k
    induction k with
    | zero =>
      rintro i rfl
      have only := Ends.call follows
      rwa [steps _ (Nat.le_refl _)] at only
    | succ k ih =>
      intro i ht
      obtain ⟨hg, next⟩ := inner i (by omega)
      have later := ih (i + 1) (by omega)
      rw [← next] at later
      have both := Ends.call (follows_of_ne hg later)
      rwa [steps i (by omega), ← append_assoc, ← taken_append, singleton_append, ← map_cons,
        ← range'_succ] at both
  have all := from_call n 0 (Nat.zero_add n)
  rwa [← range_eq_range'] at all

def ChunkEnds (c : Args) (getNextOp : S → PatStep × S) (start : Nat → S) (offset : Nat)
    (steps : List PatStep) : Prop :=
  if c.stop ≤ offset + c.chunkCount then steps = []
  else Ends getNextOp (start (offset + c.chunkCount)) steps

theorem Ends.chunks {c : Args} {start : Nat → S} {chunk : Nat → List PatStep}
    (each : ∀ offset l, ChunkEnds c getNextOp start offset l →
      Ends getNextOp (start offset) (chunk offset ++ l)) :
    Ends getNextOp (start c.offset) ((range c.chunks).flatMap fun i => chunk (c.chunkOffset i)) := by
  have from_chunk : ∀ k i, i + k + 1 = c.chunks → Ends getNextOp (start (c.chunkOffset i))
      ((range' i (k + 1)).flatMap fun i => chunk (c.chunkOffset i)) := by
    intro k
    induction k with
    | zero =>
      intro i ht
      have past : c.stop ≤ c.chunkOffset i + c.chunkCount := by
        have := c.lt_chunks (i + 1)
        rw [Args.chunkOffset, Nat.add_mul, ← Nat.add_assoc, ← Args.chunkOffset] at this
        omega
      have ended : ChunkEnds c getNextOp start (c.chunkOffset i) [] := by rw [ChunkEnds, if_pos past]
      simpa using each _ _ ended
    | succ k ih =>
      intro i ht
      have more : c.chunkOffset i + c.chunkCount = c.chunkOffset (i + 1) := by
        rw [Args.chunkOffset, Args.chunkOffset, Nat.add_mul, Nat.one_mul, Nat.add_assoc]
      have inside := (c.lt_chunks (i + 1)).mp (by omega)
      apply each
      rw [ChunkEnds, more, if_neg (by omega)]
      exact ih (i + 1) (by omega)
  have some_chunk : 0 < c.chunks := by
    rw [c.lt_chunks, Args.chunkOffset]
    have := c.some_part
    omega
  have all := from_chunk (c.chunks - 1) 0 (by omega)
  rw [Nat.sub_add_cancel some_chunk, ← range_eq_range', Args.chunkOffset, Nat.zero_mul] at all
  exact all

end Calls

end Vccl.Pat
