import Vccl.Pat.Order

/-! The all-gather algorithm as a machine that hands out one step per call, and the steps it hands out:
for each chunk the dimensions above the aggregated step from the highest down, then the aggregated steps
in their order. A group is the steps of one phase with the same aggregated step. -/
namespace Vccl.Pat.Gather

open List

inductive Phase
  | zero
  | one
  | two
deriving DecidableEq

structure State where
  offset : Nat
  nelem : Nat
  phase : Phase
  scale : Nat
  as : Nat
  a : Nat
  lastA : Nat
  bits : Bits

section Machine

variable (c : Args)

def asDim : Nat := log2Up c.aggDelta

def resetA (s : State) : State :=
  { s with
    a := 0
    lastA := match s.phase with
      | .two => c.aggFactor / (2 * s.scale)
      | _ => c.aggFactor }

def reset (offset : Nat) : State :=
  let scale := c.aggFactor / 2
  let bits := nextAs (asDim c) (resetBits (asDim c))
  resetA c
    { offset, nelem := c.getNelem offset, phase := if scale ≠ 0 then .two else .one, scale,
      as := bits.v, a := 0, lastA := 0, bits }

variable (rank offset nelem : Nat)

def phase0 (as a : Nat) : PatStep :=
  let s := a * c.aggDelta + as
  { recvDim := some 0
    sendDim := none
    recvOffset := some (a % c.postFreq * nelem)
    sendOffset := none
    stepOffset := 0
    postRecv := a % c.postFreq = c.postFreq - 1 ∨ c.nranks ≤ (a + 1) * c.aggDelta + as
    postSend := false
    nelem
    last := 0
    skipped := c.nranks ≤ s
    inpIx := 0
    outIx := (rank + s) % c.nranks * c.count + offset }

/-- Send on the lowest dimension of the aggregated step the block that came on the next one. -/
def phase1 (as a : Nat) : PatStep :=
  let s := a * c.aggDelta + as
  let skip := c.nranks ≤ s
  let sendDim := firstBitSet s c.nrPow2
  let s := s - 1 <<< sendDim
  let recvDim := if s ≠ 0 then some (firstBitSet s c.nrPow2) else none
  let postSend := a % c.postFreq = c.postFreq - 1 ∨ c.nranks ≤ (a + 1) * c.aggDelta + as
  let postRecv := sendDim = 0 ∧
    (a % c.postFreq = c.postFreq - 1 ∨ c.nranks ≤ (a + 1) * c.aggDelta + as - 1)
  let stepOffset := if sendDim = 0 then 0 else a / c.postFreq
  let ps : PatStep :=
    { recvDim
      sendDim := some sendDim
      recvOffset := some (a % c.postFreq * nelem)
      sendOffset := some (a % c.postFreq * nelem)
      stepOffset
      postRecv
      postSend
      nelem
      last := 0
      skipped := skip
      inpIx := offset
      outIx := (rank + c.nranks + s) % c.nranks * c.count + offset }
  let ps := match recvDim with
    | none => { ps with recvOffset := none, postRecv := false }
    | some recvDim =>
      if as = 1 <<< sendDim then
        let foffset := (a * c.aggDelta) >>> (recvDim + 1)
        { ps with
          recvOffset := some (foffset % c.postFreq * nelem)
          postRecv := sendDim = 0 ∧ (foffset % c.postFreq = c.postFreq - 1 ∨
            c.nranks ≤ ((foffset + 1) * 2 + 1) <<< recvDim)
          stepOffset := if sendDim = 0 then 0 else foffset / c.postFreq }
      else ps
  -- A block that is not sent on is received all the same.
  if s < c.nranks ∧ sendDim = 0 ∧ skip then
    { ps with sendDim := none, sendOffset := none, postSend := false, skipped := false }
  else ps

def phase2 (scale a : Nat) : PatStep :=
  let s := (2 * a + 1) * scale * c.aggDelta
  let skip := c.nranks ≤ s
  let sendDim := firstBitSet s c.nrPow2
  let s := s - 1 <<< sendDim
  let recvDim := if s ≠ 0 then some (firstBitSet s c.nrPow2) else none
  let ps : PatStep :=
    { recvDim
      sendDim := some sendDim
      recvOffset := none
      sendOffset := some (a % c.postFreq * nelem)
      stepOffset := a / c.postFreq
      postRecv := false
      postSend := a % c.postFreq = c.postFreq - 1 ∨
        c.nranks ≤ (2 * (a + 1) + 1) * scale * c.aggDelta
      nelem
      last := 0
      skipped := skip
      inpIx := offset
      outIx := (rank + c.nranks + s) % c.nranks * c.count + offset }
  match recvDim with
  | none => ps
  | some recvDim =>
    let foffset := (a * 2 * scale * c.aggDelta) >>> (recvDim + 1)
    { ps with
      recvOffset := some (foffset % c.postFreq * nelem)
      stepOffset := foffset / c.postFreq }

/-- A step past the end of the group. Only its flag is written; the rest is what the slot held. -/
def padding : PatStep :=
  { recvDim := none, sendDim := none, recvOffset := none, sendOffset := none, stepOffset := 0
    postRecv := false, postSend := false, nelem, last := 0, skipped := true, inpIx := offset, outIx := 0 }

def fields (s : State) : PatStep :=
  if s.lastA ≤ s.a then padding s.offset s.nelem
  else match s.phase with
    | .zero => phase0 c rank s.offset s.nelem s.as s.a
    | .one => phase1 c rank s.offset s.nelem s.as s.a
    | .two => phase2 c rank s.offset s.nelem s.scale s.a

/-- What follows a group, with the mark `last` of its last step. -/
def nextGroup (s : State) : State × Nat :=
  let p := s.phase
  let scale := if p = .two then s.scale / 2 else s.scale
  let phase := match p with
    | .two => if scale ≠ 0 then Phase.two else .one
    | .one => if s.as % 2 = 1 then .zero else .one
    | .zero => .one
  let bits := if p = .zero ∨ (p = .one ∧ s.as % 2 = 0) then nextAs (asDim c) s.bits else s.bits
  let as := if p = .zero ∨ (p = .one ∧ s.as % 2 = 0) then bits.v else s.as
  let s := { s with scale, phase, bits, as }
  if p = .zero ∧ as = c.aggDelta / 2 then
    let offset := s.offset + c.chunkCount
    if c.stop ≤ offset then ({ s with offset }, 2) else (reset c offset, 0)
  else (resetA c s, 0)

def getNextOp (s : State) : PatStep × State :=
  let ps := fields c rank s
  let s := { s with a := s.a + 1 }
  if s.lastA ≤ s.a ∧ c.parallelFactor ≤ s.a then
    let (s, last) := nextGroup c s
    ({ ps with last }, s)
  else if s.phase = .zero ∧ s.as = 1 ∧ c.stop ≤ s.offset + c.chunkCount ∧
      (s.lastA - 1) / c.parallelFactor * c.parallelFactor ≤ s.a - 1 then
    ({ ps with last := 1 }, s)
  else (ps, s)

def Runs (steps : List PatStep) : Prop :=
  ∃ fuel, run (getNextOp c rank) fuel (reset c c.offset) = some steps

end Machine

section Groups

variable {c : Args} {rank : Nat}

theorem fields_plain (s : State) : (fields c rank s).plain = fields c rank s := by
  unfold fields
  split
  · rfl
  split
  · rfl
  · simp only [phase1]
    split <;> split <;> (try split) <;> rfl
  · simp only [phase2]
    split <;> rfl

def group (c : Args) (rank : Nat) (s : State) : List PatStep :=
  taken ((range s.lastA).map fun a => fields c rank { s with a })

def After (c : Args) (rank : Nat) (s : State) (steps : List PatStep) : Prop :=
  ∀ a, if (nextGroup c { s with a }).2 = 2 then steps = []
    else Ends (getNextOp c rank) (nextGroup c { s with a }).1 steps

/-- The calls a group takes; a worker without a step in it gets a step it skips. -/
def calls (c : Args) (s : State) : Nat := max s.lastA c.parallelFactor

theorem taken_calls (s : State) :
    taken ((range (calls c s)).map fun a => fields c rank { s with a }) = group c rank s := by
  obtain ⟨_, ht⟩ := Nat.exists_eq_add_of_le (show s.lastA ≤ calls c s by simp [calls])
  rw [ht, range_add, map_append, taken_append, group, map_map]
  convert append_nil _
  apply taken_eq_nil
  intro ps mem
  simp only [mem_map] at mem
  obtain ⟨i, _, rfl⟩ := mem
  simp [fields, padding]

theorem getNextOp_plain (s : State) : (getNextOp c rank s).1.plain = fields c rank s := by
  simp only [getNextOp]
  split
  · exact fields_plain s
  · split
    all_goals exact fields_plain s

theorem getNextOp_inner {s : State} (more : ¬ (s.lastA ≤ s.a + 1 ∧ c.parallelFactor ≤ s.a + 1)) :
    (getNextOp c rank s).1.last ≠ 2 ∧ (getNextOp c rank s).2 = { s with a := s.a + 1 } := by
  have none_yet : (fields c rank s).last = 0 := by
    rw [← fields_plain]
    rfl
  simp only [getNextOp]
  rw [if_neg more]
  split
  · exact ⟨by simp, rfl⟩
  · exact ⟨by simp [none_yet], rfl⟩

theorem ends_group {s : State} {l : List PatStep} (start : s.a = 0) (some_step : 0 < s.lastA)
    (after : After c rank s l) : Ends (getNextOp c rank) s (group c rank s ++ l) := by
  have total : calls c s - 1 + 1 = calls c s := by
    simp only [calls]
    omega
  have all : Ends (getNextOp c rank) { s with a := 0 }
      (taken ((range (calls c s - 1 + 1)).map fun a => fields c rank { s with a }) ++ l) := by
    apply Ends.group (fun a => ({ s with a } : State)) (fun a => fields c rank { s with a })
    · intro i lt
      apply getNextOp_inner
      simp only [calls] at lt ⊢
      omega
    · exact fun i _ => getNextOp_plain { s with a := i }
    · have done : s.lastA ≤ calls c s - 1 + 1 ∧ c.parallelFactor ≤ calls c s - 1 + 1 := by
        rw [total]
        simp [calls]
      have later := after (calls c s - 1 + 1)
      simp only [Follows, getNextOp]
      simpa [done] using later
  rw [total, taken_calls] at all
  rwa [show s = { s with a := 0 } by rw [← start]]

end Groups

section Program

variable (c : Args) (rank offset : Nat)

def twoGroup (scale : Nat) : List PatStep :=
  taken ((range (c.aggFactor / (2 * scale))).map (phase2 c rank offset (c.getNelem offset) scale))

def oneGroup (as : Nat) : List PatStep :=
  taken ((range c.aggFactor).map (phase1 c rank offset (c.getNelem offset) as))

def zeroGroup (as : Nat) : List PatStep :=
  taken ((range c.aggFactor).map (phase0 c rank offset (c.getNelem offset) as))

def asSteps (as : Nat) : List PatStep :=
  oneGroup c rank offset as ++ if as % 2 = 1 then zeroGroup c rank offset as else []

def chunkSteps (g m : Nat) : List PatStep :=
  ((range g).reverse.flatMap fun k => twoGroup c rank offset (2 ^ k)) ++
    (asOrder m).flatMap (asSteps c rank offset)

def stateAt (phase : Phase) (scale : Nat) (bits : Bits) : State :=
  resetA c { offset, nelem := c.getNelem offset, phase, scale, as := bits.v, a := 0, lastA := 0, bits }

variable {c rank offset} {g m p : Nat} {bits : Bits} {l : List PatStep}

theorem group_within (s : State) : group c rank s = taken ((range s.lastA).map fun a => match s.phase with
    | .zero => phase0 c rank s.offset s.nelem s.as a
    | .one => phase1 c rank s.offset s.nelem s.as a
    | .two => phase2 c rank s.offset s.nelem s.scale a) := by
  apply congrArg taken
  apply map_congr_left
  intro a hi
  exact if_neg (Nat.not_le.mpr (mem_range.mp hi))

theorem group_two (scale : Nat) :
    group c rank (stateAt c offset .two scale bits) = twoGroup c rank offset scale := group_within _

theorem group_one (scale : Nat) :
    group c rank (stateAt c offset .one scale bits) = oneGroup c rank offset bits.v := group_within _

theorem group_zero (scale : Nat) :
    group c rank (stateAt c offset .zero scale bits) = zeroGroup c rank offset bits.v := group_within _

theorem after_of_next {s s' : State} (next : ∀ a, nextGroup c { s with a } = (s', 0))
    (ends : Ends (getNextOp c rank) s' l) : After c rank s l := by
  intro a
  rw [next a]
  exact ends

section

variable (powers : Powers c g m p)
include powers

theorem ends_twoGroup {k : Nat} (inside : k < g)
    (later : Ends (getNextOp c rank)
      (stateAt c offset (if 2 ^ k / 2 ≠ 0 then .two else .one) (2 ^ k / 2) bits) l) :
    Ends (getNextOp c rank) (stateAt c offset .two (2 ^ k) bits)
      (twoGroup c rank offset (2 ^ k) ++ l) := by
  rw [← group_two (2 ^ k)]
  apply ends_group
  · rfl
  · apply Nat.div_pos
    · rw [powers.factor, ← Nat.pow_succ']
      exact Nat.pow_le_pow_right (by decide) inside
    · exact Nat.mul_pos (by decide) (Nat.two_pow_pos k)
  · exact after_of_next (fun _ => rfl) later

theorem ends_two {k : Nat} (inside : k < g)
    (later : Ends (getNextOp c rank) (stateAt c offset .one 0 bits) l) :
    Ends (getNextOp c rank) (stateAt c offset .two (2 ^ k) bits)
      (((range (k + 1)).reverse.flatMap fun k => twoGroup c rank offset (2 ^ k)) ++ l) := by
  induction k with
  | zero => simpa using ends_twoGroup powers inside later
  | succ k ih =>
    have half : 2 ^ (k + 1) / 2 = 2 ^ k := by
      omega
    rw [range_succ, reverse_concat, flatMap_cons, append_assoc]
    apply ends_twoGroup powers inside
    rw [half, if_pos (Nat.two_pow_pos k).ne']
    exact ih (by omega)

theorem aggFactor_pos : 0 < c.aggFactor := by
  rw [powers.factor]
  exact Nat.two_pow_pos g

variable {scale : Nat}

theorem ends_one
    (later : Ends (getNextOp c rank) (if bits.v % 2 = 1 then stateAt c offset .zero scale bits else stateAt c offset .one scale (nextAs (asDim c) bits)) l) :
    Ends (getNextOp c rank) (stateAt c offset .one scale bits)
      (oneGroup c rank offset bits.v ++ l) := by
  rw [← group_one scale]
  apply ends_group
  · rfl
  · exact aggFactor_pos powers
  · apply after_of_next _ later
    intro a
    rcases Nat.mod_two_eq_zero_or_one bits.v with even | odd
    · simp [nextGroup, stateAt, resetA, even]
    · simp [nextGroup, stateAt, resetA, odd]

theorem ends_zero
    (later : if (nextAs (asDim c) bits).v = c.aggDelta / 2 then ChunkEnds c (getNextOp c rank) (reset c) offset l else Ends (getNextOp c rank) (stateAt c offset .one scale (nextAs (asDim c) bits)) l) :
    Ends (getNextOp c rank) (stateAt c offset .zero scale bits)
      (zeroGroup c rank offset bits.v ++ l) := by
  rw [← group_zero scale]
  apply ends_group
  · rfl
  · exact aggFactor_pos powers
  intro a
  by_cases ho : (nextAs (asDim c) bits).v = c.aggDelta / 2
  · rw [if_pos ho] at later
    unfold ChunkEnds at later
    split at later
    next past =>
      simp [nextGroup, stateAt, resetA, ho, past, later]
    next more =>
      simpa [nextGroup, stateAt, resetA, ho, more] using later
  · simpa [nextGroup, stateAt, resetA, ho] using later

def Stand (asDim : Nat) (bits : Bits) : List Nat → Prop
  | [] => True
  | x :: rest => bits.v = x ∧ Returns asDim bits rest

theorem ends_order (before : List Nat) (bits : Bits)
    (stand : Stand (asDim c) bits (before ++ [1] ++ [c.aggDelta / 2]))
    (apart : ∀ x ∈ (before ++ [1]).tail, x ≠ c.aggDelta / 2)
    (later : ChunkEnds c (getNextOp c rank) (reset c) offset l) :
    Ends (getNextOp c rank) (stateAt c offset .one scale bits)
      ((before ++ [1]).flatMap (asSteps c rank offset) ++ l) := by
  induction before generalizing bits with
  | nil =>
    obtain ⟨hv, next, -⟩ := stand
    rw [nil_append, flatMap_singleton, asSteps, ← hv, append_assoc]
    apply ends_one powers
    rw [hv]
    simp only [if_true]
    rw [← hv]
    apply ends_zero powers
    rwa [if_pos next]
  | cons x rest ih =>
    obtain ⟨hv, returns⟩ := stand
    have stand' : Stand (asDim c) (nextAs (asDim c) bits) (rest ++ [1] ++ [c.aggDelta / 2]) := by
      cases rest with
      | nil => exact returns
      | cons y rest => exact returns
    have next : (nextAs (asDim c) bits).v ≠ c.aggDelta / 2 := by
      apply apart
      cases rest with
      | nil => simp [returns.1]
      | cons y rest => simp [returns.1]
    have tail := ih (nextAs (asDim c) bits) stand'
      (fun y mem => apart y (mem_of_mem_tail mem))
    rw [cons_append, flatMap_cons, asSteps, ← hv, append_assoc, append_assoc]
    apply ends_one powers
    split
    · apply ends_zero powers
      rwa [if_neg next]
    · exact tail

theorem asDim_eq : asDim c = m := by
  rw [asDim, powers.delta, log2Up_two_pow]

theorem ends_chunk (later : ChunkEnds c (getNextOp c rank) (reset c) offset l) :
    Ends (getNextOp c rank) (reset c offset) (chunkSteps c rank offset g m ++ l) := by
  have dim := asDim_eq powers
  obtain ⟨d, rfl⟩ : ∃ d, m = d + 1 := ⟨m - 1, by have := powers.some_left; omega⟩
  have half : c.aggDelta / 2 = 2 ^ d := by
    rw [powers.delta]
    omega
  have returns := resetBits_returns (Nat.succ_pos d)
  obtain ⟨before, ho, -⟩ := asOrder_last d
  have tail := asOrder_tail d
  rw [← half] at tail
  have stand : Stand (asDim c) (nextAs (asDim c) (resetBits (asDim c)))
      (asOrder (d + 1) ++ [c.aggDelta / 2]) := by
    rw [dim, half]
    exact returns
  rw [ho] at stand tail
  have orders : ∀ scale, Ends (getNextOp c rank)
      (stateAt c offset .one scale (nextAs (asDim c) (resetBits (asDim c))))
      ((asOrder (d + 1)).flatMap (asSteps c rank offset) ++ l) := by
    intro scale
    rw [ho]
    exact ends_order powers before _ stand tail later
  rw [chunkSteps, append_assoc]
  cases g with
  | zero =>
    have none_above : c.aggFactor / 2 = 0 := by
      rw [powers.factor]
      rfl
    have start : reset c offset =
        stateAt c offset .one (c.aggFactor / 2) (nextAs (asDim c) (resetBits (asDim c))) := by
      simp [reset, stateAt, none_above]
    rw [start]
    exact orders _
  | succ g =>
    have above : c.aggFactor / 2 = 2 ^ g := by
      rw [powers.factor]
      omega
    have start : reset c offset =
        stateAt c offset .two (2 ^ g) (nextAs (asDim c) (resetBits (asDim c))) := by
      simp [reset, stateAt, above]
    rw [start]
    exact ends_two powers (Nat.lt_succ_self g) (orders 0)

def program (c : Args) (rank g m : Nat) : List PatStep :=
  (range c.chunks).flatMap fun i => chunkSteps c rank (c.chunkOffset i) g m

theorem ends_program :
    Ends (getNextOp c rank) (reset c c.offset) (program c rank g m) :=
  Ends.chunks fun _ _ later => ends_chunk powers later

end

end Program

end Vccl.Pat.Gather
