import Vccl.Plan.Work

/-! What the batches of a channel say: the work structs they refer to, and which of them are fused
on the device. -/
namespace Vccl.Plan

open List

structure Append where
  channel : Fin maxChannels
  workType : WorkType
  funcId : DevFunc
  workOffset : Nat
  p2pRound : Nat
  deriving DecidableEq

def oneBits (x : Nat) : List Nat := (range 64).filter fun i => x.testBit i

theorem mem_oneBits {x i : Nat} : i ∈ oneBits x ↔ i < 64 ∧ x.testBit i = true := by
  simp [oneBits]

theorem oneBits_lor {x k : Nat} (word : k < 64) (above : ∀ i ∈ oneBits x, i < k) :
    oneBits (x ||| 1 <<< k) = oneBits x ++ [k] := by
  obtain ⟨d, split⟩ := Nat.exists_eq_add_of_le (Nat.succ_le_of_lt word)
  have high : ∀ i, k ≤ i → i < 64 → x.testBit i = false := by
    intro i later hi
    by_contra set
    have := above i (mem_oneBits.mpr ⟨hi, by simpa using set⟩)
    omega
  have bits : ∀ i, (x ||| 1 <<< k).testBit i = (x.testBit i || decide (i = k)) := by
    intro i
    rw [Nat.testBit_or, Nat.one_shiftLeft, Nat.testBit_two_pow]
    simp [eq_comm]
  have range : List.range 64 = List.range k ++ k :: (List.range d).map (k + 1 + ·) := by
    rw [split, range_add, range_succ]
    simp
  have rest : ∀ f : Nat → Bool, (∀ i, k < i → i < 64 → f i = false) →
      ((List.range d).map (k + 1 + ·)).filter f = [] := by
    intro f none
    simp only [filter_eq_nil_iff, mem_map, mem_range]
    rintro i ⟨j, hi, rfl⟩
    simp [none (k + 1 + j) (by omega) (by omega)]
  unfold oneBits
  rw [range, filter_append, filter_append, filter_cons, filter_cons, rest, rest]
  · have below : ∀ i ∈ List.range k, (x ||| 1 <<< k).testBit i = x.testBit i := by
      intro i hi
      have differs : i ≠ k := Nat.ne_of_lt (mem_range.mp hi)
      rw [bits]
      simp [differs]
    have here : x.testBit k = false := high k (Nat.le_refl k) word
    rw [filter_congr below, here]
    simp
  · intro i later hi
    exact high i (by omega) hi
  · intro i later hi
    have differs : i ≠ k := by omega
    rw [bits, high i (by omega) hi]
    simp [differs]

def Batch.offsets (b : Batch) : List Nat :=
  (oneBits b.offsetBitset).map fun i => b.offsetBase + i * devWorkSize b.workType

structure Encodes (batches : List Batch) (group : List Append) : Prop where
  flags : ∃ init last, batches = init ++ [last] ∧ (∀ b ∈ init, b.nextExtends = true) ∧
    last.nextExtends = false
  bases : ∀ b ∈ batches, b.offsetBitset.testBit 0 = true
  offsets : batches.flatMap Batch.offsets = group.map (·.workOffset)
  alike : ∀ b ∈ batches, ∀ a ∈ group, a.workType = b.workType ∧ a.funcId = b.funcId

def bytesOf (group : List Append) : Nat := (group.map fun a => devWorkSize a.workType).sum

structure Fits (group : List Append) : Prop where
  nonempty : group ≠ []
  bytes : bytesOf group ≤ maxDevWorkBatchBytes
  p2p : (∃ a ∈ group, a.workType = .p2p) →
    group.length ≤ maxDevWorkP2pPerBatch ∧ (group.map (·.p2pRound)).Nodup

structure Holds (chan : WipChannel) (groups : List (List Batch × List Append)) : Prop where
  batches : chan.batches = groups.flatMap (·.1)
  each : ∀ p ∈ groups, Encodes p.1 p.2 ∧ Fits p.2
  wip : ∀ p ∈ groups.getLast?, chan.wipBytes = bytesOf p.2 ∧
    ((∃ a ∈ p.2, a.workType = .p2p) → chan.wipRounds = p.2.map (·.p2pRound))

theorem encodes_blank (a : Append) :
    Encodes [⟨false, a.workType, a.funcId, a.workOffset, 1⟩] [a] := by
  refine ⟨⟨[], _, rfl, by simp, rfl⟩, by simp, ?_, by simp⟩
  have bits : oneBits 1 = [0] := by decide
  simp [Batch.offsets, bits]

theorem fits_single (a : Append) : Fits [a] := by
  refine ⟨by simp, ?_, by simp [maxDevWorkP2pPerBatch]⟩
  cases type : a.workType <;> simp [bytesOf, type, devWorkSize, maxDevWorkBatchBytes]

variable {chan : WipChannel} {groups : List (List Batch × List Append)}

theorem Holds.open (h : Holds chan groups) (a : Append)
    (fresh : newBatch chan a.workType a.funcId a.p2pRound = true) :
    Holds (addWorkBatch chan a.workType a.funcId a.workOffset a.p2pRound).1
      (groups ++ [([⟨false, a.workType, a.funcId, a.workOffset, 1⟩], [a])]) := by
  simp only [addWorkBatch, fresh]
  refine ⟨by simp [h.batches], ?_, ?_⟩
  · exact forall_mem_append.mpr ⟨h.each, forall_mem_singleton.mpr ⟨encodes_blank a, fits_single a⟩⟩
  · simp +contextual [bytesOf]

theorem updateTail_append (f : Batch → Batch) (init : List Batch) (tail : Batch) :
    updateTail f (init ++ [tail]) = init ++ [f tail] := by
  simp [updateTail]

structure Continues (chan : WipChannel) (a : Append) (tail : Batch) : Prop where
  workType : tail.workType = a.workType
  funcId : tail.funcId = a.funcId
  bytes : chan.wipBytes + devWorkSize a.workType ≤ maxDevWorkBatchBytes
  p2p : a.workType = .p2p → chan.wipRounds.length ≠ maxDevWorkP2pPerBatch ∧ a.p2pRound ∉ chan.wipRounds

variable {a : Append} {init : List Batch} {tail : Batch}

theorem continues_of_not_fresh (batches : chan.batches = init ++ [tail])
    (old : newBatch chan a.workType a.funcId a.p2pRound = false) : Continues chan a tail := by
  simp only [newBatch, batches, getLast?_append, getLast?_singleton, Option.some_or,
    Bool.or_eq_false_iff, decide_eq_false_iff_not, not_not, Nat.not_lt] at old
  obtain ⟨⟨⟨type, func⟩, bytes⟩, p2p⟩ := old
  refine ⟨type, func, bytes, ?_⟩
  intro hi
  simpa [hi] using p2p

variable {group : List Append}

theorem p2p_of_mem (nonempty : group ≠ []) (alike : ∀ a' ∈ group, a'.workType = a.workType)
    (some' : ∃ a' ∈ group ++ [a], a'.workType = .p2p) :
    a.workType = .p2p ∧ ∃ a' ∈ group, a'.workType = .p2p := by
  obtain ⟨first, hi⟩ := exists_mem_of_ne_nil group nonempty
  obtain ⟨a', mem, his⟩ := some'
  have type : a.workType = .p2p := by
    rcases mem_append.mp mem with old | new
    · rw [← alike a' old, his]
    · rw [← mem_singleton.mp new, his]
  exact ⟨type, first, hi, (alike first hi).trans type⟩

theorem Fits.add (h : Fits group) (more : Continues chan a tail) (alike : ∀ a' ∈ group, a'.workType = a.workType)
    (wipBytes : chan.wipBytes = bytesOf group)
    (wipRounds : (∃ a' ∈ group, a'.workType = .p2p) → chan.wipRounds = group.map (·.p2pRound)) :
    Fits (group ++ [a]) := by
  refine ⟨by simp, ?_, ?_⟩
  · simpa [bytesOf, wipBytes] using more.bytes
  intro some'
  obtain ⟨type, old⟩ := p2p_of_mem h.nonempty alike some'
  obtain ⟨_, hd⟩ := h.p2p old
  obtain ⟨hn, newRound⟩ := more.p2p type
  rw [wipRounds old] at hn newRound
  rw [length_map] at hn
  refine ⟨by rw [length_append, length_singleton]; omega, ?_⟩
  rw [map_append]
  exact hd.append (nodup_singleton _) (disjoint_singleton.mpr newRound)

theorem Holds.grow {chan' : WipChannel} {init : List (List Batch × List Append)} {gb gb' : List Batch}
    (h : Holds chan (init ++ [(gb, group)])) (more : Continues chan a tail) (isTail : tail ∈ gb)
    (batches : chan'.batches = init.flatMap (·.1) ++ gb') (encodes : Encodes gb' (group ++ [a]))
    (wipBytes : chan'.wipBytes = chan.wipBytes + devWorkSize a.workType)
    (wipRounds : a.workType = .p2p → chan'.wipRounds = chan.wipRounds ++ [a.p2pRound]) :
    Holds chan' (init ++ [(gb', group ++ [a])]) := by
  obtain ⟨each, last⟩ := forall_mem_append.mp h.each
  obtain ⟨he, fits⟩ := forall_mem_singleton.mp last
  obtain ⟨hb, rounds⟩ := h.wip (gb, group) (by simp)
  have alike : ∀ a' ∈ group, a'.workType = a.workType :=
    fun a' mem => (he.alike tail isTail a' mem).1.trans more.workType
  refine ⟨by simp [batches], ?_, ?_⟩
  · exact forall_mem_append.mpr
      ⟨each, forall_mem_singleton.mpr ⟨encodes, fits.add more alike hb rounds⟩⟩
  intro p last
  obtain rfl : p = (gb', group ++ [a]) := by simpa [eq_comm] using last
  refine ⟨by simp [wipBytes, hb, bytesOf], ?_⟩
  intro some'
  obtain ⟨type, old⟩ := p2p_of_mem fits.nonempty alike some'
  rw [wipRounds type, rounds old, map_append, map_singleton]

theorem Encodes.like_all {gb : List Batch} (h : Encodes gb group) (nonempty : group ≠ []) (isTail : tail ∈ gb)
    (like : a.workType = tail.workType ∧ a.funcId = tail.funcId) :
    ∀ b ∈ gb, ∀ a' ∈ group ++ [a], a'.workType = b.workType ∧ a'.funcId = b.funcId := by
  obtain ⟨first, hi⟩ := exists_mem_of_ne_nil group nonempty
  intro b mem
  refine forall_mem_append.mpr ⟨h.alike b mem, forall_mem_singleton.mpr ?_⟩
  obtain ⟨type, func⟩ := h.alike b mem first hi
  obtain ⟨type', func'⟩ := h.alike tail isTail first hi
  rw [like.1, like.2, ← type, ← func, type', func']
  exact ⟨rfl, rfl⟩

theorem Encodes.flags_at (h : Encodes (init ++ [tail]) group) :
    (∀ b ∈ init, b.nextExtends = true) ∧ tail.nextExtends = false := by
  obtain ⟨_, _, same, hf, hc⟩ := h.flags
  obtain ⟨rfl, hl⟩ := append_inj' same rfl
  obtain rfl := singleton_inj.mp hl
  exact ⟨hf, hc⟩

theorem Encodes.setBit (h : Encodes (init ++ [tail]) group) (nonempty : group ≠ [])
    (like : a.workType = tail.workType ∧ a.funcId = tail.funcId) (later : ∀ a' ∈ group, a'.workOffset < a.workOffset)
    {k : Nat} (word : k < 64) (place : a.workOffset = tail.offsetBase + k * devWorkSize tail.workType) :
    Encodes (init ++ [{ tail with offsetBitset := tail.offsetBitset ||| 1 <<< k }]) (group ++ [a]) := by
  have kinds := h.like_all nonempty (mem_append_right _ mem_cons_self) like
  obtain ⟨hf, closed⟩ := h.flags_at
  obtain ⟨-, bases, offsets, -⟩ := h
  rw [forall_mem_append, forall_mem_singleton] at bases
  refine ⟨⟨init, _, rfl, hf, closed⟩, ?_, ?_, ?_⟩
  · refine forall_mem_append.mpr ⟨bases.1, forall_mem_singleton.mpr ?_⟩
    rw [Nat.testBit_or, bases.2, Bool.true_or]
  · rw [flatMap_append, flatMap_singleton] at offsets ⊢
    have above : ∀ i ∈ oneBits tail.offsetBitset, i < k := by
      intro i set
      have mem : tail.offsetBase + i * devWorkSize tail.workType ∈ group.map (·.workOffset) := by
        rw [← offsets]
        exact mem_append_right _ (mem_map.mpr ⟨i, set, rfl⟩)
      obtain ⟨a', hi, at'⟩ := mem_map.mp mem
      have before := later a' hi
      rw [at', place] at before
      exact Nat.lt_of_mul_lt_mul_right (Nat.lt_of_add_lt_add_left before)
    have bits : Batch.offsets { tail with offsetBitset := tail.offsetBitset ||| 1 <<< k } =
        tail.offsets ++ [a.workOffset] := by
      simp only [Batch.offsets]
      rw [oneBits_lor word above, map_append, map_singleton, ← place]
    rw [bits, ← append_assoc, offsets, map_append, map_singleton]
  · rw [forall_mem_append] at kinds ⊢
    exact ⟨kinds.1, forall_mem_singleton.mpr (kinds.2 tail mem_cons_self)⟩

theorem Encodes.extend (h : Encodes (init ++ [tail]) group) (nonempty : group ≠ [])
    (like : a.workType = tail.workType ∧ a.funcId = tail.funcId) :
    Encodes (init ++ [{ tail with nextExtends := true }] ++
      [⟨false, a.workType, a.funcId, a.workOffset, 1⟩]) (group ++ [a]) := by
  have kinds := h.like_all nonempty (mem_append_right _ mem_cons_self) like
  obtain ⟨hf, -⟩ := h.flags_at
  obtain ⟨-, bases, offsets, -⟩ := h
  rw [forall_mem_append, forall_mem_singleton] at bases kinds
  refine ⟨⟨_, _, rfl, ?_, rfl⟩, ?_, ?_, ?_⟩
  · exact forall_mem_append.mpr ⟨hf, forall_mem_singleton.mpr rfl⟩
  · rw [forall_mem_append, forall_mem_append, forall_mem_singleton]
    exact ⟨bases, by simp⟩
  · have bits : oneBits 1 = [0] := by decide
    simp only [map_append, ← offsets]
    simp [Batch.offsets, bits]
  · rw [forall_mem_append, forall_mem_append, forall_mem_singleton, forall_mem_singleton]
    refine ⟨kinds, ?_⟩
    rw [like.1, like.2]
    exact kinds.2

theorem Holds.step (h : Holds chan groups) (a : Append)
    (later : ∀ a' ∈ groups.flatMap (·.2), a'.workOffset < a.workOffset) :
    ∃ groups', Holds (addWorkBatch chan a.workType a.funcId a.workOffset a.p2pRound).1 groups' ∧
      groups'.flatMap (·.2) = groups.flatMap (·.2) ++ [a] := by
  cases hf : newBatch chan a.workType a.funcId a.p2pRound with
  | true => exact ⟨_, h.open a hf, by simp⟩
  | false =>
    rcases eq_nil_or_concat groups with rfl | ⟨init, ⟨gb, group⟩, rfl⟩
    · have none : chan.batches = [] := by simpa using h.batches
      simp [newBatch, none] at hf
    rw [concat_eq_append] at *
    obtain ⟨he, fits⟩ := h.each (gb, group) (by simp)
    obtain ⟨before, tail, rfl, -⟩ := he.flags
    have batches : chan.batches = (init.flatMap (·.1) ++ before) ++ [tail] := by simp [h.batches]
    have more := continues_of_not_fresh batches hf
    have like : a.workType = tail.workType ∧ a.funcId = tail.funcId := ⟨more.workType.symm, more.funcId.symm⟩
    have inGroup : ∀ a' ∈ group, a'.workOffset < a.workOffset := by
      intro a' mem
      exact later a' (by simp [mem])
    have offset : tailOffset chan a.workOffset = a.workOffset - tail.offsetBase := by
      simp [tailOffset, batches]
    have wipRounds : a.workType = .p2p → (addWorkBatch chan a.workType a.funcId a.workOffset a.p2pRound).1.wipRounds =
        chan.wipRounds ++ [a.p2pRound] := by
      intro type
      rw [type] at hf
      simp [addWorkBatch, hf, type]
    by_cases he' : extendBatch a.workType (a.workOffset - tail.offsetBase) = true
    · refine ⟨_, h.grow more (by simp) ?_ (he.extend fits.nonempty like) ?_ wipRounds, by simp⟩
      · simp only [addWorkBatch, hf, offset, he', batches,
          updateTail_append, Bool.false_eq_true, if_false]
        simp
      · simp [addWorkBatch, hf]
    · simp only [extendBatch, Bool.not_eq_true, Bool.or_eq_false_iff, decide_eq_false_iff_not, not_not] at he'
      obtain ⟨near, multiple⟩ := he'
      have pos := devWorkSize_pos a.workType
      have base : tail.offsetBase < a.workOffset := by
        have bit : 0 ∈ oneBits tail.offsetBitset := mem_oneBits.mpr ⟨by decide, he.bases tail (by simp)⟩
        have mem : tail.offsetBase ∈ group.map (·.workOffset) := by
          rw [← he.offsets]
          refine mem_flatMap.mpr ⟨tail, by simp, ?_⟩
          exact mem_map.mpr ⟨0, bit, by simp⟩
        obtain ⟨a', here, at'⟩ := mem_map.mp mem
        rw [← at']
        exact inGroup a' here
      have place : a.workOffset = tail.offsetBase +
          (a.workOffset - tail.offsetBase) / devWorkSize a.workType * devWorkSize tail.workType := by
        rw [more.workType, Nat.div_mul_cancel (Nat.dvd_of_mod_eq_zero multiple)]
        omega
      have word : (a.workOffset - tail.offsetBase) / devWorkSize a.workType < 64 := by
        rw [Nat.div_lt_iff_lt_mul pos]
        omega
      refine ⟨_, h.grow more (by simp) ?_ (he.setBit fits.nonempty like inGroup word place) ?_ wipRounds,
        by simp⟩
      · have same : extendBatch a.workType (a.workOffset - tail.offsetBase) = false := by
          simp [extendBatch, near, multiple]
        simp only [addWorkBatch, hf, offset, same, batches, updateTail_append,
          Bool.false_eq_true, if_false]
        simp
      · simp [addWorkBatch, hf]

end Vccl.Plan
