import Vccl.Plan.Layout

/-! How a block of the kernel reads its batches (`loadWorkBatchToShmem`, `ncclKernelMain`). -/
namespace Vccl.Plan

open List

def popc (x : Nat) : Nat := ((range 32).filter fun i => x.testBit i).length

/-- The slot of `fnsOfBitset` that a lane writes for bit `i`, from the two halves of the word. -/
def worksBelow (bitset i : Nat) : Nat :=
  let low := bitset % 2 ^ 32
  let high := (bitset >>> 32) % 2 ^ 32
  if i < 32 then popc (low &&& (1 <<< i - 1)) else popc low + popc (high &&& (1 <<< (i - 32) - 1))

/-- What stands in slot `n`: the bit of the lane that writes there. -/
def fnsOfBitset (bitset n : Nat) : Option Nat :=
  (range 64).find? fun i => bitset.testBit i && worksBelow bitset i == n

def nWorksOf (bitset : Nat) : Nat := popc (bitset % 2 ^ 32) + popc ((bitset >>> 32) % 2 ^ 32)

/-- The packs of 16 bytes that `tn` threads copy for one batch, as offsets of their sources. A thread
copies at most one; its place in shared memory is 16 times its index behind the earlier works. -/
def loadPacks (tn : Nat) (b : Batch) : List Nat :=
  let workSize := devWorkSize b.workType
  let nPacks := nWorksOf b.offsetBitset * (workSize / 16)
  (range (min tn nPacks)).map fun tid =>
    let srcWork := (fnsOfBitset b.offsetBitset (tid / (workSize / 16))).getD 0
    b.offsetBase + srcWork * workSize + tid % (workSize / 16) * 16

/-- What `ncclShmem` holds of a fused batch. -/
structure Fused where
  workType : WorkType
  funcId : DevFunc
  nWorks : Nat
  workStorage : List Nat
  deriving DecidableEq

/-- The second component is `nextBatchIx`, `none` for -1. The turns of the threads between extension
batches leave the set of thread indices as it is. -/
def loadWorkBatchToShmem (out : List Slot) (tn : Nat) :
    Nat → Nat → Nat → List Nat → Option (Fused × Option Nat)
  | 0, _, _, _ => none
  | fuel + 1, batchIx, workCursor, storage =>
    match out[batchIx]? with
    | none => none
    | some slot =>
      let storage := storage ++ loadPacks tn slot.batch
      let workCursor := workCursor + nWorksOf slot.batch.offsetBitset
      if slot.batch.nextExtends then
        loadWorkBatchToShmem out tn fuel (batchIx + slot.nextJump) workCursor storage
      else
        some (⟨slot.batch.workType, slot.batch.funcId, workCursor, storage⟩,
          if slot.nextJump = 0 then none else some (batchIx + slot.nextJump))

def runBatches (out : List Slot) (tn : Nat) : Nat → Nat → Nat → Option (List Fused)
  | 0, _, _ => none
  | fuel + 1, first, batchIx =>
    match loadWorkBatchToShmem out first out.length batchIx 0 [] with
    | none => none
    | some (fused, none) => some [fused]
    | some (fused, some next) => (runBatches out tn fuel tn next).map (fused :: ·)

def minNthreads : Nat := 128

/-- `ncclKernelMain` of one block; two warps are busy with other loads at first, and `finishPlan`
makes the block at least `minNthreads` large. -/
def kernelMain (plan : KernelPlan) (threads block : Nat) : Option (List Fused) :=
  let out := workBatches plan
  let tn := max threads minNthreads
  runBatches out tn (out.length + 1) (tn - 64) block

theorem popc_mask (x : Nat) {k : Nat} (inside : k ≤ 32) :
    popc (x % 2 ^ 32 &&& (1 <<< k - 1)) = ((range k).filter fun i => x.testBit i).length := by
  obtain ⟨d, split⟩ := Nat.exists_eq_add_of_le inside
  have bits : ∀ i, (x % 2 ^ 32 &&& (1 <<< k - 1)).testBit i = (decide (i < k) && x.testBit i) := by
    intro i
    rw [Nat.one_shiftLeft, Nat.testBit_and, Nat.testBit_mod_two_pow]
    by_cases hs : i < k
    · have word : i < 32 := by omega
      simp [hs, word]
    · simp [hs]
  rw [popc, filter_congr fun i _ => bits i]
  rw [split, range_add, filter_append]
  have none : ((range d).map (k + ·)).filter (fun i => decide (i < k) && x.testBit i) = [] := by
    simp
  rw [none, append_nil]
  congr 1
  refine filter_congr fun i mem => ?_
  simp [mem_range.mp mem]

theorem popc_word (x : Nat) : popc (x % 2 ^ 32) = ((range 32).filter fun i => x.testBit i).length := by
  have whole : x % 2 ^ 32 &&& (1 <<< 32 - 1) = x % 2 ^ 32 := by
    rw [Nat.one_shiftLeft, Nat.and_two_pow_sub_one_eq_mod, Nat.mod_mod]
  rw [← popc_mask x (Nat.le_refl 32), whole]

theorem filter_range_high (x : Nat) (k : Nat) :
    ((range (32 + k)).filter fun i => x.testBit i).length =
      ((range 32).filter fun i => x.testBit i).length +
        ((range k).filter fun i => (x >>> 32).testBit i).length := by
  rw [range_add, filter_append, length_append, filter_map, length_map]
  congr 2
  refine filter_congr fun i _ => ?_
  simp

variable {i : Nat}

theorem worksBelow_eq {bitset : Nat} (word : i < 64) : worksBelow bitset i = blockOf bitset i := by
  simp only [worksBelow, blockOf]
  split
  next low =>
    exact popc_mask bitset (Nat.le_of_lt low)
  · obtain ⟨d, rfl⟩ := Nat.exists_eq_add_of_le (Nat.le_of_not_lt (by assumption : ¬ i < 32))
    rw [filter_range_high, popc_word, Nat.add_sub_cancel_left, popc_mask _ (by omega)]

theorem nWorksOf_eq (bitset : Nat) : nWorksOf bitset = (oneBits bitset).length := by
  rw [nWorksOf, popc_word, popc_word, oneBits, filter_range_high bitset 32]

theorem fnsOfBitset_eq {bitset n : Nat} (inside : n < (oneBits bitset).length) :
    fnsOfBitset bitset n = (oneBits bitset)[n]? := by
  have mem : (oneBits bitset)[n] ∈ oneBits bitset := getElem_mem inside
  have distinct : (oneBits bitset).Nodup := nodup_range.filter _
  obtain ⟨word, bit⟩ := mem_oneBits.mp mem
  have rank : worksBelow bitset (oneBits bitset)[n] = n := by
    rw [worksBelow_eq word, ← idxOf_oneBits mem]
    exact distinct.idxOf_getElem n inside
  cases hf : fnsOfBitset bitset n with
  | none =>
    have missed := find?_eq_none.mp hf (oneBits bitset)[n] (mem_range.mpr word)
    simp [bit, rank] at missed
  | some i =>
    have hit := find?_some hf
    have small := mem_range.mp (mem_of_find?_eq_some hf)
    simp only [Bool.and_eq_true, beq_iff_eq] at hit
    have here : i ∈ oneBits bitset := mem_oneBits.mpr ⟨small, hit.1⟩
    rw [← hit.2, worksBelow_eq small, ← idxOf_oneBits here]
    exact (getElem?_idxOf here).symm

def packsOf (workType : WorkType) (offset : Nat) : List Nat :=
  (range (devWorkSize workType / 16)).map fun p => offset + p * 16

theorem range_mul_map {β : Type} (f : Nat → Nat → β) (n k : Nat) (pos : 0 < k) :
    (range (n * k)).map (fun t => f (t / k) (t % k)) =
      (range n).flatMap fun w => (range k).map (f w) := by
  induction n with
  | zero => simp
  | succ n ih =>
    rw [Nat.succ_mul, range_add, map_append, range_succ, flatMap_append,
      flatMap_singleton, map_map]
    congr 1
    refine map_congr_left fun p mem => ?_
    have small := mem_range.mp mem
    have whole : (n * k + p) / k = n := by
      rw [Nat.mul_comm, Nat.mul_add_div pos, Nat.div_eq_of_lt small, Nat.add_zero]
    have rest : (n * k + p) % k = p := by
      rw [Nat.mul_comm, Nat.mul_add_mod, Nat.mod_eq_of_lt small]
    simp [whole, rest]

theorem flatMap_range_getElem {α β : Type} (xs : List α) (f : α → List β) (g : Nat → List β)
    (same : ∀ (i : Nat) (x : α), xs[i]? = some x → g i = f x) :
    (range xs.length).flatMap g = xs.flatMap f := by
  induction xs generalizing g with
  | nil => rfl
  | cons x xs ih =>
    rw [length_cons, range_succ_eq_map, flatMap_cons, flatMap_cons, flatMap_map,
      same 0 x rfl, ih _ fun i x' here => same (i + 1) x' here]

theorem loadPacks_eq {tn : Nat} {b : Batch} (threads : 64 ≤ tn)
    (bytes : b.offsets.length * devWorkSize b.workType ≤ maxDevWorkBatchBytes) :
    loadPacks tn b = b.offsets.flatMap (packsOf b.workType) := by
  have length : b.offsets.length = (oneBits b.offsetBitset).length := length_map _
  have units : devWorkSize b.workType = devWorkSize b.workType / 16 * 16 := by
    cases b.workType <;> rfl
  have pos : 0 < devWorkSize b.workType / 16 := by
    cases b.workType <;> decide
  have enough : nWorksOf b.offsetBitset * (devWorkSize b.workType / 16) ≤ tn := by
    rw [nWorksOf_eq, ← length]
    rw [units, ← Nat.mul_assoc] at bytes
    unfold maxDevWorkBatchBytes at bytes
    omega
  simp only [loadPacks, Nat.min_eq_right enough]
  rw [range_mul_map (fun w p => b.offsetBase + (fnsOfBitset b.offsetBitset w).getD 0 * devWorkSize b.workType + p * 16)
    _ _ pos, nWorksOf_eq, Batch.offsets, flatMap_map]
  refine flatMap_range_getElem _ _ _ fun i bit here => ?_
  have inside : i < (oneBits b.offsetBitset).length := (List.getElem?_eq_some_iff.mp here).1
  rw [fnsOfBitset_eq inside, here]
  rfl

variable {out : List Slot} {c last : Nat}

theorem load_group {tn : Nat} (threads : 64 ≤ tn) (init : List Batch) {tail : Batch} {rest : List Batch}
    (fuel workCursor : Nat) (storage : List Nat) (chain : Chain out c i (init ++ tail :: rest) last)
    (fuelled : init.length < fuel) (flags : ∀ b ∈ init, b.nextExtends = true) (closed : tail.nextExtends = false)
    (bytes : ∀ b ∈ init ++ [tail], b.offsets.length * devWorkSize b.workType ≤ maxDevWorkBatchBytes) :
    ∃ next, loadWorkBatchToShmem out tn fuel i workCursor storage =
        some (⟨tail.workType, tail.funcId, workCursor + ((init ++ [tail]).flatMap Batch.offsets).length,
          storage ++ (init ++ [tail]).flatMap fun b => b.offsets.flatMap (packsOf b.workType)⟩, next) ∧
      (rest = [] ∧ next = none ∨ rest ≠ [] ∧ ∃ j, next = some j ∧ Chain out c j rest last) := by
  have count : ∀ b : Batch, nWorksOf b.offsetBitset = b.offsets.length := by
    intro b
    rw [nWorksOf_eq, Batch.offsets, length_map]
  induction init generalizing i fuel workCursor storage with
  | nil =>
    obtain ⟨fuel, rfl⟩ := Nat.exists_eq_add_one.mpr fuelled
    have packs := loadPacks_eq threads (bytes tail (by simp))
    cases rest with
    | nil =>
      obtain ⟨-, here⟩ := chain
      refine ⟨none, ?_, .inl ⟨rfl, rfl⟩⟩
      simp [loadWorkBatchToShmem, here, closed, packs, count]
    | cons b rest =>
      obtain ⟨jump, pos, here, tail'⟩ := chain
      refine ⟨some (i + jump), ?_, .inr ⟨by simp, i + jump, rfl, tail'⟩⟩
      have nonzero : jump ≠ 0 := pos.ne'
      simp [loadWorkBatchToShmem, here, closed, packs, count, nonzero]
  | cons b init ih =>
    obtain ⟨fuel, rfl⟩ := Nat.exists_eq_add_one.mpr (Nat.zero_lt_of_lt fuelled)
    have packs := loadPacks_eq threads (bytes b (by simp))
    have extends' := flags b mem_cons_self
    obtain ⟨_, _, more⟩ := exists_cons_of_ne_nil (append_ne_nil_of_right_ne_nil init (cons_ne_nil tail rest))
    rw [cons_append, more] at chain
    obtain ⟨jump, -, here, chain⟩ := chain
    rw [← more] at chain
    obtain ⟨next, hl, hf⟩ := ih fuel (workCursor + b.offsets.length)
      (storage ++ b.offsets.flatMap (packsOf b.workType)) chain
      (by simpa using fuelled) (fun b' mem => flags b' (mem_cons_of_mem _ mem))
      (fun b' mem => bytes b' (mem_cons_of_mem _ mem))
    refine ⟨next, ?_, hf⟩
    simp only [loadWorkBatchToShmem, here, extends', packs, count]
    rw [hl]
    simp [Nat.add_assoc]

structure Loaded (fused : Fused) (group : List Append) : Prop where
  alike : ∀ a ∈ group, a.workType = fused.workType ∧ a.funcId = fused.funcId
  nWorks : fused.nWorks = group.length
  workStorage : fused.workStorage = group.flatMap fun a => packsOf a.workType a.workOffset

variable {batches : List Batch} {group : List Append}

theorem Encodes.ne_nil (h : Encodes batches group) : batches ≠ [] := by
  obtain ⟨_, _, rfl, -⟩ := h.flags
  simp

theorem Encodes.bytes (h : Encodes batches group) (fits : Fits group) :
    ∀ b ∈ batches, b.offsets.length * devWorkSize b.workType ≤ maxDevWorkBatchBytes := by
  intro b mem
  have whole : bytesOf group = group.length * devWorkSize b.workType := by
    have same : ∀ a ∈ group, devWorkSize a.workType = devWorkSize b.workType := by
      intro a hi
      rw [(h.alike b mem a hi).1]
    rw [bytesOf, map_congr_left same, map_const', sum_replicate_nat]
  have part : b.offsets.length ≤ group.length := by
    have sub : b.offsets.Sublist (batches.flatMap Batch.offsets) := sublist_flatten_of_mem (mem_map.mpr ⟨b, mem, rfl⟩)
    have := sub.length_le
    rwa [h.offsets, length_map] at this
  have fit := fits.bytes
  rw [whole] at fit
  exact le_trans (Nat.mul_le_mul_right _ part) fit

theorem Encodes.storage (h : Encodes batches group) {workType : WorkType}
    (alike : ∀ b ∈ batches, b.workType = workType) (alike' : ∀ a ∈ group, a.workType = workType) :
    (batches.flatMap fun b => b.offsets.flatMap (packsOf b.workType)) =
      group.flatMap fun a => packsOf a.workType a.workOffset := by
  have left : (batches.flatMap fun b => b.offsets.flatMap (packsOf b.workType)) =
      (batches.flatMap Batch.offsets).flatMap (packsOf workType) := by
    rw [flatMap_assoc]
    refine flatMap_congr fun b mem => ?_
    rw [alike b mem]
  rw [left, h.offsets, flatMap_map]
  refine flatMap_congr fun a mem => ?_
  rw [alike' a mem]

variable {bs : List Batch}

theorem Chain.length (h : Chain out c i bs last) :
    i + bs.length ≤ last + 1 := by
  induction bs generalizing i with
  | nil => exact h.elim
  | cons b rest ih =>
    cases rest with
    | nil =>
      obtain ⟨rfl, -⟩ := h
      simp
    | cons b' rest =>
      obtain ⟨_, _, -, tail⟩ := h
      have := ih tail
      simp only [length_cons] at this ⊢
      omega

theorem Chain.length_le (h : Chain out c i bs last) :
    bs.length ≤ out.length := by
  obtain ⟨b, here⟩ := h.last_lt
  have := (List.getElem?_eq_some_iff.mp here).1
  have := h.length
  omega

theorem length_le_flatMap (groups : List (List Batch × List Append))
    (each : ∀ p ∈ groups, Encodes p.1 p.2 ∧ Fits p.2) : groups.length ≤ (groups.flatMap (·.1)).length := by
  rw [length_flatMap, ← length_map]
  refine length_le_sum_of_one_le _ fun n mem => ?_
  obtain ⟨p, here, rfl⟩ := mem_map.mp mem
  exact length_pos_of_ne_nil (each p here).1.ne_nil

theorem runBatches_groups (tn : Nat) (threads : 64 ≤ tn) (groups : List (List Batch × List Append))
    (nonempty : groups ≠ []) (fuel first : Nat) (some' : 64 ≤ first)
    (chain : Chain out c i (groups.flatMap (·.1)) last) (fuelled : groups.length ≤ fuel)
    (each : ∀ p ∈ groups, Encodes p.1 p.2 ∧ Fits p.2) :
    ∃ fused, runBatches out tn fuel first i = some fused ∧
      Forall₂ Loaded fused (groups.map (·.2)) := by
  induction groups generalizing i fuel first with
  | nil => contradiction
  | cons p groups ih =>
    obtain ⟨gb, group⟩ := p
    obtain ⟨he, fits⟩ := each (gb, group) mem_cons_self
    obtain ⟨init, tail, rfl, hfl, closed⟩ := he.flags
    obtain ⟨fuel, rfl⟩ := Nat.exists_eq_succ_of_ne_zero (by simp at fuelled; omega : fuel ≠ 0)
    rw [flatMap_cons, append_assoc] at chain
    have room := chain.length_le
    have short : init.length < out.length := by
      simp only [length_append, length_cons] at room
      omega
    obtain ⟨_, hl, hf⟩ := load_group some' init out.length 0 [] chain short hfl closed
      (he.bytes fits)
    obtain ⟨a, hi⟩ := exists_mem_of_ne_nil group fits.nonempty
    have isTail : tail ∈ init ++ [tail] := mem_append_right _ mem_cons_self
    have alike : ∀ b ∈ init ++ [tail], b.workType = tail.workType := by
      intro b mem
      rw [← (he.alike b mem a hi).1, (he.alike tail isTail a hi).1]
    have holds : Loaded ⟨tail.workType, tail.funcId, 0 + ((init ++ [tail]).flatMap Batch.offsets).length,
        [] ++ (init ++ [tail]).flatMap fun b => b.offsets.flatMap (packsOf b.workType)⟩ group := by
      refine ⟨fun a mem => he.alike tail isTail a mem, ?_, ?_⟩
      · simp [he.offsets]
      · exact he.storage alike fun a mem => (he.alike tail isTail a mem).1
    rw [runBatches, hl]
    rcases hf with ⟨none, rfl⟩ | ⟨more, j, rfl, chain'⟩
    · obtain rfl : groups = [] := eq_nil_iff_forall_not_mem.mpr fun p mem =>
        (each p (mem_cons_of_mem _ mem)).1.ne_nil (flatMap_eq_nil_iff.mp none p mem)
      exact ⟨_, rfl, Forall₂.cons holds Forall₂.nil⟩
    · have more' : groups ≠ [] := by
        rintro rfl
        exact more rfl
      obtain ⟨fused, ran, rest⟩ := ih more' fuel tn threads chain' (by simpa using fuelled)
        (fun p mem => each p (mem_cons_of_mem _ mem))
      simp only [ran]
      exact ⟨_, rfl, Forall₂.cons holds rest⟩

def addWork (plan : KernelPlan) (a : Append) : KernelPlan :=
  addWorkBatchToPlan { plan with channelMask := plan.channelMask ||| 1 <<< a.channel.val } a.channel
    a.workType a.funcId a.workOffset a.p2pRound

def planOf (appends : List Append) : KernelPlan := appends.foldl addWork .empty

def onChannel (c : Nat) (appends : List Append) : List Append :=
  appends.filter fun a => decide (a.channel.val = c)

def Increasing (appends : List Append) : Prop :=
  appends.Pairwise fun a a' => a.channel = a'.channel → a.workOffset < a'.workOffset

instance (appends : List Append) : Decidable (Increasing appends) := by
  unfold Increasing
  infer_instance

structure Planned (plan : KernelPlan) (appends : List Append) : Prop where
  holds : ∀ c, ∃ groups, Holds (plan.channels c) groups ∧ groups.flatMap (·.2) = onChannel c appends
  masked : ∀ c, c ∈ oneBits plan.channelMask ↔ onChannel c appends ≠ []
  counted : ∀ c, (plan.channels c).batches.length ≤ plan.nWorkBatches

theorem addWorkBatch_counted (chan : WipChannel) (a : Append) :
    (addWorkBatch chan a.workType a.funcId a.workOffset a.p2pRound).1.batches.length ≤
      chan.batches.length + (addWorkBatch chan a.workType a.funcId a.workOffset a.p2pRound).2 := by
  have tail : ∀ f, (updateTail f chan.batches).length ≤ chan.batches.length := by
    intro f
    rcases eq_nil_or_concat' chan.batches with same | ⟨init, b, same⟩
    all_goals simp [updateTail, same]
  simp only [addWorkBatch]
  split
  next hf =>
    simp [hf]
  split
  next opens =>
    have := tail fun batch => { batch with nextExtends := true }
    simp only [length_append, length_singleton]
    omega
  next opens =>
    simpa [opens] using tail _

theorem onChannel_append (c : Nat) (appends : List Append) (a : Append) :
    onChannel c (appends ++ [a]) = onChannel c appends ++ if a.channel.val = c then [a] else [] := by
  simp [onChannel, filter_cons]

theorem Planned.add {plan : KernelPlan} {appends : List Append} (h : Planned plan appends) (a : Append)
    (later : ∀ a' ∈ appends, a'.channel = a.channel → a'.workOffset < a.workOffset) :
    Planned (addWork plan a) (appends ++ [a]) := by
  have channel : ∀ c, (addWork plan a).channels c = if c = a.channel.val then
      (addWorkBatch (plan.channels c) a.workType a.funcId a.workOffset a.p2pRound).1 else plan.channels c := by
    intro c
    by_cases here : c = a.channel.val
    · subst here
      simp [addWork, addWorkBatchToPlan, KernelPlan.setChannel]
    · simp [addWork, addWorkBatchToPlan, KernelPlan.setChannel, here]
  have batches : (addWork plan a).nWorkBatches = plan.nWorkBatches +
      (addWorkBatch (plan.channels a.channel) a.workType a.funcId a.workOffset a.p2pRound).2 := rfl
  have mask : (addWork plan a).channelMask = plan.channelMask ||| 1 <<< a.channel.val := rfl
  refine ⟨?_, ?_, ?_⟩
  · intro c
    obtain ⟨groups, hh, works⟩ := h.holds c
    rw [channel, onChannel_append]
    by_cases here : c = a.channel.val
    · subst here
      rw [if_pos rfl, if_pos rfl]
      obtain ⟨groups', hh', works'⟩ := hh.step a (by
        rw [works]
        intro a' mem
        obtain ⟨hi, same⟩ := mem_filter.mp mem
        exact later a' hi (Fin.ext (by simpa using same)))
      exact ⟨groups', hh', by rw [works', works]⟩
    · rw [if_neg here, if_neg (Ne.symm here), append_nil]
      exact ⟨groups, hh, works⟩
  · intro c
    have old := h.masked c
    rw [mem_oneBits] at old ⊢
    rw [mask, onChannel_append, Nat.testBit_or, Nat.one_shiftLeft, Nat.testBit_two_pow]
    have small : a.channel.val < 64 := a.channel.isLt
    by_cases here : a.channel.val = c
    · simp
      omega
    · simpa [here] using old
  · intro c
    rw [channel]
    have before := h.counted c
    split
    next here =>
      rw [here] at before ⊢
      exact le_trans (addWorkBatch_counted _ a) (Nat.add_le_add_right before _)
    · omega

theorem planned_planOf (appends : List Append) (increasing : Increasing appends) :
    Planned (planOf appends) appends := by
  induction appends using reverseRecOn with
  | nil =>
    refine ⟨fun c => ⟨[], ⟨rfl, by simp, by simp⟩, rfl⟩, ?_, fun _ => Nat.zero_le _⟩
    intro c
    simp [planOf, KernelPlan.empty, mem_oneBits, onChannel]
  | append_singleton appends a ih =>
    obtain ⟨first, -, across⟩ := pairwise_append.mp increasing
    rw [planOf, foldl_append]
    exact (ih first).add a fun a' mem same => across a' mem a mem_cons_self same

/-- The block of a channel visits what was appended to the channel, in order and in fused batches the
device can take. -/
theorem batches_visit_appended (appends : List Append) (increasing : Increasing appends) (threads : Nat)
    (c : Fin maxChannels) (used : onChannel c appends ≠ []) :
    ∃ fused groups, kernelMain (planOf appends) threads (blockOf (planOf appends).channelMask c) = some fused ∧
      groups.flatten = onChannel c appends ∧ Forall₂ Loaded fused groups ∧ ∀ group ∈ groups, Fits group := by
  have planned := planned_planOf appends increasing
  obtain ⟨groups, hh, works⟩ := planned.holds c
  have batches : ∀ c, ((planOf appends).channels c).batches ≠ [] ↔ c ∈ oneBits (planOf appends).channelMask := by
    intro c
    rw [planned.masked c]
    obtain ⟨groups, hh, works⟩ := planned.holds c
    rw [hh.batches, ← works, Ne, Ne, flatMap_eq_nil_iff, flatMap_eq_nil_iff]
    exact not_congr (forall₂_congr fun p mem => iff_of_false (hh.each p mem).1.ne_nil (hh.each p mem).2.nonempty)
  obtain ⟨_, chain⟩ := workBatches_chain (planOf appends) batches planned.counted ((planned.masked c).mpr used)
  have nonempty : groups ≠ [] := by
    rintro rfl
    exact used works.symm
  have room := chain.length_le
  rw [hh.batches] at chain room
  have count : groups.length ≤ (workBatches (planOf appends)).length + 1 := by
    have each := length_le_flatMap groups hh.each
    omega
  obtain ⟨fused, ran, loaded⟩ := runBatches_groups (max threads minNthreads) (by unfold minNthreads; omega)
    groups nonempty _ (max threads minNthreads - 64) (by unfold minNthreads; omega) chain count hh.each
  refine ⟨fused, groups.map (·.2), ran, ?_, loaded, ?_⟩
  · rw [← works]
    rfl
  · intro group mem
    obtain ⟨p, hi, rfl⟩ := mem_map.mp mem
    exact (hh.each p hi).2

def secondChannel : Fin maxChannels := ⟨1, by decide⟩

/- Two transfers of one round on a channel, with a collective before them. -/
def mixedAppends : List Append :=
  [⟨secondChannel, .coll, .gather .allGather .ring .simple, 0, 0⟩, ⟨secondChannel, .p2p, .sendRecv, 96, 3⟩,
    ⟨secondChannel, .p2p, .sendRecv, 144, 3⟩, ⟨secondChannel, .p2p, .sendRecv, 192, 4⟩]

theorem mixedAppends_visited :
    ∃ fused groups, kernelMain (planOf mixedAppends) 128 (blockOf (planOf mixedAppends).channelMask 1) = some fused ∧
      groups.flatten = onChannel 1 mixedAppends ∧ Forall₂ Loaded fused groups ∧
      ∀ group ∈ groups, Fits group :=
  batches_visit_appended mixedAppends (by decide) 128 secondChannel (by decide)

end Vccl.Plan
