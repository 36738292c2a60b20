import Vccl.Mr.Refs

/-! The slots of one cache by address, which the look-up of `ncclIbRegMrDmaBufInternal` goes by. -/
namespace Vccl.Mr.Order

open List Transition

inductive Call where
  | regMr (data size : Nat) (fresh : Option Nat)
  | deregMr (mr : Nat)

def firstPage (pageSize data : Nat) : Nat := data / pageSize * pageSize

def pagesOf (pageSize data size : Nat) : Nat := (data + size - firstPage pageSize data + pageSize - 1) / pageSize

def step (pageSize : Nat) (slots : List Slot) : Call → Option (List Slot)
  | .regMr data size fresh =>
    some ((register pageSize (firstPage pageSize data) (pagesOf pageSize data size) fresh slots).elim slots Prod.fst)
  | .deregMr mr => some ((deregister mr slots).elim slots Prod.fst)

def Sorted (slots : List Slot) : Prop := (slots.map Slot.addr).Pairwise (· ≤ ·)

def Covers (pageSize addr pages : Nat) (slot : Slot) : Prop :=
  slot.addr ≤ addr ∧ addr + pages * pageSize ≤ slot.addr + slot.pages * pageSize

def Reuses (pageSize addr pages : Nat) (fresh : Option Nat) (slots : List Slot) : Prop :=
  ∃ front slot back, slots = front ++ slot :: back ∧ register pageSize addr pages fresh slots =
    some (front ++ { slot with refs := slot.refs + 1 } :: back, slot.mr)

/-- When a region goes, the slots behind its own have one address. -/
def InPlace (slots : List Slot) : Call → Prop
  | .regMr _ _ _ => True
  | .deregMr mr =>
    match slots.dropWhile fun slot => slot.mr ≠ mr with
    | [] => True
    | slot :: back => slot.refs = 1 → ∀ a ∈ back, ∀ b ∈ back, a.addr = b.addr

instance (slots : List Slot) (call : Call) : Decidable (InPlace slots call) := by
  unfold InPlace
  split
  · infer_instance
  · split <;> infer_instance

variable {pageSize addr pages : Nat} {fresh : Option Nat} {slots slots' : List Slot}

theorem register_reuses (pos : 0 < pageSize) (sorted : Sorted slots) {slot : Slot} (mem : slot ∈ slots)
    (covers : Covers pageSize addr pages slot) : Reuses pageSize addr pages fresh slots := by
  induction slots with
  | nil => cases mem
  | cons first rest ih =>
    obtain ⟨hle, sorted⟩ := pairwise_cons.mp sorted
    have low : ¬ addr < first.addr := by
      rcases mem_cons.mp mem with rfl | hl
      · exact Nat.not_lt.mpr covers.1
      · exact Nat.not_lt.mpr (Nat.le_trans (hle _ (mem_map_of_mem hl)) covers.1)
    by_cases fits : (addr - first.addr) / pageSize + pages ≤ first.pages
    · exact ⟨[], first, rest, rfl, by simp [register, low, fits]⟩
    rcases mem_cons.mp mem with rfl | hl
    · refine absurd (Nat.le_of_mul_le_mul_right ?_ pos) fits
      have part := Nat.div_mul_le_self (addr - slot.addr) pageSize
      have := covers.2
      rw [Nat.add_mul]
      omega
    · obtain ⟨front, found, back, rfl, hr⟩ := ih sorted hl
      exact ⟨first :: front, found, back, rfl, by simp [register, low, fits, hr]⟩

theorem register_sorted {mr : Nat} (sorted : Sorted slots)
    (registered : register pageSize addr pages fresh slots = some (slots', mr)) : Sorted slots' := by
  rcases register_cases registered with ⟨front, _, back, rfl, rfl, -⟩ | ⟨-, front, back, rfl, rfl, low, _⟩
  · simpa [Sorted] using sorted
  · cases back with
    | nil => simpa [Sorted, pairwise_append] using And.intro sorted low
    | cons next back =>
      simp only [Sorted] at sorted ⊢
      grind

theorem deregister_sorted {mr : Nat} {gone : Bool} (sorted : Sorted slots) (inPlace : InPlace slots (.deregMr mr))
    (given : deregister mr slots = some (slots', gone)) : Sorted slots' := by
  cases hf : slots.find? fun slot => slot.mr = mr with
  | none =>
    have nowhere : slots.findIdx? (fun slot => slot.mr = mr) = none := by simpa using hf
    simp only [deregister, nowhere, Option.ite_none_right_eq_some] at given
    cases given.2
    exact Pairwise.nil
  | some slot =>
    obtain ⟨here, front, back, rfl, before⟩ := find?_eq_some_iff_append.mp hf
    obtain rfl : slot.mr = mr := by simpa using here
    have behind : (front ++ slot :: back).dropWhile (fun other => other.mr ≠ slot.mr) = slot :: back := by
      rw [dropWhile_append_of_pos (by simpa using before), dropWhile_cons_of_neg (by simp)]
    rw [deregister_append (by simpa using before)] at given
    simp only [InPlace, behind] at inPlace
    split at given
    next last =>
      cases given
      have perm := (moved_perm back).map Slot.addr
      simp only [Sorted, map_append, pairwise_append] at sorted ⊢
      refine ⟨sorted.1, pairwise_of_forall_mem_list fun a inA b inB => ?_, fun a hi b ht => ?_⟩
      · obtain ⟨x, inX, rfl⟩ := mem_map.mp (perm.mem_iff.mp inA)
        obtain ⟨y, inY, rfl⟩ := mem_map.mp (perm.mem_iff.mp inB)
        exact Nat.le_of_eq (inPlace last x inX y inY)
      · exact sorted.2.2 a hi b (mem_cons_of_mem _ (perm.mem_iff.mp ht))
    · cases given
      simpa [Sorted] using sorted

/-- As long as no region goes with slots of different addresses behind its own. -/
theorem covered_reuses (positive : 0 < pageSize) (calls : List Call)
    (inPlace : Meets (step pageSize) InPlace [] calls)
    (ran : run (step pageSize) [] calls = some slots) :
    Sorted slots ∧ ∀ data size fresh, (∃ slot ∈ slots,
      Covers pageSize (firstPage pageSize data) (pagesOf pageSize data size) slot) →
        Reuses pageSize (firstPage pageSize data) (pagesOf pageSize data size) fresh slots := by
  have sorted : Sorted slots := by
    refine run_invariant Sorted ?_ calls (show Sorted [] from Pairwise.nil) inPlace ran
    rintro slots (⟨data, size, fresh⟩ | ⟨mr⟩) _ sorted inPlace ⟨⟩
    · cases hr : register pageSize _ _ fresh slots with
      | none => exact sorted
      | some result => exact register_sorted sorted hr
    · cases hg : deregister mr slots with
      | none => exact sorted
      | some result => exact deregister_sorted sorted inPlace hg
  exact ⟨sorted, fun data size fresh ⟨slot, mem, covers⟩ => register_reuses positive sorted mem covers⟩

theorem second_range_reused :
    Reuses 4096 8192 1 (some 2) [⟨0, 1, 1, 0⟩, ⟨8192, 2, 1, 1⟩] :=
  (covered_reuses (by decide) [.regMr 0 4096 (some 0), .regMr 8192 8192 (some 1), .regMr 0 10 none, .deregMr 0]
    (by decide) rfl).2 8192 4096 (some 2) ⟨⟨8192, 2, 1, 1⟩, by decide, by decide, by decide⟩

/-- The first of three regions goes, the last comes to the front, and a range that the second covers is
registered anew. -/
theorem covered_range_registered_anew :
    let slots : List Slot := [⟨20480, 1, 1, 2⟩, ⟨8192, 2, 1, 1⟩]
    run (step 4096) [] [.regMr 0 4096 (some 0), .regMr 8192 8192 (some 1),
        .regMr 20480 4096 (some 2), .deregMr 0] = some slots ∧ ¬ Sorted slots ∧
      register 4096 8192 1 (some 3) slots = some (⟨8192, 1, 1, 3⟩ :: slots, 3) :=
  ⟨rfl, by simp [Sorted], rfl⟩

end Vccl.Mr.Order
