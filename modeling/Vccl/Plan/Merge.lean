import Vccl.Plan.Ops

/-! The order in which `finishPlan` merges the queues of the channels: by id with collectives first,
and by channel among ops of one id. -/
namespace Vccl.Plan

open List
open Proxy (ProxyOp)

def lexLe (a b : Nat × Nat) : Prop := a.1 < b.1 ∨ a.1 = b.1 ∧ a.2 ≤ b.2

theorem lexLe.trans {a b c : Nat × Nat} (left : lexLe a b) (right : lexLe b c) : lexLe a c := by
  unfold lexLe at *
  omega

def mergeOrder (op : ProxyOp) : Nat × Nat := (mergeKey op.opCount, op.channelId)

/-- Stated for a variable accumulator: there is no comparison with a key to evaluate then. -/
theorem leastHead_step (op : ProxyOp) (tail : List ProxyOp) (others : List (List ProxyOp)) (first : Nat)
    (least : Option (Nat × Nat)) :
    leastHead first ((op :: tail) :: others) least =
      leastHead (first + 1) others (match least with
        | none => some (first, mergeKey op.opCount)
        | some (_, minId) => if mergeKey op.opCount < minId then some (first, mergeKey op.opCount)
          else least) := rfl

variable {op : ProxyOp} {least : Option (Nat × Nat)}

theorem leastHead_cons (tail : List ProxyOp) (others : List (List ProxyOp)) {first : Nat}
    (earlier : ∀ c₀ id₀, least = some (c₀, id₀) → c₀ < first) :
    ∃ c₁ id₁, leastHead first ((op :: tail) :: others) least =
        leastHead (first + 1) others (some (c₁, id₁)) ∧
      c₁ < first + 1 ∧ lexLe (id₁, c₁) (mergeKey op.opCount, first) ∧
      ∀ c₀ id₀, least = some (c₀, id₀) → lexLe (id₁, c₁) (id₀, c₀) := by
  rw [leastHead_step]
  generalize mergeKey op.opCount = key
  cases least with
  | none => exact ⟨first, key, rfl, by omega, .inr ⟨rfl, le_refl _⟩, by simp⟩
  | some old =>
    obtain ⟨c₀, id₀⟩ := old
    have before := earlier c₀ id₀ rfl
    by_cases hs : key < id₀
    · refine ⟨first, key, by simp [if_pos hs], by omega, .inr ⟨rfl, le_refl _⟩, ?_⟩
      rintro _ _ ⟨⟩
      exact .inl hs
    · refine ⟨c₀, id₀, by simp [if_neg hs], by omega, ?_, ?_⟩
      · unfold lexLe
        omega
      · rintro _ _ ⟨⟩
        exact .inr ⟨rfl, le_refl _⟩

variable {c : Nat} {queues : List (List ProxyOp)} {id : Nat}

theorem leastHead_least {first : Nat} (earlier : ∀ c₀ id₀, least = some (c₀, id₀) → c₀ < first)
    (found : leastHead first queues least = some (c, id)) :
    (∀ c₀ id₀, least = some (c₀, id₀) → lexLe (id, c) (id₀, c₀)) ∧
      ∀ i op rest, queues[i]? = some (op :: rest) →
        lexLe (id, c) (mergeKey op.opCount, first + i) := by
  induction queues generalizing first least with
  | nil =>
    refine ⟨?_, by simp⟩
    intro c₀ id₀ start
    rw [show least = some (c, id) from found] at start
    cases start
    exact .inr ⟨rfl, le_refl _⟩
  | cons queue others ih =>
    cases queue with
    | nil =>
      obtain ⟨start, hh⟩ := ih (fun c₀ id₀ h => Nat.lt_add_one_of_lt (earlier c₀ id₀ h)) found
      refine ⟨start, ?_⟩
      intro i op rest head
      cases i with
      | zero => simp at head
      | succ i =>
        have := hh i op rest (by simpa using head)
        rwa [Nat.add_right_comm, Nat.add_assoc] at this
    | cons first' tail =>
      obtain ⟨c₁, id₁, same, ha, hb, old⟩ := leastHead_cons tail others earlier
      rw [same] at found
      obtain ⟨start, hh⟩ := ih (by rintro _ _ ⟨⟩; exact ha) found
      have least₁ := start c₁ id₁ rfl
      refine ⟨fun c₀ id₀ same => least₁.trans (old c₀ id₀ same), ?_⟩
      intro i op rest head
      cases i with
      | zero =>
        simp only [getElem?_cons_zero, Option.some.injEq, cons.injEq] at head
        rw [← head.1]
        exact least₁.trans hb
      | succ i =>
        have := hh i op rest (by simpa using head)
        rwa [Nat.add_right_comm, Nat.add_assoc] at this

structure Sorted (queues : List (List ProxyOp)) : Prop where
  home : ∀ (i : Nat) (queue : List ProxyOp), queues[i]? = some queue → ∀ op ∈ queue, op.channelId = i
  sorted : ∀ queue ∈ queues, queue.Pairwise fun a b => mergeKey a.opCount ≤ mergeKey b.opCount

variable {rest : List ProxyOp}

theorem Sorted.tail (h : Sorted queues) (head : queues[c]? = some (op :: rest)) :
    Sorted (queues.set c rest) := by
  have inside := mem_of_getElem? head
  refine ⟨?_, ?_⟩
  · intro i queue at' op' mem
    rw [getElem?_set] at at'
    split at at'
    next same =>
      subst same
      split at at'
      · cases at'
        exact h.home c _ head op' (mem_cons_of_mem _ mem)
      · contradiction
    · exact h.home i queue at' op' mem
  · intro queue mem
    rcases mem_or_eq_of_mem_set mem with old | rfl
    · exact h.sorted queue old
    · exact (pairwise_cons.mp (h.sorted _ inside)).2

theorem Sorted.head_least (h : Sorted queues) (found : leastHead 0 queues none = some (c, id))
    (head : queues[c]? = some (op :: rest)) :
    ∀ op' ∈ queues.flatten, lexLe (mergeOrder op) (mergeOrder op') := by
  intro op' mem
  obtain ⟨queue, ht, here⟩ := mem_flatten.mp mem
  obtain ⟨i, at'⟩ := mem_iff_getElem?.mp ht
  obtain ⟨op₀, _, -, head₀, _⟩ := (leastHead_some found).resolve_left (by simp)
  have first : op₀ = op := by
    rw [Nat.sub_zero, head] at head₀
    cases head₀
    rfl
  subst first
  have channel : op₀.channelId = c := h.home c _ head op₀ (by simp)
  have channel' : op'.channelId = i := h.home i _ at' op' here
  cases queue with
  | nil => simp at here
  | cons front tail =>
    have least := (leastHead_least (by simp) found).2 i front tail at'
    have front_le : mergeKey front.opCount ≤ mergeKey op'.opCount := by
      rcases mem_cons.mp here with rfl | hl
      · exact le_refl _
      · exact (pairwise_cons.mp (h.sorted _ ht)).1 op' hl
    unfold lexLe mergeOrder at *
    omega

theorem mergeOps_sorted (nOps : Nat) (queues : List (List ProxyOp))
    (count : queues.flatten.length = nOps) (h : Sorted queues) :
    (mergeOps nOps queues).Pairwise fun a b => lexLe (mergeOrder a) (mergeOrder b) := by
  induction nOps generalizing queues with
  | zero => exact Pairwise.nil
  | succ nOps ih =>
    obtain ⟨c, _, _, _, hf, head, turn, perm, left⟩ := mergeOps_turn count
    rw [turn]
    refine pairwise_cons.mpr ⟨?_, ih _ left (h.tail head)⟩
    intro op' mem
    have there := (mergeOps_perm nOps _ left).mem_iff.mp mem
    exact h.head_least hf head op' (perm.mem_iff.mpr (mem_cons_of_mem _ there))

end Vccl.Plan
