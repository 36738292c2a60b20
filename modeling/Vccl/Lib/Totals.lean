import Vccl.Lib.Transition

/-! Measures that are sums over the parts of a state, where a step changes one part. -/
namespace Transition

open Finset

theorem sum_change {f g : Nat → Nat} {n k : Nat} (inside : k < n) (others : ∀ j, j ≠ k → g j = f j) :
    (∑ j ∈ range n, g j) + f k = (∑ j ∈ range n, f j) + g k := by
  have mem := mem_range.mpr inside
  have rest : ∑ j ∈ (range n).erase k, g j = ∑ j ∈ (range n).erase k, f j :=
    sum_congr rfl fun j ht => others j (ne_of_mem_erase ht)
  rw [← add_sum_erase _ g mem, ← add_sum_erase _ f mem]
  omega

variable {S A : Type} {step : S → A → Option S}

theorem reaches_goal_of_parts (inv goal : S → Prop) (n : Nat) (weight : S → Nat → Nat)
    (moves : ∀ s, inv s → ¬ goal s → ∃ a t k, step s a = some t ∧ inv t ∧ k < n ∧ weight t k < weight s k ∧
      ∀ j, j ≠ k → weight t j = weight s j)
    {s : S} (start : inv s) : ∃ t, Reachable step s t ∧ inv t ∧ goal t := by
  refine reaches_goal inv goal (fun s => ∑ j ∈ range n, weight s j) ?_ start
  intro s kept hm
  obtain ⟨a, t, k, ht, next, hi, _, others⟩ := moves s kept hm
  have change := sum_change hi others
  exact ⟨a, t, ht, next, by omega⟩

end Transition
