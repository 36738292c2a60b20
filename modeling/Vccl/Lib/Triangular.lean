import Mathlib

/-! Triangular numbers modulo a power of two enumerate all residues; lists that enumerate a range. -/
namespace Triangular

open List

def tri (r : Nat) : Nat := r * (r + 1) / 2

theorem two_mul_tri (r : Nat) : 2 * tri r = r * (r + 1) :=
  Nat.mul_div_cancel' (Nat.even_mul_succ_self r).two_dvd

theorem tri_succ (r : Nat) : tri (r + 1) = tri r + (r + 1) := by
  have here := two_mul_tri r
  have next := two_mul_tri (r + 1)
  nlinarith

theorem tri_mod_injective {k r r' : Nat} (word : r < 2 ^ k) (order : r' ≤ r)
    (same : tri r % 2 ^ k = tri r' % 2 ^ k) : r = r' := by
  obtain ⟨d, rfl⟩ := Nat.exists_eq_add_of_le order
  have larger : tri r' ≤ tri (r' + d) :=
    Nat.div_le_div_right (Nat.mul_le_mul (by omega) (by omega))
  have divides : 2 ^ k ∣ tri (r' + d) - tri r' := (Nat.modEq_iff_dvd' larger).mp same.symm
  have product : 2 * (tri (r' + d) - tri r') = d * (2 * r' + d + 1) := by
    have first := two_mul_tri (r' + d)
    have second := two_mul_tri r'
    rw [Nat.mul_sub, first, second, Nat.sub_eq_iff_eq_add (by nlinarith)]
    ring
  have divides : 2 ^ (k + 1) ∣ d * (2 * r' + d + 1) := by
    rw [← product, pow_succ, Nat.mul_comm]
    exact Nat.mul_dvd_mul_left 2 divides
  by_cases even : d % 2 = 0
  · have coprime : Nat.Coprime (2 ^ (k + 1)) (2 * r' + d + 1) :=
      Nat.Coprime.pow_left _ (Nat.coprime_two_left.mpr (by rw [Nat.odd_iff]; omega))
    have factor : 2 ^ (k + 1) ∣ d := coprime.dvd_of_dvd_mul_right divides
    have zero : d = 0 := Nat.eq_zero_of_dvd_of_lt factor (by rw [pow_succ]; omega)
    omega
  · have coprime : Nat.Coprime (2 ^ (k + 1)) d :=
      Nat.Coprime.pow_left _ (Nat.coprime_two_left.mpr (by rw [Nat.odd_iff]; omega))
    have factor : 2 ^ (k + 1) ∣ 2 * r' + d + 1 := coprime.dvd_of_dvd_mul_left divides
    have large := Nat.le_of_dvd (by omega) factor
    omega

theorem perm_range_of_mem {xs : List Nat} {n : Nat} (distinct : xs.Nodup)
    (members : ∀ x, x ∈ xs ↔ x < n) : xs.Perm (range n) :=
  (perm_ext_iff_of_nodup distinct nodup_range).mpr (by simp [members])

theorem perm_range_of_length {xs : List Nat} {n : Nat} (distinct : xs.Nodup)
    (members : ∀ x ∈ xs, x < n) (length : xs.length = n) : xs.Perm (range n) := by
  refine (subperm_of_subset distinct ?_).perm_of_length_le (by simp [length])
  intro x mem
  exact mem_range.mpr (members x mem)

theorem tri_mod_perm (k : Nat) :
    ((range (2 ^ k)).map (tri · % 2 ^ k)).Perm (range (2 ^ k)) := by
  refine perm_range_of_length ?_ ?_ (by simp)
  · refine Nodup.map_on ?_ nodup_range
    intro r word r' word' same
    rcases le_total r' r with ho | ho
    · exact tri_mod_injective (mem_range.mp word) ho same
    · exact (tri_mod_injective (mem_range.mp word') ho same.symm).symm
  · intro x mem
    obtain ⟨r, -, rfl⟩ := mem_map.mp mem
    exact Nat.mod_lt _ (Nat.two_pow_pos k)

end Triangular
