import Mathlib

/-! Counters that wrap at `M`, and the slots of a ring whose size divides `M`. A counter
stands for an unbounded position; its readings are meaningful while the positions
compared lie within one turn. -/
namespace Wrap

def sub (M a b : Nat) : Nat := (a + (M - b % M)) % M

theorem sub_of_le {M x y : Nat} (turn : 0 < M) (behind : y ≤ x) (near : x - y < M) :
    sub M (x % M) (y % M) = x - y := by
  have small := Nat.mod_lt y turn
  have shift : x % M + (M - y % M) ≡ x - y [MOD M] := by
    have right : y + (M - y % M) ≡ 0 [MOD M] := by
      rw [Nat.modEq_zero_iff_dvd]
      have parts := Nat.div_add_mod y M
      refine ⟨y / M + 1, ?_⟩
      rw [Nat.mul_add]
      omega
    calc x % M + (M - y % M) ≡ x + (M - y % M) [MOD M] := (Nat.mod_modEq x M).add_right _
      _ = (x - y) + (y + (M - y % M)) := by omega
      _ ≡ (x - y) + 0 [MOD M] := right.add_left _
  rw [sub, Nat.mod_mod, shift, Nat.mod_eq_of_lt near]

theorem sub_lt {M a b : Nat} (turn : 0 < M) : sub M a b < M := Nat.mod_lt _ turn

theorem sub_self {M : Nat} (turn : 0 < M) (a : Nat) : sub M a a = 0 := by
  have small := Nat.mod_lt a turn
  have parts := Nat.div_add_mod a M
  have whole : a + (M - a % M) = M * (a / M + 1) := by
    rw [Nat.mul_add]
    omega
  rw [sub, whole, Nat.mul_mod_right]

theorem sub_add_mod (M a b w : Nat) : sub M ((a + w) % M) b = (sub M a b + w) % M := by
  unfold sub
  rw [Nat.mod_add_mod, Nat.mod_add_mod]
  congr 1
  omega

theorem slot_inj {ring p q : Nat} (same : p % ring = q % ring) (left : p < q + ring) (right : q < p + ring) :
    p = q :=
  Nat.ModEq.eq_of_abs_lt same (abs_lt.mpr ⟨by omega, by omega⟩)

theorem slots_differ {ring p q : Nat} (before : p < q) (near : q < p + ring) : p % ring ≠ q % ring :=
  fun same => before.ne (slot_inj same (by omega) near)

theorem slot_of_wrapped {M ring : Nat} (divides : ring ∣ M) (x k : Nat) :
    (x % M + k) % ring = (x + k) % ring := by
  have wrapped : x % M ≡ x [MOD ring] := (Nat.mod_modEq x M).of_dvd divides
  exact wrapped.add_right k

end Wrap
