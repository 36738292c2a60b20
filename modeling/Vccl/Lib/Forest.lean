import Mathlib

/-! Parent pointers that climb to a root. -/
namespace Forest

variable {α : Type*}

def Climbs (up : α → Option α) (a b : α) : Prop := up a = some b

structure Climbing (inside : α → Prop) (up : α → Option α) (height : α → Nat) : Prop where
  stays : ∀ a b, inside a → up a = some b → inside b
  falls : ∀ a b, inside a → up a = some b → height b < height a

variable {inside : α → Prop} {up : α → Option α} {height : α → Nat} {a b : α}

theorem Climbing.falls_along (climbing : Climbing inside up height) (start : inside a)
    (path : Relation.TransGen (Climbs up) a b) : inside b ∧ height b < height a := by
  induction path with
  | single step => exact ⟨climbing.stays _ _ start step, climbing.falls _ _ start step⟩
  | tail _ step ih =>
    exact ⟨climbing.stays _ _ ih.1 step, Nat.lt_trans (climbing.falls _ _ ih.1 step) ih.2⟩

theorem Climbing.acyclic (climbing : Climbing inside up height) (start : inside a) :
    ¬ Relation.TransGen (Climbs up) a a := by
  intro hc
  exact Nat.lt_irrefl _ (climbing.falls_along start hc).2

theorem Climbing.reaches_root (climbing : Climbing inside up height) (start : inside a) :
    ∃ root, inside root ∧ up root = none ∧ Relation.ReflTransGen (Climbs up) a root := by
  induction h : height a using Nat.strongRecOn generalizing a with
  | ind n ih =>
    cases hp : up a with
    | none => exact ⟨a, start, hp, .refl⟩
    | some b =>
      have lower := climbing.falls a b start hp
      obtain ⟨root, ht, top, path⟩ := ih (height b) (by omega) (climbing.stays a b start hp) rfl
      exact ⟨root, ht, top, .head hp path⟩

end Forest
