import Mathlib

/-! Lists in which what lies between two members of one key has their label, so that a cut at a change
of the label separates no two members of one key. -/
namespace Grouping

open List

variable {α κ γ : Type} {key : α → κ} {label : α → γ}

def Grouped (key : α → κ) (label : α → γ) (l : List α) : Prop :=
  ∀ x z y, [x, z, y].Sublist l → key x = key y → label z = label x

def KeysApart (key : α → κ) (xs ys : List α) : Prop := ∀ x ∈ xs, ∀ y ∈ ys, key x ≠ key y

variable {xs ys : List α}

theorem KeysApart.mono {xs' ys' : List α} (h : KeysApart key xs ys) (left : ∀ x ∈ xs', x ∈ xs)
    (right : ∀ y ∈ ys', y ∈ ys) : KeysApart key xs' ys' :=
  fun x mx y my => h x (left x mx) y (right y my)

@[simp] theorem keysApart_nil_left (ys : List α) : KeysApart key [] ys := by simp [KeysApart]

@[simp] theorem keysApart_nil_right (xs : List α) : KeysApart key xs [] := by simp [KeysApart]

theorem keysApart_append_left {xs' : List α} :
    KeysApart key (xs ++ xs') ys ↔ KeysApart key xs ys ∧ KeysApart key xs' ys := by
  simp only [KeysApart, mem_append, or_imp, forall_and]

theorem keysApart_append_right {ys' : List α} :
    KeysApart key xs (ys ++ ys') ↔ KeysApart key xs ys ∧ KeysApart key xs ys' := by
  simp only [KeysApart, mem_append, or_imp, forall_and]

theorem Grouped.nil : Grouped key label [] := by
  intro x z y hi
  simp at hi

theorem Grouped.sublist (h : Grouped key label ys) (sub : xs.Sublist ys) :
    Grouped key label xs :=
  fun x z y hi => h x z y (hi.trans sub)

variable {l : List α} {r : α → α → Prop}

theorem Grouped.of_pairwise (sorted : l.Pairwise r)
    (between : ∀ x ∈ l, ∀ z ∈ l, ∀ y ∈ l, r x z → r z y → key x = key y → label z = label x) :
    Grouped key label l := by
  intro x z y hi same
  have three := sorted.sublist hi
  have mem := hi.subset
  simp only [pairwise_cons, mem_cons, not_mem_nil, or_false, forall_eq_or_imp,
    forall_eq] at three
  exact between x (mem (by simp)) z (mem (by simp)) y (mem (by simp)) three.1.1 three.2.1 same

theorem Grouped.apart {a b : α} (h : Grouped key label (xs ++ ys))
    (determined : ∀ x y : α, key x = key y → label x = label y) (last : xs.getLast? = some a)
    (first : ys.head? = some b) (change : label a ≠ label b) :
    KeysApart key xs ys := by
  intro x mx y my same
  obtain ⟨_, rfl⟩ := getLast?_eq_some_iff.mp last
  obtain ⟨_, rfl⟩ := head?_eq_some_iff.mp first
  -- The labels of the two ends of the cut are both that of `x`.
  have left : label a = label x := by
    rcases mem_append.mp mx with hb | here
    · refine h x a y ?_ same
      have one := singleton_sublist.mpr hb
      exact (one.append (Sublist.refl [a])).append (singleton_sublist.mpr my)
    · rw [mem_singleton.mp here]
  have right : label b = label x := by
    rcases mem_cons.mp my with here | ha
    · rw [← here]
      exact (determined x y same).symm
    · refine h x b y ?_ same
      have one := singleton_sublist.mpr ha
      exact (singleton_sublist.mpr mx).append (one.cons_cons b)
  exact change (left.trans right.symm)

theorem Grouped.append (left : Grouped key label xs) (right : Grouped key label ys) (apart : KeysApart key xs ys) :
    Grouped key label (xs ++ ys) := by
  intro x z y hi same
  obtain ⟨before, after, split, hsu, hs⟩ := sublist_append_iff.mp hi
  cases before with
  | nil =>
    exact right x z y (split ▸ hs) same
  | cons first rest =>
    simp only [cons_append, cons.injEq] at split
    obtain ⟨rfl, split⟩ := split
    have mx : x ∈ xs := hsu.subset (by simp)
    by_cases hl : y ∈ after
    · exact absurd same (apart x mx y (hs.subset hl))
    -- all three are on the left
    have none' : after = [] := by
      cases after using reverseRecOn with
      | nil => rfl
      | append_singleton more last =>
        have lasts := congrArg getLast? split
        simp only [getLast?_append, getLast?_cons_cons, getLast?_singleton,
          Option.some_or, Option.some.injEq] at lasts
        rw [← lasts] at hl
        simp at hl
    subst none'
    rw [append_nil] at split
    exact left x z y (split ▸ hsu) same

theorem countP_le_one {p : α → Bool} (related : l.Pairwise r)
    (once : ∀ a ∈ l, ∀ b ∈ l, r a b → p a = true → p b = true → False) : l.countP p ≤ 1 := by
  induction l with
  | nil => exact Nat.zero_le 1
  | cons a rest ih =>
    obtain ⟨first, others⟩ := pairwise_cons.mp related
    have tail := ih others fun x mx y my =>
      once x (mem_cons_of_mem _ mx) y (mem_cons_of_mem _ my)
    cases here : p a with
    | false => simpa [here] using tail
    | true =>
      have none' : rest.countP p = 0 := by
        rw [countP_eq_zero]
        intro b mb ht
        exact once a (by simp) b (by simp [mb]) (first b mb) here ht
      simp [here, none']

theorem countP_flatMap_le {β : Type} {f : α → List β} {p : β → Bool} {q : α → Bool}
    (each : ∀ a ∈ l, (f a).countP p ≤ if q a then 1 else 0) :
    (l.flatMap f).countP p ≤ l.countP q := by
  induction l with
  | nil => exact le_refl _
  | cons a rest ih =>
    have first := each a (by simp)
    have tail := ih fun b mb => each b (by simp [mb])
    rw [flatMap_cons, countP_append, countP_cons]
    omega

end Grouping
