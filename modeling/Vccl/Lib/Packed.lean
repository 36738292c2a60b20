import Mathlib

/-! Entries that are selected by a mask and stored back to back in a buffer: the place of an entry is the number of
selected positions before its own. -/
namespace Packed

open List

variable {α : Type}

def positions (p : Nat → Bool) (n : Nat) : List Nat := (range n).filter p

theorem positions_succ (p : Nat → Bool) (n : Nat) :
    positions p (n + 1) = positions p n ++ if p n then [n] else [] := by
  rw [positions, range_succ]
  by_cases hh : p n <;> simp [positions, hh]

theorem positions_congr {p q : Nat → Bool} {n : Nat} (same : ∀ c < n, p c = q c) : positions p n = positions q n :=
  filter_congr fun c mem => same c (mem_range.mp mem)

theorem positions_get {p : Nat → Bool} {n c : Nat} (below : c < n) (holds : p c = true) :
    (positions p n)[(positions p c).length]? = some c := by
  induction n with
  | zero => cases below
  | succ n ih =>
    rw [positions_succ]
    by_cases last : c = n
    · subst last
      simp [holds]
    · have found := ih (by omega)
      obtain ⟨hs, -⟩ := List.getElem?_eq_some_iff.mp found
      rw [List.getElem?_append_left hs]
      exact found

def write (buf : Nat → α) (base : Nat) (xs : List α) : Nat → α := fun k =>
  if base ≤ k then (xs[k - base]?).getD (buf k) else buf k

def slice (buf : Nat → α) (base len : Nat) : List α := (range len).map fun k => buf (base + k)

theorem write_nil (buf : Nat → α) (base : Nat) : write buf base [] = buf := by
  funext k
  simp [write]

variable {buf : Nat → α} {base k : Nat} {xs : List α}

theorem write_get {x : α} (there : xs[k]? = some x) :
    write buf base xs (base + k) = x := by
  simp [write, there]

theorem write_before (before : k < base) :
    write buf base xs k = buf k := by
  rw [write, if_neg (by omega)]

theorem write_after (after : base + xs.length ≤ k) :
    write buf base xs k = buf k := by
  rw [write, if_pos (by omega), getElem?_eq_none (by omega), Option.getD_none]

theorem write_append (buf : Nat → α) (base : Nat) (xs ys : List α) :
    write (write buf base xs) (base + xs.length) ys = write buf base (xs ++ ys) := by
  funext k
  unfold write
  by_cases hb : k < base
  · simp [show ¬ base ≤ k by omega, show ¬ base + xs.length ≤ k by omega]
  · by_cases first : k < base + xs.length
    · rw [if_neg (by omega), if_pos (by omega), if_pos (by omega), getElem?_append_left (by omega)]
    · rw [if_pos (by omega), if_pos (by omega), if_pos (by omega), getElem?_append_right (by omega),
        getElem?_eq_none (l := xs) (by omega), Option.getD_none, Nat.sub_sub]

theorem write_snoc (buf : Nat → α) (base : Nat) (xs : List α) (x : α) :
    Function.update (write buf base xs) (base + xs.length) x = write buf base (xs ++ [x]) := by
  rw [← write_append]
  funext k
  by_cases here : k = base + xs.length
  · subst here
    rw [Function.update_self]
    exact (write_get (k := 0) rfl).symm
  rw [Function.update_of_ne here]
  by_cases hb : k < base + xs.length
  · rw [write_before hb]
  · have after : base + xs.length + [x].length ≤ k := by
      rw [length_singleton]
      omega
    exact (write_after after).symm

theorem slice_write (buf : Nat → α) (base : Nat) (xs ys zs : List α) :
    slice (write buf base (xs ++ (ys ++ zs))) (base + xs.length) ys.length = ys := by
  refine ext_getElem? fun k => ?_
  unfold slice
  by_cases hi : k < ys.length
  · have there : (xs ++ (ys ++ zs))[xs.length + k]? = some ys[k] := by
      rw [getElem?_append_right (by omega), Nat.add_sub_cancel_left, getElem?_append_left hi,
        getElem?_eq_getElem hi]
    rw [getElem?_map, getElem?_range hi, Option.map_some, Nat.add_assoc, write_get there,
      getElem?_eq_getElem hi]
  · rw [getElem?_eq_none (by simpa using hi), getElem?_eq_none (by omega)]

/-! Two lists back to back at the start of a buffer. -/

variable (buf : Nat → α) (xs ys : List α)

theorem write_write : write (write buf 0 xs) xs.length ys = write buf 0 (xs ++ ys) := by
  rw [← write_append, Nat.zero_add]

theorem slice_first : slice (write buf 0 (xs ++ ys)) 0 xs.length = xs := slice_write buf 0 [] xs ys

theorem slice_second : slice (write buf 0 (xs ++ ys)) xs.length ys.length = ys := by
  have half := slice_write buf 0 xs ys []
  rwa [Nat.zero_add, append_nil] at half

theorem slice_both : slice (write buf 0 (xs ++ ys)) 0 (xs.length + ys.length) = xs ++ ys := by
  have all := slice_write buf 0 [] (xs ++ ys) []
  rwa [append_nil, length_append] at all

end Packed
