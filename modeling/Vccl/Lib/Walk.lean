import Mathlib

/-! Cyclic lists and walks along successor pointers. -/
namespace Walk

open List

variable {α : Type*}

/-- The elements seen in `n` steps and where the walk stands then; a walk that has fallen off its end
cannot take another step. -/
def follow (next : α → Option α) : Nat → Option α → Option (List α × Option α)
  | 0, current => some ([], current)
  | _ + 1, none => none
  | n + 1, some a => (follow next n (next a)).map fun (seen, last) => (a :: seen, last)

theorem follow_chain {next : α → Option α} {a z : α} {l : List α}
    (chain : (a :: (l ++ [z])).IsChain fun x y => next x = some y) :
    follow next (l.length + 1) (some a) = some (a :: l, some z) := by
  induction l generalizing a with
  | nil =>
    have step : next a = some z := by simpa using chain
    simp [follow, step]
  | cons b rest ih =>
    rw [cons_append, isChain_cons_cons] at chain
    rw [length_cons, follow, chain.1, ih chain.2]
    rfl

theorem follow_cycle {next : α → Option α} {ring : Cycle α} {a : α}
    (chain : ring.Chain fun x y => next x = some y) (mem : a ∈ ring) :
    ∃ seen : List α, follow next ring.length (some a) = some (seen, some a) ∧
      (seen : Cycle α) = ring ∧ seen.head? = some a := by
  obtain ⟨l, rfl⟩ : ∃ l : List α, (l : Cycle α) = ring := Quot.exists_rep ring
  obtain ⟨before, after, rfl⟩ := append_of_mem (Cycle.mem_coe_iff.mp mem)
  have turned : ((a :: (after ++ before) : List α) : Cycle α) = (before ++ a :: after : List α) := by
    rw [Cycle.coe_eq_coe]
    rw [← cons_append]
    exact isRotated_append
  rw [← turned] at chain ⊢
  refine ⟨a :: (after ++ before), ?_, rfl, rfl⟩
  exact follow_chain chain

theorem chain_flatten {R : α → α → Prop} {paths : List (List α)} (nonempty : [] ∉ paths)
    (inner : ∀ path ∈ paths, path.IsChain R)
    (outer : Cycle.Chain (fun p q => ∀ x ∈ p.getLast?, ∀ y ∈ q.head?, R x y) (paths : Cycle (List α))) :
    Cycle.Chain R (paths.flatten : Cycle α) := by
  cases paths with
  | nil => trivial
  | cons first rest =>
    cases first with
    | nil => simp at nonempty
    | cons a tail =>
      rw [Cycle.chain_coe_cons, ← cons_append, isChain_append] at outer
      obtain ⟨open', -, closing⟩ := outer
      -- the first element again, as a path of its own, closes the list
      have closed : (((a :: tail) :: rest) ++ [[a]]).flatten.IsChain R := by
        rw [isChain_flatten (by simpa using nonempty)]
        constructor
        · exact forall_mem_append.mpr ⟨inner, forall_mem_singleton.mpr (isChain_singleton a)⟩
        · rw [isChain_append]
          refine ⟨open', isChain_singleton _, ?_⟩
          intro p last q hs
          obtain rfl : q = [a] := by simpa using hs.symm
          exact closing p last (a :: tail) rfl
      simpa [Cycle.chain_coe_cons] using closed

end Walk
