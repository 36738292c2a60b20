import Mathlib

/-! Everyone who comes in leaves an address and an item, and is to be sent the item of the one next to them.
Whichever of the two comes first is kept until the other is there. A value is missing when it is zero. -/
namespace Mailbox

open List Function

structure Box (K A I : Type) where
  addr : K → A
  item : K → I
  sends : List (A × I)

/-- Who is served from this box, who is next to whom, and the one served before an index. -/
structure Plan (K : Type) where
  mine : K → Prop
  next : K → K
  prev : K → Option K
  prev_iff : ∀ l p, prev l = some p ↔ mine p ∧ next p = l

variable {K A I : Type}

section

variable (zeroAddr : A) (zeroItem : I)

structure Matched (plan : Plan K) (addr : K → A) (item : K → I) (seen : List K) (box : Box K A I) : Prop where
  untouched : ∀ l ∉ seen, box.addr l = zeroAddr ∧ box.item l = zeroItem
  waits : ∀ r, plan.mine r → r ∈ seen → plan.next r ∉ seen → box.addr r = addr r
  kept : ∀ r, plan.mine r → r ∉ seen → plan.next r ∈ seen → box.item (plan.next r) = item (plan.next r)
  once : ∀ r, plan.mine r → r ∈ seen → plan.next r ∈ seen → box.addr r = zeroAddr ∨ box.item (plan.next r) = zeroItem
  sent : ∃ served : List K, served.Nodup ∧ (∀ r, r ∈ served ↔ plan.mine r ∧ r ∈ seen ∧ plan.next r ∈ seen) ∧
    box.sends = served.map fun r => (addr r, item (plan.next r))

theorem matched_empty {plan : Plan K} {addr : K → A} {item : K → I} :
    Matched zeroAddr zeroItem plan addr item [] ⟨fun _ => zeroAddr, fun _ => zeroItem, []⟩ where
  untouched := by simp
  waits := by simp
  kept := by simp
  once := by simp
  sent := ⟨[], by simp⟩

variable [DecidableEq K] [DecidableEq A] [DecidableEq I]

/-- The item is sent to the one before if they are there, and kept otherwise. -/
def Box.offer (box : Box K A I) (prev : Option K) (l : K) (x : I) : Box K A I :=
  match prev with
  | some p =>
    if box.addr p ≠ zeroAddr then { box with sends := box.sends ++ [(box.addr p, x)] }
    else { box with item := update box.item l x }
  | none => { box with item := update box.item l x }

/-- The one who came in is sent the item of the next if it is there, and waits otherwise. -/
def Box.ask (box : Box K A I) (mine : Prop) [Decidable mine] (next l : K) (a : A) : Box K A I :=
  if mine ∧ box.item next ≠ zeroItem then { box with sends := box.sends ++ [(a, box.item next)] }
  else { box with addr := update box.addr l a }

end

variable {zeroAddr : A} {zeroItem : I} {plan : Plan K} {addr : K → A} {item : K → I} {seen : List K}
  {box : Box K A I} {l : K}

/-- Half of what an arrival does: the item of `l` has gone to the one before, or is kept. -/
structure Offered (zeroAddr : A) (zeroItem : I) (plan : Plan K) (addr : K → A) (item : K → I) (seen : List K) (l : K)
    (box box' : Box K A I) : Prop where
  same_addr : box'.addr = box.addr
  others : ∀ k, k ≠ l → box'.item k = box.item k
  here : (∃ p, plan.prev l = some p ∧ p ∈ seen ∧ box'.item l = zeroItem ∧
      box'.sends = box.sends ++ [(addr p, item l)]) ∨
    ((∀ p, plan.prev l = some p → p ∉ seen) ∧ box'.item l = item l ∧ box'.sends = box.sends)

theorem Matched.offer [DecidableEq K] [DecidableEq A] (h : Matched zeroAddr zeroItem plan addr item seen box)
    (set : ∀ k, addr k ≠ zeroAddr) (new : l ∉ seen) :
    Offered zeroAddr zeroItem plan addr item seen l box (box.offer zeroAddr (plan.prev l) l (item l)) := by
  unfold Box.offer
  cases hb : plan.prev l with
  | none => exact ⟨rfl, fun k other => update_of_ne other _ _, .inr ⟨by simp [hb], by simp, rfl⟩⟩
  | some p =>
    obtain ⟨mine, next⟩ := (plan.prev_iff l p).mp hb
    by_cases ht : p ∈ seen
    · have waiting := h.waits p mine ht (next ▸ new)
      simp only [waiting, set p, ne_eq]
      exact ⟨rfl, fun k _ => rfl, .inl ⟨p, hb, ht, (h.untouched l new).2, rfl⟩⟩
    · have absent := (h.untouched p ht).1
      simp only [absent, ne_eq]
      exact ⟨rfl, fun k other => update_of_ne other _ _, .inr ⟨by simpa [hb] using ht, by simp, rfl⟩⟩

section

variable {box' : Box K A I}

theorem Offered.sent (offered : Offered zeroAddr zeroItem plan addr item seen l box box')
    (h : Matched zeroAddr zeroItem plan addr item seen box) (new : l ∉ seen) :
    ∃ served : List K, served.Nodup ∧
      (∀ r, r ∈ served ↔ plan.mine r ∧ r ∈ seen ∧ plan.next r ∈ l :: seen) ∧
      box'.sends = served.map fun r => (addr r, item (plan.next r)) := by
  obtain ⟨served, hd, _, sends⟩ := h.sent
  have before := plan.prev_iff l
  rcases offered.here with ⟨p, prev, _, -, sent⟩ | ⟨_, -, sent⟩
  · obtain ⟨mine, next⟩ := (before p).mp prev
    refine ⟨served ++ [p], ?_, ?_, ?_⟩
    · grind
    · grind
    · rw [sent, sends, map_append, map_singleton, next]
  · refine ⟨served, hd, ?_, sent.trans sends⟩
    grind

theorem Matched.arrive [DecidableEq K] [DecidableEq A] [DecidableEq I] [Decidable (plan.mine l)]
    (h : Matched zeroAddr zeroItem plan addr item seen box) (addr_set : ∀ k, addr k ≠ zeroAddr)
    (item_set : ∀ k, item k ≠ zeroItem) (new : l ∉ seen) :
    Matched zeroAddr zeroItem plan addr item (l :: seen)
      ((box.offer zeroAddr (plan.prev l) l (item l)).ask zeroItem (plan.mine l) (plan.next l) l (addr l)) := by
  have offered := h.offer addr_set new
  generalize box.offer zeroAddr (plan.prev l) l (item l) = box' at offered
  obtain ⟨served, hd, _, sends⟩ := offered.sent h new
  have before := plan.prev_iff l
  obtain ⟨_, _, _⟩ := offered
  obtain ⟨_, _, _, _, -⟩ := h
  -- What does not depend on whether `l` is served now.
  have items : ∀ r, plan.mine r → r ∉ l :: seen → plan.next r ∈ l :: seen →
      box'.item (plan.next r) = item (plan.next r) := by
    grind
  unfold Box.ask
  split
  next served_now =>
    obtain ⟨mine, _⟩ := served_now
    have found : box'.item (plan.next l) = item (plan.next l) ∧ plan.next l ∈ l :: seen := by
      grind
    refine ⟨?_, ?_, items, ?_, served ++ [l], ?_, ?_, ?_⟩
    · grind
    · grind
    · grind
    · grind
    · grind
    · rw [sends, map_append, map_singleton, found.1]
  next waits_now =>
    refine ⟨?_, ?_, items, ?_, served, hd, ?_, sends⟩
    · grind [update_apply]
    · grind [update_apply]
    · grind [update_apply]
    · grind

end

end Mailbox
