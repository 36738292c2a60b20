import Mathlib

/-! Objects in counted slots. A slot takes references and gives them back; when its count comes to zero its
objects are released, but the slot may still point to them. -/
namespace RefCount

open List

structure Slot where
  count : Nat
  objs : List Nat

/-- Slots by key, the number of the next object and the objects released so far. -/
structure Table (K : Type) where
  slots : K → Slot
  next : Nat
  released : List Nat

variable {K : Type}

/-- The objects of a slot in use are not released, those of an idle one are, and each object is released at
most once. -/
structure Sound (t : Table K) : Prop where
  known : ∀ k, ∀ o ∈ (t.slots k).objs, o < t.next
  gone : ∀ o ∈ t.released, o < t.next
  once : t.released.Nodup
  distinct : ∀ k, (t.slots k).objs.Nodup
  apart : ∀ k k', k ≠ k' → ∀ o ∈ (t.slots k).objs, o ∉ (t.slots k').objs
  kept : ∀ k, 0 < (t.slots k).count → ∀ o ∈ (t.slots k).objs, o ∉ t.released
  idle : ∀ k, (t.slots k).count = 0 → ∀ o ∈ (t.slots k).objs, o ∈ t.released

def Accounted (t : Table K) : Prop :=
  ∀ o < t.next, o ∈ t.released ∨ ∃ k, 0 < (t.slots k).count ∧ o ∈ (t.slots k).objs

theorem sound_empty : Sound (⟨fun _ => ⟨0, []⟩, 0, []⟩ : Table K) := by
  constructor <;> simp

theorem accounted_empty : Accounted (⟨fun _ => ⟨0, []⟩, 0, []⟩ : Table K) := by
  simp [Accounted]

variable {t : Table K} {k : K}

theorem Sound.skip (h : Sound t) : Sound { t with next := t.next + 1 } :=
  { h with
    known := fun k o hi => Nat.lt_succ_of_lt (h.known k o hi)
    gone := fun o hi => Nat.lt_succ_of_lt (h.gone o hi) }

theorem Sound.alone (h : Sound t) (k : K) :
    ∀ o ∈ (t.slots k).objs, o < t.next ∧ ∀ k', k' ≠ k → o ∉ (t.slots k').objs :=
  fun o hi => ⟨h.known k o hi, fun k' other => h.apart k k' (Ne.symm other) o hi⟩

variable [DecidableEq K]

def Table.set (t : Table K) (k : K) (slot : Slot) : Table K :=
  { t with slots := Function.update t.slots k slot }

theorem Sound.change (h : Sound t) {slot : Slot} {next : Nat} {released : List Nat} (grows : t.next ≤ next)
    (known : ∀ o ∈ slot.objs, o < next ∧ ∀ k', k' ≠ k → o ∉ (t.slots k').objs) (distinct : slot.objs.Nodup)
    (once : released.Nodup) (more : ∀ o, o ∈ t.released → o ∈ released)
    (only : ∀ o ∈ released, o ∈ t.released ∨ o ∈ (t.slots k).objs)
    (idle : ∀ o ∈ slot.objs, slot.count = 0 ↔ o ∈ released) :
    Sound { t.set k slot with next, released } := by
  obtain ⟨_, _, _, _, _, _, _⟩ := h
  have slots : ∀ k', (t.set k slot).slots k' = if k' = k then slot else t.slots k' := Function.update_apply _ _ _
  constructor <;> grind

theorem Accounted.change (h : Accounted t) {slot : Slot} {next : Nat} {released : List Nat}
    (more : ∀ o, o ∈ t.released → o ∈ released)
    (still : 0 < (t.slots k).count → ∀ o ∈ (t.slots k).objs, o ∈ released ∨ 0 < slot.count ∧ o ∈ slot.objs)
    (new : ∀ o, t.next ≤ o → o < next → 0 < slot.count ∧ o ∈ slot.objs) :
    Accounted { t.set k slot with next, released } := by
  intro o hbe
  by_cases old : o < t.next
  · rcases h o old with hb | ⟨k', pos, hi⟩
    · exact .inl (more o hb)
    · by_cases here : k' = k
      · subst here
        exact (still pos o hi).imp id fun both => ⟨k', by simpa [Table.set] using both⟩
      · exact .inr ⟨k', by simpa [Table.set, here] using ⟨pos, hi⟩⟩
  · exact .inr ⟨k, by simpa [Table.set] using new o (Nat.le_of_not_lt old) hbe⟩

theorem Sound.take (h : Sound t) (fresh : (t.slots k).count = 0 → (t.slots k).objs = []) :
    Sound (t.set k ⟨(t.slots k).count + 1, (t.slots k).objs⟩) := by
  refine h.change (Nat.le_refl _) (h.alone k) (h.distinct k) h.once (fun _ before => before) (fun _ => .inl) ?_
  have kept := h.kept k
  grind

theorem Accounted.take (h : Accounted t) : Accounted (t.set k ⟨(t.slots k).count + 1, (t.slots k).objs⟩) :=
  h.change (fun _ before => before) (fun _ _ hi => .inr ⟨Nat.succ_pos _, hi⟩) (by omega)

variable {objs : List Nat}

theorem Sound.take_alloc (h : Sound t) (fresh : (t.slots k).count = 0 → (t.slots k).objs = [])
    (new : objs.Perm (t.next :: (t.slots k).objs)) :
    Sound { t.set k ⟨(t.slots k).count + 1, objs⟩ with next := t.next + 1 } := by
  have known := h.known
  have kept := h.kept k
  refine h.change (Nat.le_succ _) ?_ ?_ h.once (fun _ before => before) (fun _ => .inl) ?_
  · have apart := h.apart k
    grind [new.mem_iff]
  · exact new.nodup_iff.mpr (nodup_cons.mpr ⟨fun hi => Nat.lt_irrefl _ (known k _ hi), h.distinct k⟩)
  · have gone := h.gone
    change ∀ o ∈ objs, _ = 0 ↔ o ∈ t.released
    grind [new.mem_iff]

theorem Accounted.take_alloc (h : Accounted t) (new : objs.Perm (t.next :: (t.slots k).objs)) :
    Accounted { t.set k ⟨(t.slots k).count + 1, objs⟩ with next := t.next + 1 } := by
  refine h.change (fun _ before => before) (fun _ o hi => .inr ?_) (fun o low high => ?_)
  · exact ⟨Nat.succ_pos _, new.mem_iff.mpr (mem_cons_of_mem _ hi)⟩
  · obtain rfl : o = t.next := by omega
    exact ⟨Nat.succ_pos _, new.mem_iff.mpr mem_cons_self⟩

/-- A reference is given back, and with the last one the objects. -/
theorem Sound.drop (h : Sound t) (used : 0 < (t.slots k).count) :
    Sound { t.set k ⟨(t.slots k).count - 1, (t.slots k).objs⟩ with
      released := if (t.slots k).count - 1 = 0 then t.released ++ (t.slots k).objs else t.released } := by
  have before := h.kept k used
  refine h.change (Nat.le_refl _) (h.alone k) (h.distinct k) ?_ ?_ ?_ ?_
  · split
    · exact h.once.append (h.distinct k) fun o released now => before o now released
    · exact h.once
  all_goals grind

theorem Accounted.drop (h : Accounted t) :
    Accounted { t.set k ⟨(t.slots k).count - 1, (t.slots k).objs⟩ with
      released := if (t.slots k).count - 1 = 0 then t.released ++ (t.slots k).objs else t.released } := by
  refine h.change ?_ ?_ fun _ low high => absurd high (Nat.not_lt.mpr low)
  all_goals grind

theorem Sound.clear (h : Sound t) : Sound (t.set k ⟨0, []⟩) :=
  h.change (Nat.le_refl _) (by simp) nodup_nil h.once (fun _ before => before) (fun _ => .inl) (by simp)

theorem Accounted.clear (h : Accounted t) (zero : (t.slots k).count = 0) : Accounted (t.set k ⟨0, []⟩) :=
  h.change (fun _ before => before) (by omega) (by omega)

theorem Sound.adopt (h : Sound t) {o : Nat} (below : o < t.next) (kept : o ∉ t.released)
    (free : ∀ k', o ∉ (t.slots k').objs) : Sound (t.set k ⟨1, [o]⟩) := by
  refine h.change (Nat.le_refl _) ?_ (nodup_singleton o) h.once (fun _ before => before) (fun _ => .inl) ?_
  · simpa using ⟨below, fun k' _ => free k'⟩
  · simpa using kept

end RefCount
