import Mathlib

/-! One side of a stream of numbered messages. A message is a row of places that one side fills and the
other reads; a side goes on to its next message with a post, and a touch may reach ahead of the message
the side stands at. A round is a sequence of places, `freq` to a message. One side goes over a round once,
posting at the end of each message; the other may first go over beginnings of the round without posting. -/
namespace Rounds

open List

variable {α : Type*}

structure Touch (α : Type*) where
  ahead : Nat
  sub : Nat
  size : Nat
  post : Bool
  item : α

structure Place (α : Type*) where
  message : Nat
  sub : Nat
  size : Nat
  item : α

def places : Nat → List (Touch α) → List (Place α)
  | _, [] => []
  | posted, t :: rest =>
    ⟨posted + t.ahead, t.sub, t.size, t.item⟩ :: places (posted + t.post.toNat) rest

def posts (l : List (Touch α)) : Nat := l.countP (·.post)

@[simp] theorem posts_append (l l' : List (Touch α)) : posts (l ++ l') = posts l + posts l' :=
  countP_append

theorem places_append (posted : Nat) (l l' : List (Touch α)) :
    places posted (l ++ l') = places posted l ++ places (posted + posts l) l' := by
  induction l generalizing posted with
  | nil => rfl
  | cons t rest ih =>
    have count : posts (t :: rest) = t.post.toNat + posts rest := by
      cases h : t.post <;> simp [posts, h, Nat.add_comm]
    rw [cons_append, places, places, ih, count, cons_append, Nat.add_assoc]

def Place.stop (slot : Nat) (p : Place α) : Nat := p.message * slot + p.sub + p.size

/-- Places of some size, one behind the other. -/
def Place.Before (slot : Nat) (p q : Place α) : Prop :=
  0 < p.size ∧ 0 < q.size ∧ p.stop slot ≤ q.message * slot + q.sub

/-- The touches that go beyond everything touched before, by a mark of how far that is. -/
def fresh (slot : Nat) : Nat → List (Place α) → List (Place α)
  | _, [] => []
  | mark, p :: rest =>
    if mark < p.stop slot then p :: fresh slot (p.stop slot) rest else fresh slot mark rest

def marked (slot : Nat) : Nat → List (Place α) → Nat
  | mark, [] => mark
  | mark, p :: rest => marked slot (max mark (p.stop slot)) rest

theorem fresh_append (slot mark : Nat) (l l' : List (Place α)) :
    fresh slot mark (l ++ l') = fresh slot mark l ++ fresh slot (marked slot mark l) l' := by
  induction l generalizing mark with
  | nil => rfl
  | cons p rest ih =>
    rw [cons_append, fresh, fresh, marked]
    split
    next hb =>
      rw [ih, max_eq_right hb.le, cons_append]
    next hw =>
      rw [ih, max_eq_left (Nat.le_of_not_lt hw)]

theorem marked_lt_iff {slot mark x : Nat} {l : List (Place α)} :
    marked slot mark l < x ↔ mark < x ∧ ∀ p ∈ l, p.stop slot < x := by
  induction l generalizing mark with
  | nil => simp [marked]
  | cons p rest ih => rw [marked, ih, max_lt_iff, forall_mem_cons, and_assoc]

section Before

variable {slot : Nat} {l l' : List (Place α)}

theorem Place.Before.stop_lt {p q : Place α} (h : p.Before slot q) : p.stop slot < q.stop slot := by
  obtain ⟨-, pos, le⟩ := h
  rw [stop.eq_def _ q]
  omega

theorem fresh_eq_filter (before : l.Pairwise (Place.Before slot)) (mark : Nat) :
    fresh slot mark l = l.filter (mark < ·.stop slot) := by
  induction before generalizing mark with
  | nil => rfl
  | @cons p rest first _ ih =>
    rw [fresh, filter_cons]
    simp only [decide_eq_true_eq]
    split
    next new =>
      rw [ih, filter_congr]
      intro q mem
      have := (first q mem).stop_lt
      rw [decide_eq_decide]
      omega
    · exact ih mark

theorem filter_marked (before : (l ++ l').Pairwise (Place.Before slot)) (mark : Nat) :
    l'.filter (marked slot mark l < ·.stop slot) = l'.filter (mark < ·.stop slot) := by
  apply filter_congr
  intro q mem
  rw [decide_eq_decide, marked_lt_iff, and_iff_left]
  exact fun p hp => ((pairwise_append.mp before).2.2 p hp q mem).stop_lt

theorem filter_marked_self (mark : Nat) : l.filter (marked slot mark l < ·.stop slot) = [] := by
  rw [filter_eq_nil_iff]
  intro p mem h
  exact lt_irrefl _ ((marked_lt_iff.mp (of_decide_eq_true h)).2 p mem)

end Before

structure Round (α : Type*) where
  count : Nat
  freq : Nat
  size : Nat
  item : Nat → α

namespace Round

variable (r : Round α)

def ends (i : Nat) : Bool := i % r.freq + 1 = r.freq || i + 1 = r.count

def place (posted i : Nat) : Place α :=
  ⟨posted + i / r.freq, i % r.freq * r.size, r.size, r.item i⟩

def rowTo (posted c : Nat) : List (Place α) := (range c).map (r.place posted)

def pass (c : Nat) : List (Touch α) :=
  (range c).map fun i => ⟨i / r.freq, i % r.freq * r.size, r.size, false, r.item i⟩

def lastTo (c : Nat) : List (Touch α) :=
  (range c).map fun i => ⟨0, i % r.freq * r.size, r.size, r.ends i, r.item i⟩

def last : List (Touch α) := r.lastTo r.count

def messages : Nat := posts r.last

section Mk

variable {count freq size : Nat} {item : Nat → α}

theorem pass_mk (c : Nat) : (Round.mk count freq size item).pass c =
    (range c).map fun i => ⟨i / freq, i % freq * size, size, false, item i⟩ := rfl

theorem last_mk : (Round.mk count freq size item).last =
    (range count).map fun i => ⟨0, i % freq * size, size, i % freq + 1 = freq || i + 1 = count, item i⟩ := rfl

end Mk

theorem rowTo_succ (posted c : Nat) : r.rowTo posted (c + 1) = r.rowTo posted c ++ [r.place posted c] := by
  rw [rowTo, range_succ, map_append, map_singleton, rowTo]

theorem places_pass (posted c : Nat) : places posted (r.pass c) = r.rowTo posted c := by
  unfold pass rowTo
  induction range c with
  | nil => rfl
  | cons i rest ih => simpa [places, place] using ih

@[simp] theorem posts_pass (c : Nat) : posts (r.pass c) = 0 := by
  simp [posts, pass, countP_eq_zero]

theorem lastTo_succ (c : Nat) :
    r.lastTo (c + 1) = r.lastTo c ++ [⟨0, c % r.freq * r.size, r.size, r.ends c, r.item c⟩] := by
  rw [lastTo, range_succ, map_append, map_singleton, lastTo]

/-- The sizes of a round, so that its messages fit their slots. -/
structure Solid (slot : Nat) : Prop where
  freq_pos : 0 < r.freq
  size_pos : 0 < r.size
  fits : r.freq * r.size ≤ slot

variable {r} {slot i : Nat}

theorem ends_inner (freq_pos : 0 < r.freq) (inner : i + 1 < r.count) : r.ends i = decide (r.freq ∣ i + 1) := by
  have rest := Nat.mod_lt i freq_pos
  have not_last : decide (i + 1 = r.count) = false := by
    simp
    omega
  rw [ends, not_last, Bool.or_false, decide_eq_decide, Nat.dvd_iff_mod_eq_zero, Nat.add_mod, Nat.add_mod_mod]
  constructor
  · intro ha
    rw [ha, Nat.mod_self]
  · intro hw
    have := Nat.le_of_dvd (Nat.succ_pos _) (Nat.dvd_of_mod_eq_zero hw)
    omega

theorem posts_lastTo (freq_pos : 0 < r.freq) {c : Nat} (inside : c < r.count) : posts (r.lastTo c) = c / r.freq := by
  induction c with
  | zero => exact (Nat.zero_div _).symm
  | succ c ih =>
    rw [lastTo_succ, posts_append, ih (by omega), Nat.succ_div, ends_inner freq_pos inside]
    by_cases hw : r.freq ∣ c + 1 <;> simp [posts]

theorem places_lastTo (freq_pos : 0 < r.freq) (posted : Nat) {c : Nat} (within : c ≤ r.count) :
    places posted (r.lastTo c) = r.rowTo posted c := by
  induction c with
  | zero => rfl
  | succ c ih =>
    rw [lastTo_succ, places_append, ih (by omega), posts_lastTo freq_pos within, rowTo_succ]
    rfl

theorem places_last (freq_pos : 0 < r.freq) (posted : Nat) : places posted r.last = r.rowTo posted r.count :=
  places_lastTo freq_pos posted (Nat.le_refl _)

theorem div_lt_messages (freq_pos : 0 < r.freq) (inside : i < r.count) : i / r.freq + 1 ≤ r.messages := by
  obtain ⟨c, ht⟩ := Nat.exists_eq_succ_of_ne_zero (show r.count ≠ 0 by omega)
  have whole : r.messages = c / r.freq + 1 := by
    rw [messages, last, ht, lastTo_succ, posts_append, posts_lastTo freq_pos (by omega)]
    simp [posts, ends, ht]
  rw [whole]
  exact Nat.succ_le_succ (Nat.div_le_div_right (by omega))

section Solid

variable (solid : r.Solid slot) (posted : Nat)
include solid

theorem place_stop_le (i : Nat) : (r.place posted i).stop slot ≤ (posted + i / r.freq + 1) * slot := by
  have low := Nat.mod_lt i solid.freq_pos
  have inner : (i % r.freq + 1) * r.size ≤ r.freq * r.size := Nat.mul_le_mul_right _ low
  have fits := solid.fits
  simp only [Place.stop, place]
  rw [Nat.add_mul (posted + i / r.freq) 1 slot]
  rw [Nat.add_mul] at inner
  omega

theorem place_before {k : Nat} (lt : i < k) : (r.place posted i).Before slot (r.place posted k) := by
  refine ⟨solid.size_pos, solid.size_pos, ?_⟩
  by_cases same : k / r.freq = i / r.freq
  · have split_i := Nat.div_add_mod i r.freq
    have split_k := Nat.div_add_mod k r.freq
    rw [same] at split_k
    have inner : (i % r.freq + 1) * r.size ≤ k % r.freq * r.size := Nat.mul_le_mul_right _ (by omega)
    rw [Nat.add_mul] at inner
    simp only [Place.stop, place, same]
    omega
  · have up : i / r.freq ≤ k / r.freq := Nat.div_le_div_right lt.le
    calc (r.place posted i).stop slot ≤ (posted + i / r.freq + 1) * slot := place_stop_le solid posted i
      _ ≤ (posted + k / r.freq) * slot := Nat.mul_le_mul_right _ (by omega)
      _ ≤ (posted + k / r.freq) * slot + k % r.freq * r.size := Nat.le_add_right _ _

end Solid

end Round

inductive Passes (r : Round α) : List (Touch α) → Prop
  | nil : Passes r []
  | pass {l} (c : Nat) (within : c ≤ r.count) (later : Passes r l) : Passes r (r.pass c ++ l)

namespace Passes

variable {r : Round α}

theorem single {c : Nat} (within : c ≤ r.count) : Passes r (r.pass c) := by
  simpa using pass c within nil

theorem append {l l' : List (Touch α)} (first : Passes r l) (second : Passes r l') :
    Passes r (l ++ l') := by
  induction first with
  | nil => exact second
  | pass c within _ ih =>
    rw [append_assoc]
    exact .pass c within ih

theorem flatMap {β : Type*} {xs : List β} {f : β → List (Touch α)} (all : ∀ x ∈ xs, Passes r (f x)) :
    Passes r (xs.flatMap f) := by
  induction xs with
  | nil => exact .nil
  | cons x xs ih =>
    exact (all x (by simp)).append (ih fun y mem => all y (by simp [mem]))

end Passes

def entries : Nat → List (Round α) → List (Place α)
  | _, [] => []
  | posted, r :: rest => r.rowTo posted r.count ++ entries (posted + r.messages) rest

section Entries

variable {slot : Nat} {rounds : List (Round α)} (solid : ∀ r ∈ rounds, r.Solid slot)
include solid

theorem places_flatMap_last (posted : Nat) : places posted (rounds.flatMap Round.last) = entries posted rounds := by
  induction rounds generalizing posted with
  | nil => rfl
  | cons r rest ih =>
    obtain ⟨hs, solid_rest⟩ := forall_mem_cons.mp solid
    rw [flatMap_cons, places_append, Round.places_last hs.freq_pos, ih solid_rest]
    rfl

theorem entries_message {posted : Nat} {p : Place α} (mem : p ∈ entries posted rounds) :
    posted ≤ p.message ∧ p.message < posted + (rounds.map Round.messages).sum ∧ 0 < p.size := by
  induction rounds generalizing posted with
  | nil => cases mem
  | cons r rest ih =>
    obtain ⟨hs, solid_rest⟩ := forall_mem_cons.mp solid
    rw [map_cons, sum_cons]
    rw [entries, mem_append, Round.rowTo, mem_map] at mem
    rcases mem with ⟨i, hi, rfl⟩ | hl
    · have := Round.div_lt_messages hs.freq_pos (mem_range.mp hi)
      refine ⟨Nat.le_add_right _ _, ?_, hs.size_pos⟩
      simp only [Round.place]
      omega
    · have := ih solid_rest hl
      omega

theorem entries_before (posted : Nat) : (entries posted rounds).Pairwise (Place.Before slot) := by
  induction rounds generalizing posted with
  | nil => exact .nil
  | cons r rest ih =>
    obtain ⟨hs, solid_rest⟩ := forall_mem_cons.mp solid
    rw [entries, pairwise_append]
    refine ⟨pairwise_lt_range.map _ fun _ _ lt => Round.place_before hs posted lt, ih solid_rest _, ?_⟩
    intro p row q later
    obtain ⟨i, mem, rfl⟩ := mem_map.mp row
    obtain ⟨low, -, pos⟩ := entries_message solid_rest later
    have inside := Round.div_lt_messages hs.freq_pos (mem_range.mp mem)
    refine ⟨hs.size_pos, pos, ?_⟩
    calc (r.place posted i).stop slot ≤ (posted + i / r.freq + 1) * slot := Round.place_stop_le hs posted i
      _ ≤ q.message * slot := Nat.mul_le_mul_right _ (by omega)
      _ ≤ q.message * slot + q.sub := Nat.le_add_right _ _

theorem entries_unique {posted : Nat} {p q : Place α} (mem : p ∈ entries posted rounds)
    (mem' : q ∈ entries posted rounds) (message : p.message = q.message) (sub : p.sub = q.sub) : p = q := by
  have apart {p q : Place α} (h : p.Before slot q) : ¬ (p.message = q.message ∧ p.sub = q.sub) := by
    obtain ⟨pos, -, le⟩ := h
    rintro ⟨message, sub⟩
    rw [Place.stop, message, sub] at le
    omega
  have before := entries_before solid posted
  exact Pairwise.forall_of_forall_of_flip (R := fun p q => p.message = q.message ∧ p.sub = q.sub → p = q)
    (fun _ _ _ => rfl) (before.imp fun h same => absurd same (apart h))
    (before.imp fun h same => absurd (same.imp Eq.symm Eq.symm) (apart h)) mem mem' ⟨message, sub⟩

end Entries

theorem posts_flatMap_last (rounds : List (Round α)) :
    posts (rounds.flatMap Round.last) = (rounds.map Round.messages).sum := by
  induction rounds with
  | nil => rfl
  | cons r rest ih =>
    rw [flatMap_cons, posts_append, ih]
    rfl

theorem countP_entries (q : α → Nat → Bool) (posted : Nat) (rounds : List (Round α)) :
    (entries posted rounds).countP (fun p => q p.item p.size) =
      (rounds.map fun r => (range r.count).countP fun i => q (r.item i) r.size).sum := by
  induction rounds generalizing posted with
  | nil => rfl
  | cons r rest ih =>
    rw [entries, countP_append, ih, Round.rowTo, countP_map]
    rfl

/-- Touches that go over each round in turn, with beginnings of it before the posting pass. -/
inductive Repeats : List (Round α) → List (Touch α) → Prop
  | nil : Repeats [] []
  | pass {r rest l} (c : Nat) (within : c ≤ r.count) (later : Repeats (r :: rest) l) :
      Repeats (r :: rest) (r.pass c ++ l)
  | last {r rest l} (later : Repeats rest l) : Repeats (r :: rest) (r.last ++ l)

namespace Repeats

variable {r : Round α}

theorem passes {rest : List (Round α)} {l l' : List (Touch α)} (first : Passes r l)
    (later : Repeats (r :: rest) l') : Repeats (r :: rest) (l ++ l') := by
  induction first with
  | nil => exact later
  | pass c within _ ih =>
    rw [append_assoc]
    exact .pass c within ih

variable {rounds rounds' : List (Round α)} {l l' : List (Touch α)} {slot : Nat}

theorem append (first : Repeats rounds l) (second : Repeats rounds' l') :
    Repeats (rounds ++ rounds') (l ++ l') := by
  induction first with
  | nil => exact second
  | pass c within _ ih =>
    rw [append_assoc]
    exact .pass c within ih
  | last _ ih =>
    rw [append_assoc]
    exact .last ih

theorem eq_nil (repeats : Repeats rounds l) (empty : ∀ r ∈ rounds, r.count = 0) : l = [] := by
  induction repeats with
  | nil => rfl
  | @pass r rest l c within _ ih =>
    have none_left : c = 0 := by
      have := empty r (by simp)
      omega
    rw [ih empty, none_left]
    rfl
  | @last r rest l _ ih =>
    have head : r.last = [] := by
      rw [Round.last, empty r (by simp)]
      rfl
    rw [ih (fun r' h => empty r' (by simp [h])), head]
    rfl

theorem posts_eq (repeats : Repeats rounds l) : posts l = (rounds.map Round.messages).sum := by
  induction repeats with
  | nil => rfl
  | pass c _ _ ih => rw [posts_append, Round.posts_pass, Nat.zero_add, ih]
  | last _ ih =>
    rw [posts_append, ih]
    rfl

theorem mem_places (repeats : Repeats rounds l) (solid : ∀ r ∈ rounds, r.Solid slot) (posted : Nat) (p : Place α) :
    p ∈ places posted l ↔ p ∈ entries posted rounds := by
  induction repeats generalizing posted with
  | nil => exact Iff.rfl
  | @pass r rest l c within _ ih =>
    rw [places_append, r.places_pass, r.posts_pass, Nat.add_zero, mem_append, ih solid, or_iff_right_of_imp]
    intro he
    obtain ⟨i, mem, rfl⟩ := mem_map.mp he
    rw [entries, mem_append]
    left
    apply mem_map_of_mem
    exact mem_range.mpr ((mem_range.mp mem).trans_le within)
  | @last r rest l _ ih =>
    obtain ⟨hs, solid_rest⟩ := forall_mem_cons.mp solid
    rw [places_append, Round.places_last hs.freq_pos, mem_append, ih solid_rest, entries, mem_append]
    rfl

theorem fresh_filter (repeats : Repeats rounds l) (solid : ∀ r ∈ rounds, r.Solid slot) (posted mark : Nat) :
    fresh slot mark (places posted l) = (entries posted rounds).filter (mark < ·.stop slot) := by
  induction repeats generalizing posted mark with
  | nil => rfl
  | @pass r rest l c within _ ih =>
    have before := entries_before solid posted
    obtain ⟨later, split⟩ : ∃ later, entries posted (r :: rest) = r.rowTo posted c ++ later := by
      obtain ⟨d, hd⟩ := Nat.exists_eq_add_of_le within
      rw [entries, Round.rowTo, hd, range_add, map_append, append_assoc]
      exact ⟨_, rfl⟩
    rw [places_append, r.places_pass, r.posts_pass, fresh_append, Nat.add_zero, ih solid]
    rw [split] at before ⊢
    rw [filter_append, filter_append, filter_marked_self, nil_append, filter_marked before,
      fresh_eq_filter (pairwise_append.mp before).1]
  | @last r rest l _ ih =>
    obtain ⟨solid_r, solid_rest⟩ := forall_mem_cons.mp solid
    have before := entries_before solid posted
    rw [entries] at before ⊢
    rw [places_append, Round.places_last solid_r.freq_pos, fresh_append, ih solid_rest, filter_append,
      ← filter_marked before, fresh_eq_filter (pairwise_append.mp before).1]
    rfl

/-- However often the beginnings of the rounds are gone over, each place is beyond everything before it
exactly once. -/
theorem fresh_eq (repeats : Repeats rounds l) (solid : ∀ r ∈ rounds, r.Solid slot)
    {posted mark : Nat} (low : mark ≤ posted * slot) :
    fresh slot mark (places posted l) = entries posted rounds := by
  rw [fresh_filter repeats solid, filter_eq_self]
  intro p mem
  obtain ⟨hp, -, pos⟩ := entries_message solid mem
  have := Nat.mul_le_mul_right slot hp
  rw [decide_eq_true_eq, Place.stop]
  omega

end Repeats

end Rounds
