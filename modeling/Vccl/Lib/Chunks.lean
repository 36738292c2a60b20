import Mathlib

/-! Cutting an interval into pieces of a fixed width, the loops that do so, and
copies made piece by piece. The widths of the two ends of a copy need not agree. -/
namespace Chunks

open List

def pieces (chunk total : Nat) : List (Nat × Nat) :=
  (range (total ⌈/⌉ chunk)).map (fun j => (j * chunk, min chunk (total - j * chunk)))

/-- `do { n = min(chunk, total - cursor); use(cursor, n); cursor += n; } while (cursor < total)`.
`none` says that the loop is still running when the fuel is used up. -/
def doWhile (chunk total : Nat) : Nat → Nat → Option (List (Nat × Nat))
  | 0, _ => none
  | fuel + 1, cursor =>
    let n := min chunk (total - cursor)
    if cursor + n < total then (doWhile chunk total fuel (cursor + n)).map ((cursor, n) :: ·)
    else some [(cursor, n)]

theorem slice_le {slice a b : Nat} (left : slice ∣ a) (right : slice ∣ b) (before : a < b) :
    a + slice ≤ b :=
  Nat.le_of_lt_add_of_dvd (Nat.add_lt_add_right before slice) (Nat.dvd_add_self_right.mpr left) right

theorem slice_pos {slice a b : Nat} (left : slice ∣ a) (right : slice ∣ b) (before : a < b) :
    0 < slice := by
  rcases Nat.eq_zero_or_pos slice with rfl | pos
  · omega
  · exact pos

theorem lt_ceilDiv (chunk total j : Nat) (pos : 0 < chunk) :
    j < total ⌈/⌉ chunk ↔ j * chunk < total := by
  rw [← not_le, ceilDiv_le_iff_le_mul pos, not_le, Nat.mul_comm]

theorem ceilDiv_eq_zero {chunk total : Nat} (pos : 0 < chunk) :
    total ⌈/⌉ chunk = 0 ↔ total = 0 := by
  have first := lt_ceilDiv chunk total 0 pos
  omega

theorem length_pieces (chunk total : Nat) : (pieces chunk total).length = total ⌈/⌉ chunk := by
  simp [pieces]

theorem doWhile_from (chunk total : Nat) (pos : 0 < chunk) (fuel k : Nat)
    (inside : k * chunk < total) (enough : total ⌈/⌉ chunk ≤ k + fuel) :
    doWhile chunk total fuel (k * chunk) =
      some ((range' k (total ⌈/⌉ chunk - k)).map
        (fun j => (j * chunk, min chunk (total - j * chunk)))) := by
  induction fuel generalizing k with
  | zero =>
    have counted := (lt_ceilDiv chunk total k pos).mpr inside
    omega
  | succ fuel ih =>
    have counted := (lt_ceilDiv chunk total k pos).mpr inside
    have next : (k + 1) * chunk = k * chunk + chunk := Nat.succ_mul k chunk
    have more := lt_ceilDiv chunk total (k + 1) pos
    by_cases ha : k * chunk + min chunk (total - k * chunk) < total
    · have whole : min chunk (total - k * chunk) = chunk := by omega
      have rest := ih (k + 1) (by omega) (by omega)
      have split : total ⌈/⌉ chunk - k = (total ⌈/⌉ chunk - (k + 1)) + 1 := by omega
      simp only [doWhile, if_pos ha]
      rw [whole, ← next, rest, split, range'_succ, map_cons, whole]
      rfl
    · have last : total ⌈/⌉ chunk - k = 1 := by omega
      simp only [doWhile, if_neg ha, last]
      rfl

theorem doWhile_pieces {chunk total fuel : Nat} (pos : 0 < chunk) (nonempty : 0 < total)
    (enough : total ⌈/⌉ chunk ≤ fuel) : doWhile chunk total fuel 0 = some (pieces chunk total) := by
  have walk := doWhile_from chunk total pos fuel 0 (by omega) (by omega)
  simpa [pieces, range_eq_range'] using walk

theorem doWhile_empty (chunk fuel : Nat) : doWhile chunk 0 (fuel + 1) 0 = some [(0, 0)] := by
  simp [doWhile]

theorem ceilDiv_le_self {chunk total : Nat} (pos : 0 < chunk) : total ⌈/⌉ chunk ≤ total := by
  rw [ceilDiv_le_iff_le_mul pos]
  exact Nat.le_mul_of_pos_left total pos

theorem flatMap_tiles (w n m : Nat) :
    (range m).flatMap
        (fun j => range' (min (j * w) n) (min ((j + 1) * w) n - min (j * w) n)) =
      range (min (m * w) n) := by
  induction m with
  | zero => simp
  | succ m ih =>
    have grows : min (m * w) n ≤ min ((m + 1) * w) n := by
      have : (m + 1) * w = m * w + w := Nat.succ_mul m w
      omega
    rw [range_succ, flatMap_append, ih, flatMap_singleton, range_eq_range',
      range_eq_range']
    have join := @range'_append 0 (min (m * w) n) (min ((m + 1) * w) n - min (m * w) n) 1
    simp only [one_mul, zero_add] at join
    rw [join, Nat.add_sub_cancel' grows]

/-- What arrives when the j-th send fills the j-th post, as pairs of target and source
offsets; a message is cut to the length posted for it. -/
def copied (sends posts : List (Nat × Nat)) : List (Nat × Nat) :=
  (sends.zip posts).flatMap
    (fun m => (range (min m.1.2 m.2.2)).map (fun k => (m.2.1 + k, m.1.1 + k)))

/-- Each of the first `n` bytes arrives once, at its own offset, and nothing else does. -/
def ExactCopy (n : Nat) (arrivals : List (Nat × Nat)) : Prop :=
  arrivals.Perm ((range n).map (fun i => (i, i)))

def posted (b total : Nat) (capacity : Nat → Nat) : List (Nat × Nat) :=
  (range (total ⌈/⌉ b)).map (fun j => (j * b, capacity j))

section Copies

variable {a b c n : Nat} {capacity : Nat → Nat}

theorem mem_zip_range {α β : Type} {f : Nat → α} {g : Nat → β} {p q : Nat} {m : α × β} :
    m ∈ ((range p).map f).zip ((range q).map g) ↔
      ∃ j, j < p ∧ j < q ∧ m = (f j, g j) := by
  rw [mem_iff_getElem]
  constructor
  · rintro ⟨j, hb, rfl⟩
    simp only [length_zip, length_map, length_range, lt_min_iff] at hb
    exact ⟨j, hb.1, hb.2, by simp⟩
  · rintro ⟨j, left, right, rfl⟩
    exact ⟨j, by simp [left, right], by simp⟩

theorem mem_copied {d s : Nat} : (d, s) ∈ copied (pieces a n) (posted b n capacity) ↔
    ∃ j k, j < n ⌈/⌉ a ∧ j < n ⌈/⌉ b ∧ k < min (min a (n - j * a)) (capacity j) ∧
      d = j * b + k ∧ s = j * a + k := by
  simp only [copied, mem_flatMap, mem_map, mem_range]
  constructor
  · rintro ⟨m, hm, k, hs, ha⟩
    obtain ⟨j, sent, ht, rfl⟩ := mem_zip_range.mp hm
    obtain ⟨rfl, rfl⟩ := Prod.mk.inj ha
    exact ⟨j, k, sent, ht, hs, rfl, rfl⟩
  · rintro ⟨j, k, sent, ht, hs, rfl, rfl⟩
    exact ⟨_, mem_zip_range.mpr ⟨j, sent, ht, rfl⟩, k, hs, rfl⟩

theorem copied_same_width (pos : 0 < a)
    (holds : ∀ j, j * a < n → min a (n - j * a) ≤ capacity j) :
    copied (pieces a n) (posted a n capacity) = (range n).map (fun i => (i, i)) := by
  have tiles := flatMap_tiles a n (n ⌈/⌉ a)
  have covers : n ≤ n ⌈/⌉ a * a := by
    by_contra hs
    exact absurd ((lt_ceilDiv _ _ _ pos).mpr (not_le.mp hs)) (lt_irrefl _)
  rw [Nat.min_eq_right covers] at tiles
  rw [← tiles, map_flatMap, copied, pieces, posted, zip_map', flatMap_map]
  apply flatMap_congr
  intro j mem
  have inside := (lt_ceilDiv _ _ _ pos).mp (mem_range.mp mem)
  have next : (j + 1) * a = j * a + a := Nat.succ_mul j a
  have start : min (j * a) n = j * a := Nat.min_eq_left inside.le
  have width : min ((j + 1) * a) n - j * a = min a (n - j * a) := by omega
  simp only [start, width, Nat.min_eq_left (holds j inside), range'_eq_map_range,
    map_map]
  rfl

theorem copied_single (nonempty : 0 < n) (onePiece : n ≤ a) (oneSlot : n ≤ b)
    (holds : n ≤ capacity 0) :
    copied (pieces a n) (posted b n capacity) = (range n).map (fun i => (i, i)) := by
  have count : ∀ w, n ≤ w → n ⌈/⌉ w = 1 := by
    intro w fits
    have first := lt_ceilDiv w n 0 (by omega)
    have second := lt_ceilDiv w n 1 (by omega)
    omega
  have cut : min (min a n) (capacity 0) = n := by omega
  simp [copied, pieces, posted, count a onePiece, count b oneSlot, cut]

end Copies

def copiedParts (a b w n parts : Nat) (capacity : Nat → Nat → Nat) : List (Nat × Nat) :=
  (range parts).flatMap (fun p =>
    let start := min (p * w) n
    let size := min ((p + 1) * w) n - start
    (copied (pieces a size) (posted b size (capacity p))).map (fun m => (start + m.1, start + m.2)))

section Parts

variable {a b c w n parts : Nat}

theorem copied_of_condition {size : Nat} {capacity : Nat → Nat} (sendWidth : 0 < a) (slot : c ≤ b)
    (atLeast : ∀ j, min c (size - j * b) ≤ capacity j)
    (condition : size ≤ min a c ∨ a = b ∧ c = b) :
    copied (pieces a size) (posted b size capacity) = (range size).map (fun i => (i, i)) := by
  rcases Nat.eq_zero_or_pos size with rfl | hn
  · simp [copied, pieces]
  · rcases condition with _ | ⟨rfl, rfl⟩
    · have first := atLeast 0
      exact copied_single hn (by omega) (by omega) (by omega)
    · exact copied_same_width sendWidth (fun j _ => atLeast j)

variable {capacity : Nat → Nat → Nat}

theorem exactCopy_parts_iff (sendWidth : 0 < a) (slot : c ≤ b) (partWidth : 0 < w)
    (nonempty : 0 < n) (cover : n ≤ parts * w) (atMost : ∀ p j, capacity p j ≤ c)
    (atLeast : ∀ p j, min c (min ((p + 1) * w) n - min (p * w) n - j * b) ≤ capacity p j) :
    ExactCopy n (copiedParts a b w n parts capacity) ↔ min n w ≤ min a c ∨ a = b ∧ c = b := by
  constructor
  · intro exact
    by_contra uneven
    have here : (min a c, min a c) ∈ (range n).map (fun i => (i, i)) :=
      mem_map.mpr ⟨min a c, mem_range.mpr (by omega), rfl⟩
    have arrival := exact.mem_iff.mpr here
    simp only [copiedParts, mem_flatMap, mem_map, Prod.mk.injEq] at arrival
    obtain ⟨p, _, ⟨d, s⟩, ha, _, _⟩ := arrival
    obtain ⟨j, k, _, _, _, rfl, rfl⟩ := mem_copied.mp ha
    have limit := atMost p j
    rcases Nat.eq_zero_or_pos p with rfl | hl
    · rcases Nat.eq_zero_or_pos j with rfl | hla
      · omega
      · have widths : a = b := Nat.eq_of_mul_eq_mul_left hla (by omega)
        have reach : b ≤ j * b := Nat.le_mul_of_pos_left b hla
        omega
    · have reach : w ≤ p * w := Nat.le_mul_of_pos_left w hl
      omega
  · intro hc
    have tiles := flatMap_tiles w n parts
    rw [Nat.min_eq_right cover] at tiles
    rw [ExactCopy, ← tiles, map_flatMap]
    apply Perm.of_eq
    apply flatMap_congr
    intro p _
    have next : (p + 1) * w = p * w + w := Nat.succ_mul p w
    have part : copied (pieces a (min ((p + 1) * w) n - min (p * w) n))
        (posted b _ (capacity p)) = _ :=
      copied_of_condition sendWidth slot (atLeast _) (by omega)
    simp only [part, map_map, range'_eq_map_range]
    rfl

end Parts

section Tally

variable {α β : Type} {p : α → Bool} {key : α → β} {x y : α} {a b c d : List α} {m n : Nat}

/-- A loop that updates the elements of a list has kept their keys, and `p` holds for `n` more of them. -/
structure Tally (p : α → Bool) (key : α → β) (before after : List α) (n : Nat) : Prop where
  keys : after.map key = before.map key
  count : after.countP p = before.countP p + n

theorem Tally.length (h : Tally p key a b n) : b.length = a.length := by
  simpa using congrArg List.length h.keys

theorem Tally.trans (first : Tally p key a b 0) (second : Tally p key b c n) : Tally p key a c n :=
  ⟨second.keys.trans first.keys, by rw [second.count, first.count, Nat.add_zero]⟩

theorem Tally.append (first : Tally p key a b m) (second : Tally p key c d n) : Tally p key (a ++ c) (b ++ d) (m + n) := by
  refine ⟨by rw [map_append, map_append, first.keys, second.keys], ?_⟩
  rw [countP_append, countP_append, first.count, second.count]
  omega

theorem Tally.behind (h : Tally p key a b n) (c : List α) : Tally p key (c ++ a) (c ++ b) n := by
  have both := Tally.append (a := c) (m := 0) ⟨rfl, rfl⟩ h
  rwa [Nat.zero_add] at both

theorem Tally.single (same : key y = key x) (counts : (p y).toNat = (p x).toNat + n) : Tally p key [x] [y] n := by
  refine ⟨by rw [map_singleton, map_singleton, same], ?_⟩
  cases hb : p x <;> cases ha : p y <;> simp_all

end Tally

end Chunks
