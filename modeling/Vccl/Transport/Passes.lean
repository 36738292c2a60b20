import Vccl.Transport.Model

/-! The loops over the channels of one rank: what the set-up loop packs, and what the passes that connect do with the
records they find. -/
namespace Vccl.Transport

open Packed List

variable {R : Type}

def channels (mask : BitVec 64) : List Nat := positions mask.getLsbD MAXCHANNELS

theorem setupChannels_eq (mask : BitVec 64) (record : Nat → R) (base : Nat) (buf : Nat → R) :
    setupChannels mask record base buf =
      (write buf base ((channels mask).map record), (channels mask).length) := by
  unfold setupChannels channels
  generalize MAXCHANNELS = n
  induction n with
  | zero =>
    rw [show positions mask.getLsbD 0 = [] from rfl, map_nil, write_nil]
    rfl
  | succ n ih =>
    rw [range_succ, foldl_append, ih, positions_succ, foldl_cons]
    by_cases set : mask.getLsbD n
    · have snoc := write_snoc buf base ((positions mask.getLsbD n).map record) (record n)
      rw [length_map] at snoc
      simp [set, snoc]
    · simp [set]

def successes (calls : List (Call R)) (dir : Dir) (peer c : Nat) : Nat :=
  calls.countP fun call => call.dir = dir ∧ call.peer = peer ∧ call.channel = c ∧ call.success

structure Grown (Good : Call R → Prop) (before after : Rank R × Bool) : Prop where
  frame : after.1 = { before.1 with connected := after.1.connected, calls := after.1.calls }
  calls : ∃ new, after.1.calls = before.1.calls ++ new ∧ ∀ call ∈ new, Good call
  monotone : ∀ d q c, before.1.connected d q c = true → after.1.connected d q c = true
  tally : ∀ d q c, successes after.1.calls d q c + (before.1.connected d q c).toNat =
    successes before.1.calls d q c + (after.1.connected d q c).toNat
  flag : after.2 = true → before.2 = true

section

variable {Good : Call R → Prop} {x y z : Rank R × Bool}

theorem Grown.refl (x : Rank R × Bool) : Grown Good x x :=
  ⟨rfl, ⟨[], by simp⟩, fun _ _ _ h => h, fun _ _ _ => rfl, fun h => h⟩

theorem Grown.trans (first : Grown Good x y) (second : Grown Good y z) : Grown Good x z := by
  obtain ⟨new, hc, good⟩ := first.calls
  obtain ⟨new', hc', good'⟩ := second.calls
  refine ⟨?_, ⟨new ++ new', ?_, ?_⟩, ?_, ?_, fun all => first.flag (second.flag all)⟩
  · rw [second.frame, first.frame]
  · rw [hc', hc, append_assoc]
  · exact forall_mem_append.mpr ⟨good, good'⟩
  · exact fun d q c made => second.monotone d q c (first.monotone d q c made)
  · intro d q c
    have one := first.tally d q c
    have two := second.tally d q c
    omega

theorem Grown.data (h : Grown Good x y) : y.1.data = x.1.data := by
  rw [h.frame]

theorem Grown.sendData (h : Grown Good x y) : y.1.sendData = x.1.sendData := by
  rw [h.frame]

theorem Grown.recvData (h : Grown Good x y) : y.1.recvData = x.1.recvData := by
  rw [h.frame]

theorem Grown.done (h : Grown Good x y) : y.1.done = x.1.done := by
  rw [h.frame]

theorem connectOne_grown (results : Dir → Nat → Nat → Bool) {dir : Dir} {peer c : Nat} {record : R}
    (good : ∀ success, Good ⟨dir, peer, c, record, success⟩) :
    Grown Good x (connectOne results dir peer c record x) := by
  obtain ⟨st, _⟩ := x
  simp only [connectOne]
  by_cases made : st.connected dir peer c
  · rw [if_pos made]
    exact Grown.refl _
  rw [if_neg made]
  refine ⟨rfl, ⟨[_], rfl, ?_⟩, ?_, ?_, ?_⟩
  · intro call mem
    rw [mem_singleton.mp mem]
    exact good _
  · intro d q c' ha
    by_cases same : d = dir ∧ q = peer ∧ c' = c
    · obtain ⟨rfl, rfl, rfl⟩ := same
      exact absurd ha made
    · dsimp only
      rw [if_neg same]
      exact ha
  · intro d q c'
    by_cases same : d = dir ∧ q = peer ∧ c' = c
    · obtain ⟨rfl, rfl, rfl⟩ := same
      cases ho : results d q c' <;> simp [successes, made]
    have other : ¬ (dir = d ∧ peer = q ∧ c = c' ∧ results dir peer c = true) := by
      rintro ⟨rfl, rfl, rfl, -⟩
      exact same ⟨rfl, rfl, rfl⟩
    dsimp only
    rw [if_neg same]
    simp [successes, other]
  · intro hc
    exact (Bool.and_eq_true_iff.mp hc).1

theorem connectOne_made {results : Dir → Nat → Nat → Bool} {dir : Dir} {peer c : Nat} {record : R}
    (all : (connectOne results dir peer c record x).2 = true) :
    (connectOne results dir peer c record x).1.connected dir peer c = true := by
  obtain ⟨st, _⟩ := x
  simp only [connectOne] at all ⊢
  by_cases made : st.connected dir peer c
  · rw [if_pos made]
    exact made
  · rw [if_neg made] at all ⊢
    dsimp only
    rw [if_pos ⟨rfl, rfl, rfl⟩]
    exact (Bool.and_eq_true_iff.mp all).2

end

variable (job : Job R) (rank : Nat)

/-- The record that belongs to a connection: the one of the peer for the same channel and the other direction. -/
def Good (call : Call R) : Prop := call.record = job.setup call.peer call.dir.opposite rank call.channel

def Rank.ptr (st : Rank R) : Dir → Nat → Nat
  | .send => st.sendData
  | .recv => st.recvData

def Filled (st : Rank R) (j p : Nat) : Prop :=
  ∀ dir c, c < MAXCHANNELS → (job.mask rank dir (job.peer rank j dir)).getLsbD c = true →
    st.data p (st.ptr dir p + (positions (job.mask rank dir (job.peer rank j dir)).getLsbD c).length) =
      job.setup (job.peer rank j dir) dir.opposite rank c

def half (results : Dir → Nat → Nat → Bool) (j p c : Nat) (dir : Dir) (acc : Rank R × Bool) (offset : Nat) :
    (Rank R × Bool) × Nat :=
  if (job.mask rank dir (job.peer rank j dir)).getLsbD c then
    (connectOne results dir (job.peer rank j dir) c (acc.1.data p (acc.1.ptr dir p + offset)) acc, offset + 1)
  else (acc, offset)

section

variable {job rank} {j p c : Nat} {x y : Rank R × Bool} {Good' : Call R → Prop}

theorem Grown.filled (h : Grown Good' x y) (filled : Filled job rank x.1 j p) :
    Filled job rank y.1 j p := by
  intro dir c hs set
  have here := filled dir c hs set
  cases dir with
  | send => rw [h.data, Rank.ptr, h.sendData]; exact here
  | recv => rw [h.data, Rank.ptr, h.recvData]; exact here

theorem half_grown (results : Dir → Nat → Nat → Bool) (dir : Dir) (filled : Filled job rank x.1 j p) (small : c < MAXCHANNELS) :
    let mask := job.mask rank dir (job.peer rank j dir)
    let out := half job rank results j p c dir x (positions mask.getLsbD c).length
    Grown (Good job rank) x out.1 ∧ out.2 = (positions mask.getLsbD (c + 1)).length ∧
      (out.1.2 = true → mask.getLsbD c = true → out.1.1.connected dir (job.peer rank j dir) c = true) := by
  dsimp only
  unfold half
  rw [positions_succ]
  by_cases set : (job.mask rank dir (job.peer rank j dir)).getLsbD c = true
  · rw [if_pos set, if_pos set, length_append]
    refine ⟨connectOne_grown results fun _ => ?_, rfl, fun all _ => connectOne_made all⟩
    exact filled dir c small set
  · rw [if_neg set, if_neg set, append_nil]
    exact ⟨Grown.refl x, rfl, fun _ ht => absurd ht set⟩

theorem connectChannels_grown (results : Dir → Nat → Nat → Bool) (filled : Filled job rank x.1 j p) {n : Nat} (inside : n ≤ MAXCHANNELS) :
    let out := (range n).foldl (connectChannel job rank results j p) (x, 0, 0)
    Grown (Good job rank) x out.1 ∧
      out.2.1 = (positions (job.mask rank .send (job.peer rank j .send)).getLsbD n).length ∧
      out.2.2 = (positions (job.mask rank .recv (job.peer rank j .recv)).getLsbD n).length ∧
      (out.1.2 = true → ∀ dir, ∀ c < n, (job.mask rank dir (job.peer rank j dir)).getLsbD c = true →
        out.1.1.connected dir (job.peer rank j dir) c = true) := by
  induction n with
  | zero => exact ⟨Grown.refl x, rfl, rfl, fun _ _ c none => absurd none (Nat.not_lt_zero c)⟩
  | succ n ih =>
    obtain ⟨hg, hs, hr, made⟩ := ih (by omega)
    rw [range_succ, foldl_append, foldl_cons]
    generalize (range n).foldl (connectChannel job rank results j p) (x, 0, 0) = out
      at hg hs hr made
    obtain ⟨acc, so, ro⟩ := out
    have split : connectChannel job rank results j p (acc, so, ro) n =
        let first := half job rank results j p n .send acc so
        let second := half job rank results j p n .recv first.1 ro
        (second.1, first.2, second.2) := by
      rfl
    have first := half_grown results .send (hg.filled filled) inside
    rw [split]
    subst hs hr
    dsimp only at first ⊢
    generalize half job rank results j p n .send acc _ = one at first ⊢
    have second := half_grown results .recv ((hg.trans first.1).filled filled) inside
    dsimp only at second
    refine ⟨(hg.trans first.1).trans second.1, first.2.1, second.2.1, ?_⟩
    intro all dir c hb set
    by_cases last : c = n
    · subst last
      cases dir with
      | send => exact second.1.monotone _ _ _ (first.2.2 (second.1.flag all) set)
      | recv => exact second.2.2 all set
    · have before := first.1.flag (second.1.flag all)
      exact second.1.monotone _ _ _ (first.1.monotone _ _ _ (made before dir c (by omega) set))

def Made (job : Job R) (rank : Nat) (st : Rank R) (j : Nat) : Prop :=
  ∀ dir, ∀ c < MAXCHANNELS, (job.mask rank dir (job.peer rank j dir)).getLsbD c = true →
    st.connected dir (job.peer rank j dir) c = true

theorem Grown.made (h : Grown Good' x y) (made : Made job rank x.1 j) :
    Made job rank y.1 j :=
  fun dir c hs set => h.monotone _ _ _ (made dir c hs set)

theorem connectRounds_grown (results : Dir → Nat → Nat → Bool) (js : List Nat)
    (filled : ∀ j ∈ js, Filled job rank x.1 j (j - (x.1.done + 1))) :
    let out := js.foldl (connectRound job rank results) x
    Grown (Good job rank) x out ∧ (out.2 = true → ∀ j ∈ js, Made job rank out.1 j) := by
  induction js generalizing x with
  | nil => exact ⟨Grown.refl x, fun _ j none => by cases none⟩
  | cons j rest ih =>
    have round := connectChannels_grown results (filled j mem_cons_self) (Nat.le_refl MAXCHANNELS)
    obtain ⟨hg, -, -, made⟩ := round
    have later : ∀ k ∈ rest, Filled job rank (connectRound job rank results x j).1 k
        (k - ((connectRound job rank results x j).1.done + 1)) := by
      intro k mem
      rw [show (connectRound job rank results x j).1.done = x.1.done from hg.done]
      exact hg.filled (filled k (mem_cons_of_mem _ mem))
    obtain ⟨hg', made'⟩ := ih later
    rw [foldl_cons]
    refine ⟨Grown.trans hg hg', fun all k mem => ?_⟩
    rcases mem_cons.mp mem with rfl | old
    · exact hg'.made (made (hg'.flag all))
    · exact made' all k old

theorem connectPass_cases (results : Dir → Nat → Nat → Bool) (st : Rank R)
    (filled : ∀ j, st.done < j → j ≤ st.i → Filled job rank st j (j - (st.done + 1))) :
    ∃ y, Grown (Good job rank) (st, true) y ∧
      ((connectPass job rank results st = advance job { y.1 with done := y.1.i } ∧
          ∀ j, st.done < j → j ≤ st.i → Made job rank y.1 j) ∨
        connectPass job rank results st = y.1) := by
  have inside : ∀ j, j ∈ range' (st.done + 1) (st.i - st.done) ↔ st.done < j ∧ j ≤ st.i := by
    intro j
    rw [mem_range'_1]
    omega
  obtain ⟨hg, made⟩ := connectRounds_grown (x := (st, true)) results (range' (st.done + 1) (st.i - st.done))
    fun j mem => filled j ((inside j).mp mem).1 ((inside j).mp mem).2
  refine ⟨_, hg, ?_⟩
  unfold connectPass
  dsimp only
  split
  next all => exact .inl ⟨rfl, fun j low high => made all j ((inside j).mpr ⟨low, high⟩)⟩
  · exact .inr rfl

/-! A pass in which every call succeeds is the last one of its batch. -/

theorem connectOne_flag (dir : Dir) (peer c : Nat) (record : R) (x : Rank R × Bool) :
    (connectOne (fun _ _ _ => true) dir peer c record x).2 = x.2 := by
  obtain ⟨_, all⟩ := x
  simp only [connectOne]
  split
  · rfl
  · exact Bool.and_true all

theorem connectRound_flag (x : Rank R × Bool) (j : Nat) :
    (connectRound job rank (fun _ _ _ => true) x j).2 = x.2 := by
  unfold connectRound
  generalize MAXCHANNELS = n
  induction n with
  | zero => rfl
  | succ n ih =>
    rw [range_succ, foldl_append, foldl_cons, foldl_nil, ← ih]
    simp only [connectChannel]
    split <;> split <;> simp only [connectOne_flag]

theorem connectPass_advances (st : Rank R) :
    ∃ y : Rank R, connectPass job rank (fun _ _ _ => true) st = advance job { y with done := y.i } := by
  have flag : ∀ (js : List Nat) (x : Rank R × Bool),
      (js.foldl (connectRound job rank fun _ _ _ => true) x).2 = x.2 := by
    intro js
    induction js with
    | nil => exact fun _ => rfl
    | cons j rest ih =>
      intro x
      rw [foldl_cons, ih, connectRound_flag]
  refine ⟨((range' (st.done + 1) (st.i - st.done)).foldl (connectRound job rank fun _ _ _ => true) (st, true)).1, ?_⟩
  simp [connectPass, flag]

end

end Vccl.Transport
