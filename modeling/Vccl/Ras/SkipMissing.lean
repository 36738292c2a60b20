import Mathlib

/-! The ids in a RAS request: `rasCollCommsInit` searches it for each local communicator and adds those it does not find. -/
namespace Vccl.Ras

open List

structure RasCommId where
  commHash : Nat
  hostHash : Nat
  pidHash : Nat
  deriving DecidableEq

/-- The order of `rasCommIdCompare`. -/
instance : LinearOrder RasCommId :=
  .lift' (fun id => toLex (id.commHash, toLex (id.hostHash, id.pidHash))) fun a b same => by cases a; cases b; simp_all

def HashUpTo (a b : RasCommId) : Prop := a.commHash ≤ b.commHash

instance : DecidableRel HashUpTo := fun _ _ => Nat.decLe ..

instance : Std.Total HashUpTo := ⟨fun _ _ => Nat.le_total ..⟩

instance : IsTrans RasCommId HashUpTo := ⟨fun _ _ _ => Nat.le_trans⟩

/-- The ids of the communicators of a process, one for each of its ranks; within a process the hash tells them apart. -/
structure NcclComms where
  comms : List RasCommId
  unique : ∀ a ∈ comms, ∀ b ∈ comms, a.commHash = b.commHash → a = b

/-- The ids at which the loops encounter a new communicator, after the sort. -/
def NcclComms.ids (p : NcclComms) : List RasCommId :=
  (p.comms.insertionSort HashUpTo).destutter fun last id => id.commHash ≠ last.commHash

section Init

variable (bsearch : RasCommId → List RasCommId → Bool)

/-- The first loop: the ids it adds to `skipMissingRanksComms`. -/
def addLoop : List RasCommId → List RasCommId → List RasCommId
  | [], _ => []
  | id :: rest, skip => if bsearch id skip then addLoop rest skip else id :: addLoop rest (skip ++ [id])

/-- The second loop, with the added ids from `firstNewSkipMissingIdx` on: the communicators in the data, and whether
their missing ranks are filled in. -/
def fillLoop : List RasCommId → List RasCommId → List (RasCommId × Bool)
  | [], _ => []
  | id :: rest, [] => (id, false) :: fillLoop rest []
  | id :: rest, new :: more =>
    if new = id then (id, true) :: fillLoop rest more else (id, false) :: fillLoop rest (new :: more)

/-- With the data and the request that is forwarded. -/
def rasCollCommsInit (skip : List RasCommId) (p : NcclComms) : List (RasCommId × Bool) × List RasCommId :=
  let added := addLoop bsearch p.ids skip
  (fillLoop p.ids added, if added = [] then skip else (skip ++ added).insertionSort (· ≤ ·))

/-- The array a search for `key` may be given: first what is below, then what is equal, then what is above. -/
def Searchable (key : RasCommId) (l : List RasCommId) : Prop :=
  l.Pairwise fun x y => (key ≤ x → key ≤ y) ∧ (key < x → key < y)

/-- What the C standard says of `bsearch`. -/
def Conforms : Prop := ∀ key l, Searchable key l → (bsearch key l = true ↔ key ∈ l)

/-- `skip` is the list of the incoming request. -/
structure Served (skip : List RasCommId) (p : NcclComms) : Prop where
  omitted : ∀ id ∈ p.comms, ((id, false) ∈ (rasCollCommsInit bsearch skip p).1 ↔ id ∈ skip) ∧
    ((id, true) ∈ (rasCollCommsInit bsearch skip p).1 ↔ id ∉ skip)
  listed : ∀ id, id ∈ (rasCollCommsInit bsearch skip p).2 ↔ id ∈ skip ∨ id ∈ p.comms
  sorted : (rasCollCommsInit bsearch skip p).2.Pairwise (· < ·)

end Init

variable {bsearch : RasCommId → List RasCommId → Bool} {skip : List RasCommId} {p : NcclComms}

theorem NcclComms.ids_eq (p : NcclComms) :
    (p.comms.insertionSort HashUpTo).Pairwise (· ≤ ·) ∧ p.ids = (p.comms.insertionSort HashUpTo).dedup := by
  have pairs : (p.comms.insertionSort HashUpTo).Pairwise (· ≤ ·) := by
    refine (pairwise_insertionSort ..).imp_of_mem fun {a b} ha hb le => ?_
    rcases lt_or_eq_of_le (show a.commHash ≤ b.commHash from le) with less | same
    · exact (show a < b from Prod.Lex.toLex_lt_toLex.mpr (.inl less)).le
    · exact (p.unique a (by simpa using ha) b (by simpa using hb) same).le
  have runs : p.ids.map id = ((p.comms.insertionSort HashUpTo).map id).destutter (· ≠ ·) := map_destutter fun a ha b hb =>
    not_congr ⟨fun same => (p.unique b (by simpa using hb) a (by simpa using ha) same).symm, fun same => (congrArg _ same).symm⟩
  rw [map_id, map_id, pairs.destutter_eq_dedup] at runs
  exact ⟨pairs, runs⟩

theorem NcclComms.mem_ids {id : RasCommId} : id ∈ p.ids ↔ id ∈ p.comms := by
  simp [p.ids_eq.2]

theorem NcclComms.ids_sorted (p : NcclComms) : p.ids.Pairwise (· < ·) := by
  obtain ⟨pairs, same⟩ := p.ids_eq
  rw [same]
  exact ((pairs.sublist (dedup_sublist _)).and (nodup_dedup _)).imp fun h => lt_of_le_of_ne h.1 h.2

theorem addLoop_sublist (ids skip : List RasCommId) : addLoop bsearch ids skip <+ ids := by
  fun_induction addLoop bsearch ids skip <;> simp_all

theorem addLoop_append (ids ids' skip : List RasCommId) :
    addLoop bsearch (ids ++ ids') skip =
      addLoop bsearch ids skip ++ addLoop bsearch ids' (skip ++ addLoop bsearch ids skip) := by
  fun_induction addLoop bsearch ids skip <;> simp_all [addLoop]

theorem fillLoop_eq (ids added : List RasCommId) (distinct : ids.Nodup) (sub : added <+ ids) :
    fillLoop ids added = ids.map fun id => (id, decide (id ∈ added)) := by
  fun_induction fillLoop ids added with
  | case1 => rfl
  | case2 id rest ih => simp [ih distinct.of_cons (nil_sublist _)]
  | case3 rest new more ih =>
    obtain ⟨fresh, distinct⟩ := nodup_cons.mp distinct
    simp only [map_cons, ih distinct (cons_sublist_cons.mp sub), mem_cons, true_or, decide_true, cons.injEq, true_and]
    refine map_congr_left fun id mem => ?_
    simp [show id ≠ new by rintro rfl; exact fresh mem]
  | case4 id rest new more other ih =>
    obtain ⟨fresh, distinct⟩ := nodup_cons.mp distinct
    have sub : new :: more <+ rest := (sublist_cons_iff.mp sub).resolve_right (by rintro ⟨_, ⟨⟩, -⟩; exact other rfl)
    simpa [ih distinct sub] using fun mem => fresh (sub.subset mem)

theorem filled_iff {id : RasCommId} (filled : Bool) (mem : id ∈ p.comms) :
    (id, filled) ∈ (rasCollCommsInit bsearch skip p).1 ↔ filled = decide (id ∈ addLoop bsearch p.ids skip) := by
  have distinct : p.ids.Nodup := p.ids_sorted.imp ne_of_lt
  simp only [rasCollCommsInit, fillLoop_eq _ _ distinct (addLoop_sublist ..), mem_map, Prod.mk.injEq, p.mem_ids]
  grind

theorem forwarded_perm (bsearch : RasCommId → List RasCommId → Bool) (p : NcclComms) (sorted : skip.Pairwise (· ≤ ·)) :
    (rasCollCommsInit bsearch skip p).2.Pairwise (· ≤ ·) ∧
      (rasCollCommsInit bsearch skip p).2 ~ skip ++ addLoop bsearch p.ids skip := by
  simp only [rasCollCommsInit]
  split
  next none => simpa [none] using sorted
  · exact ⟨pairwise_insertionSort .., perm_insertionSort ..⟩

theorem addLoop_eq (conforms : Conforms bsearch) (sorted : skip.Pairwise (· ≤ ·)) (rest new : List RasCommId)
    (order : (new ++ rest).Pairwise (· < ·)) (fresh : ∀ a ∈ new, a ∉ skip)
    (safe : ∀ a ∈ new ++ rest, ∀ b ∈ rest, a < b → a ∉ skip → ∀ x ∈ skip, x < b) :
    addLoop bsearch rest (skip ++ new) = rest.filter (· ∉ skip) := by
  induction rest generalizing new with
  | nil => rfl
  | cons b rest ih =>
    have below : ∀ a ∈ new, a < b := fun a ha => (pairwise_append.mp order).2.2 a ha b mem_cons_self
    have searchable : Searchable b (skip ++ new) := by
      refine pairwise_append.mpr ⟨sorted.imp fun le => ⟨(·.trans le), (·.trans_le le)⟩, ?_, ?_⟩
      · exact pairwise_of_forall_mem_list fun x hx y _ => by simp [below x hx, (below x hx).le]
      · intro x hx a ha
        have less := safe a (by simp [ha]) b mem_cons_self (below a ha) (fresh a ha) x hx
        simp [less, less.le]
    have found : bsearch b (skip ++ new) = true ↔ b ∈ skip := by
      rw [conforms b _ searchable, mem_append, or_iff_left fun hb => (below b hb).false]
    by_cases listed : b ∈ skip
    · have := ih new (order.sublist ((sublist_cons_self b rest).append_left new)) fresh fun a ha c hc =>
        safe a (by simp at ha ⊢; tauto) c (mem_cons_of_mem b hc)
      simpa [addLoop, found, listed] using this
    · have := ih (new ++ [b]) (by simpa using order) (by simpa [or_imp, forall_and, listed] using fresh) fun a ha c hc =>
        safe a (by simpa using ha) c (mem_cons_of_mem b hc)
      simpa [addLoop, found, listed] using this

theorem mem_addLoop_iff {before after : List RasCommId} {id : RasCommId} (distinct : (before ++ id :: after).Nodup) :
    id ∈ addLoop bsearch (before ++ id :: after) skip ↔
      bsearch id (skip ++ addLoop bsearch before skip) = false := by
  obtain ⟨-, later, apart⟩ := nodup_append.mp distinct
  rw [addLoop_append, mem_append, or_iff_right fun h => apart _ ((addLoop_sublist ..).subset h) _ mem_cons_self rfl]
  cases found : bsearch id (skip ++ addLoop bsearch before skip)
  · simp [addLoop, found]
  · simpa [addLoop, found] using fun h => (nodup_cons.mp later).1 ((addLoop_sublist ..).subset h)

/-- A search that answers wrongly where it may. -/
def worst (key : RasCommId) (l : List RasCommId) : Bool :=
  decide ((l.Pairwise fun x y => (key ≤ x → key ≤ y) ∧ (key < x → key < y)) ↔ key ∈ l)

theorem worst_conforms : Conforms worst := fun key l (searchable : l.Pairwise _) => by simp [worst, searchable]

theorem worst_answer {key : RasCommId} {l : List RasCommId} (unordered : ¬ Searchable key l) :
    worst key l = false ↔ key ∈ l := by
  simp [worst, show ¬ l.Pairwise _ from unordered]

theorem served_safe (served : Served worst skip p) :
    ∀ a ∈ p.comms, ∀ b ∈ p.comms, a < b → a ∉ skip → ∀ x ∈ skip, x < b := by
  intro a ha b hb less new x hx
  by_contra above
  have added {id : RasCommId} (mem : id ∈ p.comms) : id ∈ addLoop worst p.ids skip ↔ id ∉ skip := by
    simpa [filled_iff true mem] using (served.omitted id mem).2
  have addedA := (added ha).mpr new
  have addedB := added hb
  have order := p.ids_sorted
  -- the search for `b` comes after `a` was added
  obtain ⟨before, after, split⟩ := append_of_mem (p.mem_ids.mpr hb)
  rw [split] at addedA addedB order
  have distinct := order.imp ne_of_lt
  have early : a ∈ addLoop worst before skip := by
    rw [addLoop_append, mem_append] at addedA
    refine addedA.resolve_right fun late => ?_
    rcases mem_cons.mp ((addLoop_sublist ..).subset late) with same | late
    · exact less.ne same
    · exact less.asymm (rel_of_pairwise_cons (pairwise_append.mp order).2.1 late)
  have absent : b ∉ addLoop worst before skip := fun h =>
    (nodup_append.mp distinct).2.2 _ ((addLoop_sublist ..).subset h) _ mem_cons_self rfl
  rw [mem_addLoop_iff distinct, worst_answer, mem_append, or_iff_left absent] at addedB
  · exact iff_not_self addedB
  · intro h
    exact less.not_ge (((pairwise_append.mp h).2.2 x hx a early).1 (not_lt.mp above))

/-- The ids added are at the end of the request when it is searched for the next one: it is in order as long as nothing
was added or all that was in it is below. -/
theorem request_served_iff (p : NcclComms) (skip : List RasCommId) (sorted : skip.Pairwise (· ≤ ·)) :
    (∀ bsearch, Conforms bsearch → Served bsearch skip p) ↔
      skip.Nodup ∧ ∀ a ∈ p.comms, ∀ b ∈ p.comms, a < b → a ∉ skip → ∀ x ∈ skip, x < b := by
  constructor
  · intro served
    have served := served worst worst_conforms
    have nodup := (forwarded_perm worst p sorted).2.nodup_iff.mp (served.sorted.imp ne_of_lt)
    exact ⟨nodup.of_append_left, served_safe served⟩
  rintro ⟨nodup, safe⟩ bsearch conforms
  have added : addLoop bsearch p.ids skip = p.ids.filter (· ∉ skip) := by
    have := addLoop_eq conforms sorted p.ids [] p.ids_sorted (by simp) fun a ha b hb =>
      safe a (p.mem_ids.mp ha) b (p.mem_ids.mp hb)
    simpa using this
  obtain ⟨ordered, perm⟩ := forwarded_perm bsearch p sorted
  rw [added] at perm
  refine ⟨?_, ?_, ?_⟩
  · intro id mem
    simp [filled_iff _ mem, added, p.mem_ids, mem]
  · intro id
    rw [perm.mem_iff, mem_append, mem_filter, p.mem_ids]
    by_cases listed : id ∈ skip <;> simp [listed]
  · have apart : (skip ++ p.ids.filter (· ∉ skip)).Nodup := by
      refine nodup_append.mpr ⟨nodup, (p.ids_sorted.imp ne_of_lt).filter _, ?_⟩
      rintro x hx y hy rfl
      simp [hx] at hy
    exact (ordered.and (perm.nodup_iff.mpr apart)).imp fun h => lt_of_le_of_ne h.1 h.2

def pair : NcclComms := ⟨[⟨5, 0, 0⟩, ⟨1, 0, 0⟩], by decide⟩

theorem lower_listed_served : Served worst [⟨1, 0, 0⟩] pair :=
  (request_served_iff pair [⟨1, 0, 0⟩] (by simp)).mpr (by decide +kernel) worst worst_conforms

/-- The higher id is in the request; the lower one is added behind it, and the search misses it. -/
theorem listed_comm_added : Conforms worst ∧ ¬ Served worst [⟨5, 0, 0⟩] pair :=
  ⟨worst_conforms, fun served => absurd served.sorted (by decide +kernel)⟩

end Vccl.Ras
