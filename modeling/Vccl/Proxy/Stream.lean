import Vccl.Proxy.Upload

/-! What a run keeps: the ops of a rank for a thread are one stream, cut nowhere between two ops of one
append pointer and opCount while args are in progress. -/
namespace Vccl.Proxy

open List
open Grouping (Grouped KeysApart)
open Function (update update_apply forall_update_iff)

def Args.Heads (args : Args) (e : Entry) : Prop :=
  args.sliceSteps = e.op.sliceSteps ∧ args.protocol = e.op.protocol ∧ args.forRecv = e.op.forRecv

structure Args.Holds (args : Args) (ptr : AppendPtr) (done : List Entry) : Prop where
  sub : args.subs.Sublist done
  some' : args.subs ≠ []
  key : ∀ e ∈ args.subs, e.key = (ptr, args.opCount)
  header : ∀ e ∈ args.subs, args.Heads e

structure Collected (done : List Entry) (all : AppendPtr → List Args) : Prop where
  holds : ∀ ptr, ∀ args ∈ all ptr, args.Holds ptr done
  once : ∀ ptr, ((all ptr).map Args.opCount).Nodup
  taken : ∀ e ∈ done, ∃ args ∈ all e.ptr, e ∈ args.subs

structure Fit (ops : List Entry) : Prop where
  grouped : Grouped Entry.key (fun e => e.op.opCount) ops
  joins : ops.Pairwise Entry.Joins
  few : ∀ k, ops.countP (fun e => decide (e.key = k)) ≤ maxSubs

variable {xs ys : List Entry}

theorem Fit.sublist (h : Fit ys) (sub : xs.Sublist ys) : Fit xs :=
  ⟨h.grouped.sublist sub, h.joins.sublist sub, fun k => le_trans (sub.countP_le) (h.few k)⟩

theorem Fit.append (left : Fit xs) (right : Fit ys) (apart : KeysApart Entry.key xs ys) : Fit (xs ++ ys) := by
  refine ⟨left.grouped.append right.grouped apart, ?_, ?_⟩
  · refine pairwise_append.mpr ⟨left.joins, right.joins, ?_⟩
    intro x mx y my key
    exact absurd key (apart x mx y my)
  intro k
  rw [countP_append]
  by_cases ht : ∃ x ∈ xs, x.key = k
  · obtain ⟨x, mx, same⟩ := ht
    have none' : ys.countP (fun e => decide (e.key = k)) = 0 := by
      rw [countP_eq_zero]
      intro y my key
      exact apart x mx y my (same.trans (of_decide_eq_true key).symm)
    have := left.few k
    omega
  · have none' : xs.countP (fun e => decide (e.key = k)) = 0 := by
      rw [countP_eq_zero]
      intro x mx key
      exact ht ⟨x, mx, of_decide_eq_true key⟩
    have := right.few k
    omega

section

variable {done ahead : List Entry} {all : AppendPtr → List Args} {e : Entry} {args : Args}
  {ptr : AppendPtr}

theorem Args.Holds.mono (h : args.Holds ptr done) (e : Entry) : args.Holds ptr (done ++ [e]) :=
  ⟨h.sub.trans (sublist_append_left _ _), h.some', h.key, h.header⟩

theorem newArgs_holds (e : Entry) (done : List Entry) : (newArgs e).Holds e.ptr (done ++ [e]) := by
  have only {f : Entry} (mem : f ∈ (newArgs e).subs) : f = e := mem_singleton.mp mem
  refine ⟨sublist_append_right _ _, by simp [newArgs], ?_, ?_⟩
  · intro f mem
    rw [only mem]
    rfl
  · intro f mem
    rw [only mem]
    exact ⟨rfl, rfl, rfl⟩

theorem Args.Holds.join (h : args.Holds e.ptr done) (count : args.opCount = e.op.opCount) (header : args.Heads e) :
    ({ args with subs := args.subs ++ [e] } : Args).Holds e.ptr (done ++ [e]) := by
  refine ⟨h.sub.append (Sublist.refl [e]), by simp, ?_, ?_⟩
  · refine forall_mem_append.mpr ⟨h.key, ?_⟩
    intro f new
    rw [mem_singleton.mp new, Entry.key, ← count]
  · exact forall_mem_append.mpr ⟨h.header, forall_mem_singleton.mpr header⟩

theorem Collected.set (h : Collected done all) {new : List Args}
    (holds : ∀ args ∈ new, args.Holds e.ptr (done ++ [e])) (once : (new.map Args.opCount).Nodup)
    (kept : ∀ args ∈ all e.ptr, ∃ args' ∈ new, args.subs ⊆ args'.subs)
    (added : ∃ args ∈ new, e ∈ args.subs) : Collected (done ++ [e]) (update all e.ptr new) := by
  refine ⟨?_, ?_, ?_⟩
  · exact (forall_update_iff all fun ptr l => ∀ args ∈ l, args.Holds ptr (done ++ [e])).mpr
      ⟨holds, fun ptr _ args mem => (h.holds ptr args mem).mono e⟩
  · exact (forall_update_iff all fun _ l => (l.map Args.opCount).Nodup).mpr ⟨once, fun ptr _ => h.once ptr⟩
  · intro f mem
    rw [update_apply]
    rcases mem_append.mp mem with old | last
    · obtain ⟨args, ht, hi⟩ := h.taken f old
      split
      next here =>
        obtain ⟨args', ht', subs⟩ := kept args (here ▸ ht)
        exact ⟨args', ht', subs hi⟩
      · exact ⟨args, ht, hi⟩
    · rw [mem_singleton.mp last, if_pos rfl]
      exact added

theorem Collected.mem_done (h : Collected done all) (mem : args ∈ all ptr) :
    ∃ x ∈ done, x.key = (ptr, args.opCount) := by
  have holds := h.holds ptr args mem
  obtain ⟨x, _, same⟩ := exists_cons_of_ne_nil holds.some'
  have inside : x ∈ args.subs := by simp [same]
  exact ⟨x, holds.sub.subset inside, holds.key x inside⟩

theorem Collected.start (h : Collected done all) (new : ∀ x ∈ done, x.key ≠ e.key) :
    Collected (done ++ [e]) (update all e.ptr (all e.ptr ++ [newArgs e])) := by
  refine h.set ?_ ?_ (fun args mem => ⟨args, mem_append_left _ mem, fun _ => id⟩)
    ⟨newArgs e, by simp, by simp [newArgs]⟩
  · intro args mem
    rcases mem_append.mp mem with old | last
    · exact (h.holds e.ptr args old).mono e
    · rw [mem_singleton.mp last]
      exact newArgs_holds e done
  · rw [map_append]
    refine nodup_append.mpr ⟨h.once _, by simp, ?_⟩
    intro k old k' last same
    obtain ⟨args, ht, rfl⟩ := mem_map.mp old
    simp only [map_cons, map_nil, mem_singleton] at last
    obtain ⟨x, hi, key⟩ := h.mem_done ht
    refine new x hi (key.trans ?_)
    rw [same, last]
    rfl

theorem Collected.join (h : Collected done all) {front : List Args} (queue : all e.ptr = front ++ [args])
    (count : args.opCount = e.op.opCount) (header : args.Heads e) :
    Collected (done ++ [e]) (update all e.ptr (front ++ [{ args with subs := args.subs ++ [e] }])) := by
  have inFront {a : Args} (mem : a ∈ front) : a ∈ all e.ptr := by simp [queue, mem]
  have here : args ∈ all e.ptr := by simp [queue]
  refine h.set ?_ ?_ ?_ ⟨{ args with subs := args.subs ++ [e] }, by simp, by simp⟩
  · intro a mem
    rcases mem_append.mp mem with old | last
    · exact (h.holds e.ptr a (inFront old)).mono e
    · rw [mem_singleton.mp last]
      exact (h.holds e.ptr args here).join count header
  · have once := h.once e.ptr
    rw [queue] at once
    simpa using once
  · intro a mem
    rw [queue] at mem
    rcases mem_append.mp mem with old | last
    · exact ⟨a, mem_append_left _ old, fun _ => id⟩
    · rw [mem_singleton.mp last]
      exact ⟨_, mem_append_right _ (mem_singleton_self _), subset_append_left _ _⟩

/-- While a batch is appended: args of a key that comes again are the last of their pointer, and
ready. -/
structure Held (done : List Entry) (removed queues : AppendPtr → List Args) (ahead : List Entry) :
    Prop where
  collected : Collected done fun ptr => removed ptr ++ queues ptr
  fit : Fit (done ++ ahead)
  ready : ∀ y ∈ ahead, ∀ x ∈ done, x.key = y.key →
    ∃ args, (queues y.ptr).getLast? = some args ∧ args.opCount = y.op.opCount ∧ args.state = .ready

variable {removed queues : AppendPtr → List Args}

theorem append_update (removed queues : AppendPtr → List Args) (ptr : AppendPtr) (new : List Args) :
    (fun ptr' => removed ptr' ++ update queues ptr new ptr') =
      update (fun ptr' => removed ptr' ++ queues ptr') ptr (removed ptr ++ new) := by
  funext ptr'
  by_cases here : ptr' = ptr <;> simp [here]

def Takes (done : List Entry) (removed queues : AppendPtr → List Args) (e : Entry) (ahead : List Entry) : Prop :=
  (appendTo (queues e.ptr) e).2 = none ∧
    Held (done ++ [e]) removed (update queues e.ptr (appendTo (queues e.ptr) e).1) ahead

section

variable (h : Held done removed queues (e :: ahead))
include h

theorem Held.joins {x : Entry} (inside : x ∈ done)
    (key : x.key = e.key) : e.shared = true ∧ x.connection ≠ e.connection ∧
      x.op.sliceSteps = e.op.sliceSteps ∧ x.op.protocol = e.op.protocol ∧
      x.op.forRecv = e.op.forRecv :=
  (pairwise_append.mp h.fit.joins).2.2 x inside e (by simp) key

theorem Held.room (holds : args.Holds e.ptr done)
    (count : args.opCount = e.op.opCount) : args.subs.length < maxSubs := by
  have few := h.fit.few e.key
  rw [countP_append, countP_cons_of_pos (by simp)] at few
  have inDone : args.subs.countP (fun f => decide (f.key = e.key)) ≤
      done.countP fun f => decide (f.key = e.key) := holds.sub.countP_le
  have whole : args.subs.countP (fun f => decide (f.key = e.key)) = args.subs.length := by
    rw [countP_eq_length]
    intro f hi
    rw [holds.key f hi, count]
    exact decide_eq_true rfl
  omega

theorem Held.append_seen {x : Entry} (inside : x ∈ done) (key : x.key = e.key) :
    Takes done removed queues e ahead := by
  obtain ⟨args, last, hc, ready⟩ := h.ready e (by simp) x inside key
  have queue := (dropLast_append_getLast? args last).symm
  generalize (queues e.ptr).dropLast = front at queue
  have mem : args ∈ removed e.ptr ++ queues e.ptr := by simp [queue]
  have holds := h.collected.holds e.ptr args mem
  have header : args.Heads e := by
    obtain ⟨f, _, same⟩ := exists_cons_of_ne_nil holds.some'
    have inF : f ∈ args.subs := by simp [same]
    obtain ⟨hs, hp, hf⟩ := holds.header f inF
    have keyF : f.key = e.key := by rw [holds.key f inF, hc]; rfl
    obtain ⟨-, -, hs', hp', hf'⟩ := h.joins (holds.sub.subset inF) keyF
    exact ⟨hs.trans hs', hp.trans hp', hf.trans hf'⟩
  have room := h.room holds hc
  have joined : args.join e = ({ args with subs := args.subs ++ [e] }, none) := by
    unfold Args.join
    rw [if_neg (by omega), if_neg (by simp [header.1, header.2]), if_neg (by simp [ready])]
  have appended : appendTo (queues e.ptr) e =
      (front ++ [{ args with subs := args.subs ++ [e] }], none) := by
    have shared := (h.joins inside key).1
    simp [appendTo, queue, shared, hc, joined]
  rw [Takes, appended]
  refine ⟨rfl, ?_, by simpa using h.fit, ?_⟩
  · have all : removed e.ptr ++ queues e.ptr = (removed e.ptr ++ front) ++ [args] := by simp [queue]
    rw [append_update, ← append_assoc]
    exact h.collected.join all hc header
  intro y inY z inZ same
  have earlier : ∃ z' ∈ done, z'.key = y.key := by
    rcases mem_append.mp inZ with old | new
    · exact ⟨z, old, same⟩
    · rw [mem_singleton.mp new] at same
      exact ⟨x, inside, key.trans same⟩
  obtain ⟨z', inZ', same'⟩ := earlier
  obtain ⟨args', last', hc', ready'⟩ := h.ready y (by simp [inY]) z' inZ' same'
  rw [update_apply]
  split
  next here =>
    rw [here, last] at last'
    cases last'
    exact ⟨{ args with subs := args.subs ++ [e] }, by simp, hc', ready⟩
  · exact ⟨args', last', hc', ready'⟩

theorem Held.append_new (new : ∀ x ∈ done, x.key ≠ e.key) : Takes done removed queues e ahead := by
  have appended : appendTo (queues e.ptr) e = (queues e.ptr ++ [newArgs e], none) := by
    unfold appendTo
    cases last : (queues e.ptr).getLast? with
    | none => simp [getLast?_eq_none_iff.mp last]
    | some args =>
      have mem : args ∈ removed e.ptr ++ queues e.ptr :=
        mem_append_right _ (mem_of_getLast? last)
      simp only
      rw [if_neg]
      rintro ⟨-, count⟩
      obtain ⟨x, hi, key⟩ := h.collected.mem_done mem
      exact new x hi (key.trans (by rw [count]; rfl))
  rw [Takes, appended]
  refine ⟨rfl, ?_, by simpa using h.fit, ?_⟩
  · rw [append_update, ← append_assoc]
    exact h.collected.start new
  intro y inY x inX same
  have before (ha : e.key ≠ y.key) : x ∈ done := by
    rcases mem_append.mp inX with old | last
    · exact old
    · rw [mem_singleton.mp last] at same
      exact absurd same ha
  rw [update_apply]
  split
  next here =>
    by_cases ha : e.key = y.key
    · exact ⟨newArgs e, by simp, (Prod.mk.inj ha).2, rfl⟩
    -- Otherwise `e` would lie between two ops of another opCount of its pointer.
    have old := before ha
    have three : [x, e, y].Sublist (done ++ e :: ahead) :=
      (singleton_sublist.mpr old).append
        ((singleton_sublist.mpr inY).cons_cons e)
    have between := h.fit.grouped x e y three same
    refine absurd ?_ ha
    have count := (Prod.mk.inj same).2
    simp only [Entry.key, Prod.mk.injEq]
    exact ⟨here.symm, between.trans count⟩
  next he =>
    exact h.ready y (by simp [inY]) x (before fun key => he (Prod.mk.inj key).1.symm) same

theorem Held.append : Takes done removed queues e ahead := by
  by_cases seen : ∃ x ∈ done, x.key = e.key
  · obtain ⟨x, hi, key⟩ := seen
    exact h.append_seen hi key
  · exact h.append_new fun x hi key => seen ⟨x, hi, key⟩

end

end

def fromRank (q : Nat) (ops : List (Nat × Entry)) : List Entry :=
  (ops.filter fun x => x.1 = q).map Prod.snd

@[simp] theorem fromRank_nil (q : Nat) : fromRank q [] = [] := rfl

@[simp] theorem fromRank_append (q : Nat) (xs ys : List (Nat × Entry)) :
    fromRank q (xs ++ ys) = fromRank q xs ++ fromRank q ys := by
  simp [fromRank]

theorem fromRank_cons (q : Nat) (x : Nat × Entry) (rest : List (Nat × Entry)) :
    fromRank q (x :: rest) = if x.1 = q then x.2 :: fromRank q rest else fromRank q rest := by
  unfold fromRank
  by_cases here : x.1 = q <;> simp [here]

@[simp] theorem fromRank_map (q : Nat) (ops : List Entry) : fromRank q (ops.map (q, ·)) = ops := by
  simp [fromRank, filter_map, Function.comp_def]

theorem fromRank_map_of_ne {q q' : Nat} (other : q ≠ q') (ops : List Entry) :
    fromRank q' (ops.map (q, ·)) = [] := by
  simp [fromRank, other]

def Breaks (xs ys : List (Nat × Entry)) : Prop :=
  ∀ x y, xs.getLast? = some x → ys.head? = some y → x.1 ≠ y.1 ∨ x.2.op.opCount ≠ y.2.op.opCount

theorem breaks_nil_left (ys : List (Nat × Entry)) : Breaks [] ys := by
  intro x y last
  cases last

theorem breaks_nil_right (xs : List (Nat × Entry)) : Breaks xs [] := by
  intro x y _ first
  cases first

def Remembers (batchSize : Int) (before : List (Nat × Entry)) (lastOpCount : Nat) (lastPeer : Option Nat)
    (count : Nat) : Prop :=
  before = [] ∧ lastPeer = none ∧ lastOpCount = 0 ∨
    ∃ x, before.getLast? = some x ∧ lastPeer = some x.1 ∧ lastOpCount = x.2.op.opCount ∧
      (count : Int) ≠ batchSize + 1

theorem appendLoop_spec (batchSize : Int) (ops : List (Nat × Entry)) {before : List (Nat × Entry)}
    {lastOpCount : Nat} {lastPeer : Option Nat} {count : Nat} {t : Thread} {done after : Nat → List Entry}
    (remembers : Remembers batchSize before lastOpCount lastPeer count)
    (held : ∀ q, Held (done q) (t.removed q) (t.queues q) (fromRank q ops ++ after q)) :
    ∃ taken left, ops = taken ++ left ∧ Breaks (before ++ taken) left ∧
      (appendLoop batchSize ops lastOpCount lastPeer count t).nextOps = left ∧
      (appendLoop batchSize ops lastOpCount lastPeer count t).pool = t.pool ∧
      (appendLoop batchSize ops lastOpCount lastPeer count t).errors = t.errors ∧
      (appendLoop batchSize ops lastOpCount lastPeer count t).removed = t.removed ∧
      ∀ q, Held (done q ++ fromRank q taken) (t.removed q)
        ((appendLoop batchSize ops lastOpCount lastPeer count t).queues q) (fromRank q left ++ after q) := by
  induction ops generalizing before lastOpCount lastPeer count t done with
  | nil => exact ⟨[], [], rfl, breaks_nil_right _, rfl, rfl, rfl, rfl, by simpa [appendLoop] using held⟩
  | cons x rest ih =>
    obtain ⟨q, e⟩ := x
    simp only [appendLoop]
    generalize counted : (if (lastOpCount ≠ 0 ∧ e.op.opCount ≠ lastOpCount) ∨
      (lastPeer ≠ none ∧ lastPeer ≠ some q) then count + 1 else count) = count'
    split
    · -- The batch is full; the count moved here, hence rank or opCount changed.
      rename_i full
      refine ⟨[], (q, e) :: rest, rfl, ?_, rfl, rfl, rfl, rfl, by simpa using held⟩
      rw [append_nil]
      rcases remembers with ⟨rfl, -⟩ | ⟨x, last, peer, ho, open'⟩
      · exact breaks_nil_left _
      intro x' y last' first
      rw [last] at last'
      cases last'
      cases first
      split at counted
      next change =>
        rcases change with ⟨-, count_ne⟩ | ⟨-, peer_ne⟩
        · exact .inr fun same => count_ne (same.symm.trans ho.symm)
        · exact .inl fun same => peer_ne (peer.trans (congrArg some same))
      · exact absurd (counted ▸ full) open'
    next room =>
      have here := held q
      rw [fromRank_cons, if_pos rfl] at here
      obtain ⟨fine, kept⟩ := here.append
      have queues : ∀ q' ptr, (proxyAppend t q e).1.queues q' ptr =
          if q' = q then update (t.queues q) e.ptr (appendTo (t.queues q e.ptr) e).1 ptr
          else t.queues q' ptr := by
        intro q' ptr
        simp only [proxyAppend, Thread.setQueue, update_apply]
        by_cases same : q' = q <;> simp [same]
      have result : proxyAppend t q e = ((proxyAppend t q e).1, none) := by
        rw [← fine]
        rfl
      rw [result]
      have held' : ∀ q', Held ((fun q' => if q' = q then done q ++ [e] else done q') q')
          ((proxyAppend t q e).1.removed q') ((proxyAppend t q e).1.queues q')
          (fromRank q' rest ++ after q') := by
        intro q'
        have other := held q'
        rw [funext (queues q')]
        by_cases same : q' = q
        · subst same
          simp only [if_true]
          exact kept
        · rw [fromRank_cons, if_neg (Ne.symm same)] at other
          simp only [if_neg same]
          exact other
      have remembers' : Remembers batchSize (before ++ [(q, e)]) e.op.opCount (some q) count' :=
        .inr ⟨(q, e), by simp, rfl, rfl, room⟩
      obtain ⟨taken, left, split, hb, next, pool, errors, removed, all⟩ := ih remembers' held'
      refine ⟨(q, e) :: taken, left, by rw [split]; rfl, ?_, next, pool, errors, removed, ?_⟩
      · simpa using hb
      intro q'
      have whole := all q'
      rw [show (proxyAppend t q e).1.removed = t.removed from rfl] at whole
      rw [fromRank_cons]
      by_cases same : q = q'
      · subst same
        simpa using whole
      · simp only [if_neg (Ne.symm same)] at whole
        rw [if_neg same]
        exact whole

/-- The ops of rank `q` for a thread: those in args, those among the posted `ops` of the thread and
those `waiting` at the rank. No key is on both sides of a place where the loop may stop. -/
structure Stream (q : Nat) (done : List Entry) (ops : List (Nat × Entry)) (waiting : List Entry) :
    Prop where
  fit : Fit (done ++ (fromRank q ops ++ waiting))
  cuts : ∀ xs ys, ops = xs ++ ys → Breaks xs ys →
    KeysApart Entry.key (done ++ fromRank q xs) (fromRank q ys ++ waiting)

section

variable {q : Nat} {done waiting posted : List Entry} {ops : List (Nat × Entry)}

theorem Stream.post_other (h : Stream q done ops waiting) {q' : Nat} (other : q' ≠ q)
    (posted : List Entry) : Stream q done (ops ++ posted.map (q', ·)) waiting := by
  have none' := fromRank_map_of_ne other posted
  refine ⟨by simpa [none'] using h.fit, ?_⟩
  intro xs ys split hb
  rcases append_eq_append_iff.mp split with ⟨more, rfl, rest⟩ | ⟨more, rfl, rfl⟩
  · -- The cut is in the new part: at the end of the old one nothing is shared.
    have end' := h.cuts ops [] (by simp) (breaks_nil_right _)
    rw [rest, fromRank_append] at none'
    obtain ⟨left, right⟩ := append_eq_nil_iff.mp none'
    simpa [left, right] using end'
  · have old := h.cuts xs more rfl (by
      intro x y last first
      exact hb x y last (by simp [first]))
    simpa [none'] using old

theorem Stream.post (h : Stream q done ops (posted ++ waiting))
    (change : ∀ x y, posted.getLast? = some x → waiting.head? = some y →
      x.op.opCount ≠ y.op.opCount) : Stream q done (ops ++ posted.map (q, ·)) waiting := by
  refine ⟨by simpa using h.fit, ?_⟩
  have end' := h.cuts ops [] (by simp) (breaks_nil_right _)
  simp only [fromRank_nil, nil_append] at end'
  -- A cut of what waits where the opCount changes.
  have cut (xs ys : List Entry) (split : posted ++ waiting = xs ++ ys)
      (hb : ∀ x y, xs.getLast? = some x → ys.head? = some y → x.op.opCount ≠ y.op.opCount) :
      KeysApart Entry.key (done ++ fromRank q ops ++ xs) ys := by
    rw [split] at end'
    refine Grouping.keysApart_append_left.mpr ⟨(Grouping.keysApart_append_right.mp end').2, ?_⟩
    cases last : xs.getLast? with
    | none =>
      rw [getLast?_eq_none_iff.mp last]
      exact Grouping.keysApart_nil_left ys
    | some x =>
      cases first : ys.head? with
      | none =>
        rw [head?_eq_none_iff.mp first]
        exact Grouping.keysApart_nil_right xs
      | some y =>
        have sub : (xs ++ ys).Sublist (done ++ (fromRank q ops ++ (xs ++ ys))) :=
          ((sublist_append_right _ _).trans (sublist_append_right _ _))
        have grouped := (split ▸ h.fit).grouped.sublist sub
        exact grouped.apart (fun _ _ key => (Prod.mk.inj key).2) last first (hb x y last first)
  intro xs ys split hb
  rcases append_eq_append_iff.mp split with ⟨more, rfl, rest⟩ | ⟨more, rfl, rfl⟩
  · obtain ⟨front, back, rfl, rfl, rfl⟩ := map_eq_append_iff.mp rest
    have here := cut front (back ++ waiting) (by simp) (by
      intro x y last first
      cases hf' : back.head? with
      | none =>
        rw [head?_eq_none_iff.mp hf'] at first change
        exact change x y (by simpa using last) (by simpa using first)
      | some z =>
        have same : z = y := by simpa [hf'] using first
        subst same
        have := hb (q, x) (q, z) (by simp [last]) (by simp [hf'])
        simpa using this)
    simpa using here
  · cases more with
    | nil =>
      have here := cut [] (posted ++ waiting) rfl (by simp)
      simpa using here
    | cons z zs =>
      have old := h.cuts xs (z :: zs) rfl (by
        intro x y last first
        exact hb x y last (by simpa using first))
      rw [fromRank_append, fromRank_map, append_assoc]
      exact old

theorem Stream.take {taken left : List (Nat × Entry)} (h : Stream q done (taken ++ left) waiting)
    (apart : KeysApart Entry.key (done ++ fromRank q taken) (fromRank q left ++ waiting)) :
    Stream q (done ++ fromRank q taken) left waiting := by
  refine ⟨by simpa using h.fit, ?_⟩
  intro xs ys rest hb
  cases last' : xs.getLast? with
  | none =>
    obtain rfl := getLast?_eq_none_iff.mp last'
    subst rest
    simpa using apart
  | some z =>
    have old := h.cuts (taken ++ xs) ys (by simp [rest]) (by
      intro x y last first
      have same : z = x := by simpa [last'] using last
      subst same
      exact hb z y last' first)
    simpa using old

end

end Vccl.Proxy
