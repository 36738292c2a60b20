import Vccl.Proxy.Stream

/-! In every run all ops of one append pointer and opCount come to one args, whatever the cuts and
however the threads are scheduled. -/
namespace Vccl.Proxy

open List Transition

open Plan (KernelPlan)
open Grouping (KeysApart)
open Function (update update_apply forall_update_iff)

theorem lastChange_spec (lastOpCount : Nat) (chain : List Entry) (ops toSend : Nat) :
    lastChange lastOpCount chain ops toSend = toSend ∧ (∀ e ∈ chain, e.op.opCount = lastOpCount) ∨
      ∃ front e back, chain = front ++ e :: back ∧ e.op.opCount ≠ lastOpCount ∧
        (∀ f ∈ back, f.op.opCount = lastOpCount) ∧
        lastChange lastOpCount chain ops toSend = ops + front.length + 1 := by
  induction chain generalizing ops toSend with
  | nil => exact .inl ⟨rfl, by simp⟩
  | cons e rest ih =>
    simp only [lastChange]
    rcases ih (ops + 1) (if e.op.opCount ≠ lastOpCount then ops + 1 else toSend) with
      ⟨same, all⟩ | ⟨front, f, back, rfl, hd, all, same⟩
    · rw [same]
      by_cases hd : e.op.opCount = lastOpCount
      · left
        simpa [hd] using all
      · exact .inr ⟨[], e, rest, rfl, hd, all, by simp [hd]⟩
    · exact .inr ⟨e :: front, f, back, rfl, hd, all, by rw [length_cons]; omega⟩

theorem localOpAppend_spec (chain : List Entry) (e : Entry) :
    (localOpAppend chain e).1 ++ (localOpAppend chain e).2.1 = chain ++ [e] ∧
      ∀ rest x y, (localOpAppend chain e).1.getLast? = some x →
        ((localOpAppend chain e).2.1 ++ rest).head? = some y → x.op.opCount ≠ y.op.opCount := by
  unfold localOpAppend
  split
  · simp only
    split
    · exact ⟨rfl, by simp⟩
    rename_i some'
    refine ⟨take_append_drop _ _, ?_⟩
    rcases lastChange_spec e.op.opCount chain 0 0 with ⟨none', -⟩ |
      ⟨front, f, back, rfl, hd, all, same⟩
    · exact absurd none' some'
    rw [same, Nat.zero_add]
    intro rest x y last first
    have cut : (front ++ f :: back) ++ [e] = (front ++ [f]) ++ (back ++ [e]) := by simp
    have length : front.length + 1 = (front ++ [f]).length := by simp
    rw [cut, length, take_left] at last
    have isX : f = x := by simpa using last
    have isY : y.op.opCount = e.op.opCount := by
      cases back with
      | nil =>
        have : e = y := by simpa using first
        rw [this]
      | cons z zs =>
        have : z = y := by simpa using first
        exact this ▸ all z (by simp)
    rw [← isX, isY]
    exact hd
  · exact ⟨rfl, by simp⟩

def Producer.waiting (producer : Producer) (p : Nat) : List Entry :=
  producer.chains p ++ producer.pending.filter fun e => e.proxyRank = p

def Thread.all (thread : Thread) (q : Nat) (ptr : AppendPtr) : List Args :=
  thread.removed q ptr ++ thread.queues q ptr

/-- Between rank `q` and thread `p`: the thread collected `done`, and the rest is on the way. -/
structure Flows (producer : Producer) (thread : Thread) (p q : Nat) (done : List Entry) : Prop where
  ops : (producer.uploaded.filter fun e => e.proxyRank = p) =
    done ++ (fromRank q (thread.nextOps ++ thread.pool) ++ producer.waiting p)
  stream : Stream q done (thread.nextOps ++ thread.pool) (producer.waiting p)
  collected : Collected done (thread.all q)
  -- The thread may also stop where what it took from the pool ends.
  grabbed : KeysApart Entry.key (done ++ fromRank q thread.nextOps)
    (fromRank q thread.pool ++ producer.waiting p)

def Flow (producer : Producer) (thread : Thread) (p q : Nat) : Prop :=
  ∃ done, Flows producer thread p q done

def Producer.tip (producer : Producer) : Counters where
  collOpCount := producer.counters.collOpCount
  p2pOpCount := fun c => producer.counters.p2pOpCount c + if producer.busy then producer.bump c else 0

structure Steady (nLocal : Nat) (producer : Producer) : Prop where
  fit : Fit producer.uploaded
  inNode : ∀ e ∈ producer.uploaded, e.proxyRank < nLocal
  below : producer.failed = false → ∀ e ∈ producer.uploaded, e.Below producer.tip
  idle : producer.busy = false → producer.failed = false →
    producer.pending = [] ∧ ∀ p, producer.chains p = []

structure Inv (nLocal : Nat) (s : Node) : Prop where
  steady : ∀ q, Steady nLocal (s.producers q)
  flows : ∀ p q, Flow (s.producers q) (s.threads p) p q
  errors : ∀ p, (s.threads p).errors = []

section

variable {nLocal : Nat} {producer producer' : Producer} {thread thread' : Thread} {p q : Nat}

theorem fit_nil : Fit [] :=
  ⟨Grouping.Grouped.nil, Pairwise.nil, fun _ => Nat.zero_le _⟩

theorem inv_initial (nLocal : Nat) : Inv nLocal .initial := by
  refine ⟨fun q => ⟨fit_nil, ?_, ?_, ?_⟩, ?_, fun _ => rfl⟩
  · simp [Node.initial, Producer.initial]
  · simp [Node.initial, Producer.initial]
  · exact fun _ _ => ⟨rfl, fun _ => rfl⟩
  intro p q
  refine ⟨[], rfl, ⟨fit_nil, ?_⟩, ⟨?_, ?_, ?_⟩, Grouping.keysApart_nil_left _⟩
  · intro xs ys split _
    obtain ⟨rfl, rfl⟩ := append_eq_nil_iff.mp split.symm
    exact Grouping.keysApart_nil_left _
  · simp [Thread.all, Node.initial, Thread.initial]
  · simp [Thread.all, Node.initial, Thread.initial]
  · simp

theorem Flow.congr (h : Flow producer thread p q) (uploaded : producer'.uploaded = producer.uploaded)
    (waiting : producer'.waiting p = producer.waiting p) (next : thread'.nextOps = thread.nextOps)
    (pool : thread'.pool = thread.pool)
    (all : ∀ done, Collected done (thread.all q) → Collected done (thread'.all q)) :
    Flow producer' thread' p q := by
  obtain ⟨done, ops, stream, hc, hg⟩ := h
  refine ⟨done, ?_, ?_, all done hc, ?_⟩
  · rw [uploaded, waiting, next, pool]
    exact ops
  · rw [waiting, next, pool]
    exact stream
  · rw [waiting, next, pool]
    exact hg

theorem Flow.post_other (h : Flow producer thread p q) {q' : Nat} (other : q' ≠ q) (posted : List Entry) :
    Flow producer { thread with pool := thread.pool ++ posted.map (q', ·) } p q := by
  obtain ⟨done, ops, stream, hc, hg⟩ := h
  have none' := fromRank_map_of_ne other posted
  refine ⟨done, ?_, ?_, hc, ?_⟩
  · rw [ops]
    simp [none']
  · simpa using stream.post_other other posted
  · simpa [none'] using hg

theorem Flow.post (h : Flow producer thread p q) {posted : List Entry}
    (uploaded : producer'.uploaded = producer.uploaded)
    (waiting : producer.waiting p = posted ++ producer'.waiting p)
    (change : ∀ x y, posted.getLast? = some x → (producer'.waiting p).head? = some y →
      x.op.opCount ≠ y.op.opCount) :
    Flow producer' { thread with pool := thread.pool ++ posted.map (q, ·) } p q := by
  obtain ⟨done, ops, stream, hc, hg⟩ := h
  rw [waiting] at ops stream hg
  refine ⟨done, ?_, ?_, hc, ?_⟩
  · rw [uploaded, ops]
    simp
  · simpa using stream.post change
  · simpa using hg

theorem Flow.upload (h : Flow producer thread p q) {entries : List Entry}
    (uploaded : producer'.uploaded = producer.uploaded ++ entries) (empty : producer.waiting p = [])
    (waiting : producer'.waiting p = entries.filter fun e => e.proxyRank = p)
    (fit : Fit (producer.uploaded ++ entries)) (apart : KeysApart Entry.key producer.uploaded entries) :
    Flow producer' thread p q := by
  obtain ⟨done, ops, stream, hc, hg⟩ := h
  rw [empty, append_nil] at ops hg
  have whole : (producer'.uploaded.filter fun e => e.proxyRank = p) =
      done ++ (fromRank q (thread.nextOps ++ thread.pool) ++ producer'.waiting p) := by
    rw [uploaded, filter_append, ops, waiting, append_assoc]
  -- What is new is apart from every part of what was uploaded.
  have new {xs : List Entry} (sub : xs ⊆ done ++ fromRank q (thread.nextOps ++ thread.pool)) :
      KeysApart Entry.key xs (producer'.waiting p) := by
    rw [waiting]
    refine apart.mono ?_ (filter_subset_self _)
    exact fun x mem => mem_of_mem_filter (ops ▸ sub mem)
  refine ⟨done, whole, ⟨?_, ?_⟩, hc, ?_⟩
  · rw [← whole, uploaded]
    exact fit.sublist filter_sublist
  · intro xs ys split hb
    have old := stream.cuts xs ys split hb
    rw [empty, append_nil] at old
    refine Grouping.keysApart_append_right.mpr ⟨old, new ?_⟩
    rw [split, fromRank_append, ← append_assoc]
    exact subset_append_left _ _
  · refine Grouping.keysApart_append_right.mpr ⟨hg, new ?_⟩
    rw [fromRank_append, ← append_assoc]
    exact subset_append_left _ _

theorem Flow.apart (h : Flow producer thread p q) {ptr : AppendPtr} {args : Args}
    (mem : args ∈ thread.all q ptr) :
    ∀ e ∈ fromRank q (thread.nextOps ++ thread.pool) ++ producer.waiting p,
      e.key ≠ (ptr, args.opCount) := by
  obtain ⟨_, -, stream, hc, -⟩ := h
  intro e ahead key
  obtain ⟨x, hi, keyX⟩ := hc.mem_done mem
  have apart := stream.cuts [] _ rfl (breaks_nil_left _)
  exact apart x (by simpa using hi) e ahead (keyX.trans key.symm)

theorem Flows.held {done : List Entry} (h : Flows producer thread p q done) :
    Held done (thread.removed q) (thread.queues q)
      (fromRank q (thread.nextOps ++ thread.pool) ++ producer.waiting p) := by
  refine ⟨h.collected, h.stream.fit, ?_⟩
  intro y ahead x hi key
  have apart := h.stream.cuts [] _ rfl (breaks_nil_left _)
  exact absurd key (apart x (by simpa using hi) y ahead)

variable {producers : Nat → Producer}

theorem Flows.loop {batchSize : Int} {done : Nat → List Entry}
    (h : ∀ q, Flows (producers q) thread p q (done q)) (ops rest : List (Nat × Entry))
    (all : thread.nextOps ++ thread.pool = ops ++ rest)
    (stop : ∀ q, KeysApart Entry.key (done q ++ fromRank q ops) (fromRank q rest ++ (producers q).waiting p))
    {start : Thread} (queues : start.queues = thread.queues) (removed : start.removed = thread.removed)
    (pool : start.pool = rest) :
    (appendLoop batchSize ops 0 none 0 start).errors = start.errors ∧
      ∀ q, Flow (producers q) (appendLoop batchSize ops 0 none 0 start) p q := by
  have held (q : Nat) : Held (done q) (start.removed q) (start.queues q)
      (fromRank q ops ++ (fromRank q rest ++ (producers q).waiting p)) := by
    have whole := (h q).held
    rw [all, fromRank_append, append_assoc, ← queues, ← removed] at whole
    exact whole
  have remembers : Remembers batchSize [] 0 none 0 := .inl ⟨rfl, rfl, rfl⟩
  obtain ⟨taken, left, split, hb, next, pool', errors, hr', held'⟩ :=
    appendLoop_spec batchSize ops remembers held
  refine ⟨errors, fun q => ⟨done q ++ fromRank q taken, ?_, ?_, ?_, ?_⟩⟩
  · rw [next, pool', pool, (h q).ops, all, split]
    simp
  · rw [next, pool', pool]
    have stream := (h q).stream
    rw [all, split, append_assoc] at stream
    refine stream.take ?_
    cases left with
    | nil => simpa [split] using stop q
    | cons x left =>
      -- The loop stopped before the end, where rank or opCount changes.
      exact stream.cuts taken _ rfl hb
  · have collected := (held' q).collected
    unfold Thread.all
    rw [hr']
    exact collected
  · rw [next, pool', pool]
    have grabbed := stop q
    rw [split, fromRank_append, ← append_assoc] at grabbed
    exact grabbed

theorem getPostedOps_flows (batchSize : Int) (h : ∀ q, Flow (producers q) thread p q) :
    (getPostedOps batchSize thread).errors = thread.errors ∧
      ∀ q, Flow (producers q) (getPostedOps batchSize thread) p q := by
  choose done flows using h
  unfold getPostedOps
  split
  next none' =>
    refine Flows.loop flows thread.pool [] (by simp [none']) (fun q => ?_) rfl rfl rfl
    have end' := (flows q).stream.cuts thread.pool [] (by simp [none']) (breaks_nil_right _)
    exact end'
  · exact Flows.loop flows _ _ rfl (fun q => (flows q).grabbed) rfl rfl rfl

end

section

variable {nLocal : Nat} {s : Node}

@[simp] theorem Node.setProducer_producers (s : Node) (q : Nat) (producer : Producer) (q' : Nat) :
    (s.setProducer q producer).producers q' = if q' = q then producer else s.producers q' := rfl

@[simp] theorem Node.setProducer_threads (s : Node) (q : Nat) (producer : Producer) :
    (s.setProducer q producer).threads = s.threads := rfl

@[simp] theorem Node.setThread_producers (s : Node) (p : Nat) (thread : Thread) :
    (s.setThread p thread).producers = s.producers := rfl

@[simp] theorem Node.setThread_threads (s : Node) (p : Nat) (thread : Thread) (p' : Nat) :
    (s.setThread p thread).threads p' = if p' = p then thread else s.threads p' := rfl

variable {q : Nat} {producer : Producer}

theorem Inv.setProducer (h : Inv nLocal s) (steady : Steady nLocal producer)
    (flows : ∀ p, Flow producer (s.threads p) p q) :
    Inv nLocal (s.setProducer q producer) := by
  refine ⟨?_, ?_, h.errors⟩
  · intro q'
    rw [Node.setProducer_producers]
    split
    · exact steady
    · exact h.steady q'
  · intro p q'
    rw [Node.setProducer_producers]
    split
    next here =>
      rw [here]
      exact flows p
    · exact h.flows p q'

variable {p : Nat}

theorem Inv.setThread (h : Inv nLocal s) {thread : Thread} (flows : ∀ q, Flow (s.producers q) thread p q)
    (errors : thread.errors = []) :
    Inv nLocal (s.setThread p thread) := by
  refine ⟨h.steady, ?_, ?_⟩
  · intro p' q
    rw [Node.setThread_threads]
    split
    next here =>
      rw [here]
      exact flows q
    · exact h.flows p' q
  · intro p'
    rw [Node.setThread_threads]
    split
    · exact errors
    · exact h.errors p'

theorem Inv.post (h : Inv nLocal s) {posted : List Entry} (steady : Steady nLocal producer)
    (uploaded : producer.uploaded = (s.producers q).uploaded)
    (here : (s.producers q).waiting p = posted ++ producer.waiting p)
    (elsewhere : ∀ p', p' ≠ p → producer.waiting p' = (s.producers q).waiting p')
    (change : ∀ x y, posted.getLast? = some x → (producer.waiting p).head? = some y → x.op.opCount ≠ y.op.opCount) :
    Inv nLocal ((s.setProducer q producer).post q p posted) := by
  refine ⟨?_, ?_, ?_⟩
  · intro q'
    simp only [Node.post, Node.setThread_producers, Node.setProducer_producers]
    split
    · exact steady
    · exact h.steady q'
  · intro p' q'
    simp only [Node.post, Node.setThread_producers, Node.setProducer_producers,
      Node.setThread_threads]
    by_cases ha : p' = p
    · subst ha
      rw [if_pos rfl]
      by_cases hat : q' = q
      · subst hat
        rw [if_pos rfl]
        exact (h.flows p' q').post uploaded here change
      · rw [if_neg hat]
        exact (h.flows p' q').post_other (Ne.symm hat) posted
    · split
      next hat =>
        subst hat
        exact (h.flows p' q').congr uploaded (elsewhere p' ha) rfl rfl fun _ => id
      · exact h.flows p' q'
  · intro p'
    simp only [Node.post, Node.setThread_threads]
    split
    next ha =>
      rw [← ha]
      exact h.errors p'
    · exact h.errors p'

theorem Inv.chains_empty (h : Inv nLocal s) (empty : ∀ p < nLocal, (s.producers q).chains p = []) (p : Nat) :
    (s.producers q).chains p = [] := by
  by_cases hi : p < nLocal
  · exact empty p hi
  obtain ⟨_, ops, -⟩ := h.flows p q
  have none' : ((s.producers q).uploaded.filter fun e => e.proxyRank = p) = [] := by
    rw [filter_eq_nil_iff]
    intro e mem
    have := (h.steady q).inNode e mem
    simp only [decide_eq_true_eq]
    omega
  rw [none', Producer.waiting] at ops
  simp only [nil_eq, append_eq_nil_iff] at ops
  exact ops.2.2.1

theorem Inv.append (h : Inv nLocal s) {e : Entry} {rest : List Entry} (busy : (s.producers q).busy = true)
    (pending : (s.producers q).pending = e :: rest) :
    Inv nLocal (s.append q e rest) := by
  obtain ⟨hw, change⟩ := localOpAppend_spec ((s.producers q).chains e.proxyRank) e
  have steady := h.steady q
  refine h.post ⟨steady.fit, steady.inNode, ?_, ?_⟩ rfl ?_ ?_ ?_
  · -- Nothing failed, so the rank is still busy.
    intro fine
    simp only [Bool.or_eq_false_iff, Bool.not_eq_false'] at fine
    have below := steady.below fine.1
    simp only [Producer.tip, busy, fine.2] at below ⊢
    exact below
  · intro idle fine
    simp only [Bool.or_eq_false_iff, Bool.not_eq_false'] at idle fine
    rw [fine.2] at idle
    cases idle
  · simp only [Producer.waiting, pending, if_true]
    rw [← append_assoc, hw]
    simp
  · intro p' other
    simp [Producer.waiting, pending, other, Ne.symm other]
  · intro x y last first
    simp only [Producer.waiting] at first
    exact change _ x y last first

theorem Inv.postChain (h : Inv nLocal s) (p : Nat) (busy : (s.producers q).busy = true)
    (pending : (s.producers q).pending = []) :
    Inv nLocal ((s.setProducer q { s.producers q with
      chains := fun p' => if p' = p then [] else (s.producers q).chains p' }).post q p
        ((s.producers q).chains p)) := by
  have steady := h.steady q
  refine h.post ⟨steady.fit, steady.inNode, steady.below, ?_⟩ rfl ?_ ?_ ?_
  · intro idle
    rw [busy] at idle
    cases idle
  · simp [Producer.waiting]
  · intro p' other
    simp [Producer.waiting, other]
  · intro x y _ first
    simp [Producer.waiting, pending] at first

theorem Inv.finish (h : Inv nLocal s) (busy : (s.producers q).busy = true) (pending : (s.producers q).pending = [])
    (empty : ∀ p < nLocal, (s.producers q).chains p = []) :
    Inv nLocal (s.setProducer q { s.producers q with
      busy := false
      counters := { (s.producers q).counters with
        p2pOpCount := fun c => (s.producers q).counters.p2pOpCount c + (s.producers q).bump c } }) := by
  have steady := h.steady q
  refine h.setProducer ⟨steady.fit, steady.inNode, ?_, ?_⟩ ?_
  · -- The counts are where the tip was.
    intro fine
    have below := steady.below fine
    simp only [Producer.tip, busy] at below
    simpa [Producer.tip] using below
  · exact fun _ _ => ⟨pending, h.chains_empty empty⟩
  · exact fun p => (h.flows p q).congr rfl rfl rfl rfl fun _ => id

def Built (site : Site nLocal) (plan : KernelPlan) : Prop :=
  ∃ persistent tasks rest,
    (∀ r, ∀ t ∈ tasks.p2ps.send r, site.fits .send r (Plan.toProxyProtocol t.direction.protocol)) ∧
    (∀ r, ∀ t ∈ tasks.p2ps.recv r, site.fits .recv r (Plan.toProxyProtocol t.direction.protocol)) ∧
    Plan.buildPlan site.comm (Plan.planBudget site.comm persistent) tasks = some (plan, rest)

theorem saveOp_inNode (site : Site nLocal) {op : ProxyOp} {e : Entry}
    (mem : e ∈ site.wiring.saveOp op) : e.proxyRank < nLocal := by
  obtain ⟨_, -, rfl⟩ := mem_map.mp mem
  unfold Wiring.entry
  split
  all_goals exact site.inNode _

theorem Planned.fit {site : Site nLocal} {header : Nat → Nat × Protocol} {plan : KernelPlan}
    (h : Planned site header plan) (counters : Counters) : Fit (uploadEntries site counters plan) :=
  ⟨h.entries_grouped, h.entries_join, h.few⟩

theorem Inv.upload (h : Inv nLocal s) (site : Nat → Site nLocal) {plan : KernelPlan}
    (idle : (s.producers q).busy = false) (fine : (s.producers q).failed = false) (built : Built (site q) plan)
    (single : OneProfilerOp plan) : Inv nLocal (s.upload site q plan) := by
  obtain ⟨_, _, _, hs, hr, built⟩ := built
  obtain ⟨_, planned⟩ := planned_of_built hs hr built single
  have steady := h.steady q
  obtain ⟨pending, chains⟩ := steady.idle idle fine
  have below := steady.below fine
  -- While the rank is idle the tip is where the counts are.
  have tip : (s.producers q).tip = (s.producers q).counters := by simp [Producer.tip, idle]
  rw [tip] at below
  generalize entriesIs : uploadEntries (site q) (s.producers q).counters plan = entries
  have apart : KeysApart Entry.key (s.producers q).uploaded entries := by
    intro e old f new
    rw [← entriesIs] at new
    obtain ⟨op, of⟩ := planned.mem_entries new
    exact of.key_ne (below e old)
  have fit : Fit ((s.producers q).uploaded ++ entries) := by
    refine steady.fit.append ?_ apart
    rw [← entriesIs]
    exact planned.fit _
  unfold Node.upload
  simp only [entriesIs]
  refine h.setProducer ⟨fit, ?_, ?_, ?_⟩ ?_
  · refine forall_mem_append.mpr ⟨steady.inNode, ?_⟩
    intro e new
    rw [← entriesIs] at new
    obtain ⟨op, -, here⟩ := mem_flatMap.mp new
    exact saveOp_inNode (site q) here
  · intro _ e mem
    have next : ({ s.producers q with
        counters := { (s.producers q).counters with
          collOpCount := (s.producers q).counters.collOpCount + plan.collOpCount }
        bump := p2pOpBump plan.proxyOpQueue
        busy := true
        pending := entries
        uploaded := (s.producers q).uploaded ++ entries } : Producer).tip =
          (s.producers q).counters.next plan := by
      simp [Producer.tip, Counters.next]
    rw [next]
    rcases mem_append.mp mem with old | new
    · exact (below e old).mono (by simp [Counters.next]) (by simp [Counters.next])
    · rw [← entriesIs] at new
      exact planned.entries_below new
  · intro busy
    cases busy
  · intro p
    refine (h.flows p q).upload rfl ?_ ?_ fit apart
    · simp [Producer.waiting, pending, chains]
    · simp [Producer.waiting, chains]

def Args.SameOps (args args' : Args) : Prop :=
  args'.opCount = args.opCount ∧ args'.sliceSteps = args.sliceSteps ∧ args'.protocol = args.protocol ∧
    args'.forRecv = args.forRecv ∧ args'.subs = args.subs

variable {args : Args} {args' : Args}

theorem Collected.progress {done : List Entry} {all : AppendPtr → List Args} (h : Collected done all)
    (ptr : AppendPtr) {front back : List Args} (here : all ptr = front ++ args :: back)
    (same : args.SameOps args') : Collected done (update all ptr (front ++ args' :: back)) := by
  obtain ⟨hc, hs, hp, hf, subs⟩ := same
  have old : args ∈ all ptr := by simp [here]
  refine ⟨?_, ?_, ?_⟩
  · refine (forall_update_iff all fun ptr l => ∀ x ∈ l, x.Holds ptr done).mpr ⟨?_, fun ptr' _ => h.holds ptr'⟩
    intro x mem
    rcases mem_append.mp mem with hi | hinR
    · exact h.holds ptr x (by simp [here, hi])
    rcases mem_cons.mp hinR with rfl | hinB
    · have holds := h.holds ptr args old
      exact ⟨subs ▸ holds.sub, subs ▸ holds.some', subs.symm ▸ hc.symm ▸ holds.key, by
        simp only [Args.Heads, subs, hs, hp, hf]
        exact holds.header⟩
    · exact h.holds ptr x (by simp [here, hinB])
  · refine (forall_update_iff all fun _ l => (l.map Args.opCount).Nodup).mpr ⟨?_, fun ptr' _ => h.once ptr'⟩
    simpa [here, hc] using h.once ptr
  · intro e mem
    obtain ⟨x, hin, taken⟩ := h.taken e mem
    rw [update_apply]
    split
    next ha =>
      rw [ha, here] at hin
      rcases mem_append.mp hin with hi | hinR
      · exact ⟨x, by simp [hi], taken⟩
      · rcases mem_cons.mp hinR with rfl | hinB
        · exact ⟨args', by simp, subs ▸ taken⟩
        · exact ⟨x, by simp [hinB], taken⟩
    · exact ⟨x, hin, taken⟩

variable {rest : List Args}

theorem Inv.progress (h : Inv nLocal s) {ptr : AppendPtr} (queue : (s.threads p).queues q ptr = args :: rest)
    (same : args.SameOps args') :
    Inv nLocal (s.setThread p ((s.threads p).setQueue q ptr (args' :: rest))) := by
  refine h.setThread ?_ (h.errors p)
  intro q'
  refine (h.flows p q').congr rfl rfl rfl rfl ?_
  intro done hc
  by_cases here : q' = q
  · subst here
    have all : ((s.threads p).setQueue q' ptr (args' :: rest)).all q' =
        update ((s.threads p).all q') ptr ((s.threads p).removed q' ptr ++ args' :: rest) := by
      funext ptr'
      by_cases ha : ptr' = ptr
      all_goals simp [Thread.all, Thread.setQueue, ha]
    rw [all]
    exact hc.progress ptr (by rw [Thread.all, queue]) same
  · have all : ((s.threads p).setQueue q ptr (args' :: rest)).all q' = (s.threads p).all q' := by
      funext ptr'
      simp [Thread.all, Thread.setQueue, here]
    rw [all]
    exact hc

theorem Inv.rearrange (h : Inv nLocal s) {thread : Thread} (next : thread.nextOps = (s.threads p).nextOps)
    (pool : thread.pool = (s.threads p).pool) (errors : thread.errors = (s.threads p).errors)
    (all : thread.all = (s.threads p).all) : Inv nLocal (s.setThread p thread) := by
  refine h.setThread (fun q' => ?_) (errors.trans (h.errors p))
  exact (h.flows p q').congr rfl rfl next pool fun _ => by rw [all]; exact id

/-- No earlier upload of the rank failed half way, and no two profiler ops of the plan are for one
channel, direction and opCount. -/
def Ok (site : Nat → Site nLocal) (s : Node) : Action → Prop
  | .upload q plan => Built (site q) plan ∧ (s.producers q).failed = false ∧ OneProfilerOp plan
  | _ => True

theorem step_inv {site : Nat → Site nLocal} {batchSize : Int} {s' : Node} (h : Inv nLocal s)
    {action : Action} (ok : Ok site s action) (stepped : step site batchSize s action = some s') :
    Inv nLocal s' := by
  cases action with
  | upload q plan =>
    obtain ⟨hb, fine, hs⟩ := ok
    simp only [step] at stepped
    split at stepped
    · cases stepped
    next idle =>
      cases stepped
      exact h.upload site (by simpa using idle) fine hb hs
  | append q =>
    simp only [step] at stepped
    split at stepped
    next busy pending =>
      cases stepped
      exact h.append busy pending
    · cases stepped
  | post q p =>
    obtain ⟨he, ⟨⟩⟩ := Option.ite_none_right_eq_some.mp stepped
    exact h.postChain p he.1 he.2
  | finish q =>
    obtain ⟨he, ⟨⟩⟩ := Option.ite_none_right_eq_some.mp stepped
    exact h.finish he.1 he.2.1 he.2.2
  | getPosted p =>
    simp only [step, Option.some.injEq] at stepped
    subst stepped
    obtain ⟨her, flows⟩ := getPostedOps_flows batchSize fun q => h.flows p q
    exact h.setThread flows (her.trans (h.errors p))
  | progress p q ptr =>
    simp only [step] at stepped
    split at stepped
    · cases stepped
    next queue =>
      obtain ⟨-, ⟨⟩⟩ := Option.ite_none_right_eq_some.mp stepped
      exact h.progress queue ⟨rfl, rfl, rfl, rfl, rfl⟩
  | remove p q ptr =>
    simp only [step] at stepped
    split at stepped
    · cases stepped
    next queue =>
      cases stepped
      refine h.rearrange rfl rfl rfl ?_
      -- The args move from the queue to the history: together they are what they were.
      funext q' ptr'
      by_cases here : q' = q ∧ ptr' = ptr
      · obtain ⟨rfl, rfl⟩ := here
        simp [Thread.all, Thread.setQueue, queue]
      · simp [Thread.all, Thread.setQueue, here]

def Node.outstanding (s : Node) (p q : Nat) : List Entry :=
  fromRank q ((s.threads p).nextOps ++ (s.threads p).pool) ++ (s.producers q).waiting p

/-- Ops of one append pointer and opCount are in one args, whatever its state, and others are not. -/
structure OneArgs (s : Node) : Prop where
  arrives : ∀ q, ∀ e ∈ (s.producers q).uploaded, e ∈ s.outstanding e.proxyRank q ∨
    ∃ args ∈ (s.threads e.proxyRank).all q e.ptr, e ∈ args.subs
  complete : ∀ p q ptr, ∀ args ∈ (s.threads p).all q ptr, ∀ e ∈ s.outstanding p q,
    e.key ≠ (ptr, args.opCount)
  once : ∀ p q ptr, (((s.threads p).all q ptr).map Args.opCount).Nodup
  subs : ∀ p q ptr, ∀ args ∈ (s.threads p).all q ptr, ∀ e ∈ args.subs, e.key = (ptr, args.opCount)
  connections : ∀ p q ptr, ∀ args ∈ (s.threads p).all q ptr, (args.subs.map Entry.connection).Nodup
  errors : ∀ p, (s.threads p).errors = []

theorem Inv.oneArgs (h : Inv nLocal s) : OneArgs s := by
  refine ⟨?_, ?_, ?_, ?_, ?_, h.errors⟩
  · intro q e mem
    obtain ⟨done, ops, -, hc, -⟩ := h.flows e.proxyRank q
    have here : e ∈ (s.producers q).uploaded.filter fun f => f.proxyRank = e.proxyRank := by
      simp [mem]
    rw [ops] at here
    rcases mem_append.mp here with ht | ha
    · exact .inr (hc.taken e ht)
    · exact .inl ha
  · exact fun p q ptr args mem => (h.flows p q).apart mem
  · intro p q ptr
    obtain ⟨done, -, -, hc, -⟩ := h.flows p q
    exact hc.once ptr
  · intro p q ptr args mem
    obtain ⟨done, -, -, hc, -⟩ := h.flows p q
    exact (hc.holds ptr args mem).key
  · intro p q ptr args mem
    obtain ⟨done, -, stream, hc, -⟩ := h.flows p q
    have holds := hc.holds ptr args mem
    have joins := stream.fit.joins.sublist (holds.sub.trans (sublist_append_left _ _))
    rw [Nodup, pairwise_map]
    refine joins.imp_of_mem ?_
    intro e f inE inF join
    exact (join ((holds.key e inE).trans (holds.key f inF).symm)).2.1

end

theorem peered_of_ring {comm : Comm} (ranks : 1 < comm.nRanks)
    (channels : comm.channels = fun _ => ⟨1, 1, id, -1, [], -1, -1, -1, -1, -1, -1⟩)
    (pat : comm.patSteps = fun _ => []) : comm.Peered := by
  refine ⟨?_, ?_, ?_, ?_, ?_, ?_, ?_⟩ <;> intro x <;> simp [channels, pat]
  all_goals omega

def pairSite : Site 1 where
  comm := Plan.pairComm
  wiring :=
    { connector := Plan.pairComm.connector
      proxyRank := fun _ => 0
      progress := fun _ _ _ _ => rfl
      sharedIndex := by
        intro _ _ _ i shared
        by_cases first : i = 1 <;> simp [Plan.pairComm, first] at shared ⊢
      collNetPeer := by
        intro _ _ _ i collNet
        by_cases first : i = 1 <;> simp [Plan.pairComm, first] at collNet }
  regular := ⟨by decide, by decide, by decide, fun _ _ _ => by simp [Plan.pairComm],
    fun _ _ _ _ _ => ⟨rfl, rfl⟩, by decide, by decide⟩
  peered := peered_of_ring (by decide) rfl rfl
  inNode := fun _ => Nat.zero_lt_one

theorem pairSite_fits {tasks : Plan.Tasks} (queues : tasks.p2ps = Plan.oneSend) :
    (∀ r, ∀ t ∈ tasks.p2ps.send r, pairSite.fits .send r (Plan.toProxyProtocol t.direction.protocol)) ∧
    (∀ r, ∀ t ∈ tasks.p2ps.recv r, pairSite.fits .recv r (Plan.toProxyProtocol t.direction.protocol)) := by
  rw [queues]
  refine ⟨?_, fun _ _ mem => by cases mem⟩
  intro r t mem _
  simp only [Plan.oneSend] at mem
  split at mem
  · rw [mem_singleton.mp mem]
    rfl
  · cases mem

def postAndTake (plan : KernelPlan) : List Action :=
  [.upload 0 plan, .append 0, .post 0 0, .finish 0, .getPosted 0]

/-- Rank 0 of three, on a node of its own, with a profiler plugin. Its connections are not shared. -/
def profiledSite : Site 1 where
  comm :=
    { Plan.pairComm with
      nRanks := 3
      connector := fun _ _ _ _ => ⟨.net, false, 0, true⟩
      profilerPluginLoaded := true
      p2pSchedule := [(0, 0), (1, 2), (2, 1)]
      psmIndex := by
        intro _ _ _ _ psm
        cases psm
      sharedTransport := by
        intro _ _ _ _ shared
        cases shared
      coversSend := by decide
      coversRecv := by decide
      selfRound := by decide }
  wiring :=
    { connector := fun _ _ _ _ => ⟨.net, false, 0, true⟩
      proxyRank := fun _ => 0
      progress := fun _ _ _ _ => rfl
      sharedIndex := by
        intro _ _ _ _ shared
        cases shared
      collNetPeer := by
        intro _ _ _ _ collNet
        cases collNet }
  regular := ⟨by decide, by decide, by decide, fun _ _ _ => by simp [Plan.pairComm],
    fun _ _ _ _ _ => ⟨rfl, rfl⟩, by decide, by decide⟩
  peered := peered_of_ring (by decide) rfl rfl
  inNode := fun _ => Nat.zero_lt_one

def profiledSends : Plan.P2pQueues where
  send := fun r =>
    if r = 1 then [{ Plan.smallSend with
      kernelCh := true, direction := { Plan.smallSend.direction with protocol := .ll } }]
    else if r = 2 then [{ Plan.smallSend with kernelCh := true }] else []
  recv := fun _ => []
  nTasks := 2

end Vccl.Proxy
