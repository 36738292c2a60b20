import Vccl.Lib.Grouping
import Vccl.Proxy.Pool

/-! The ops of one upload: those for one append pointer and opCount follow each other, are for different
connections and fit into one args. -/
namespace Vccl.Proxy

open List

open Plan (KernelPlan OfColl OfPoint sidePattern pointSide)

def Entry.key (e : Entry) : AppendPtr × Nat := (e.ptr, e.op.opCount)

def Entry.Joins (e f : Entry) : Prop :=
  e.key = f.key → f.shared = true ∧ e.connection ≠ f.connection ∧
    e.op.sliceSteps = f.op.sliceSteps ∧ e.op.protocol = f.op.protocol ∧ e.op.forRecv = f.op.forRecv

def AppendPtr.channel : AppendPtr → Option Nat
  | .localPeer _ c | .own _ c _ _ | .profiler _ c => some c
  | .collNet _ _ => none

def Shape {comm : Comm} (w : Wiring comm) (op : ProxyOp) (e : Entry) : AppendPtr → Prop
  | .own side c peer i => e.connection = .own side c peer i ∧ e.shared = false ∧ c = op.channelId ∧
      op.pattern ≠ .profiler ∧ ∀ s, op.pattern = sidePattern s → side = s ∧ peer = op.root
  | .localPeer side c => ∃ peer, e.connection = .own side op.channelId peer 1 ∧ e.shared = true ∧
      c = op.channelId ∧ (w.connector side op.channelId peer 1).shared = true ∧ pointSide op = some side ∧
      ∀ s, op.pattern = sidePattern s → peer = op.root
  | .collNet side _ => ∃ peer, e.connection = .own side op.channelId peer (if side = .send then 1 else 0) ∧
      e.shared = true ∧ op.pattern.isCollnet = true
  | .profiler forRecv c => e.connection = .profiler forRecv c ∧ forRecv = op.forRecv ∧ c = op.channelId ∧
      op.pattern = .profiler

section

variable {comm : Comm} {w : Wiring comm} {op : ProxyOp}

theorem link_shape (peered : comm.Peered) {t : Target} (mem : t ∈ targets comm op)
    (here : 0 ≤ t.peer) (ranks : ∀ s, op.pattern = sidePattern s → op.root < comm.nRanks) :
    Shape w op (w.link t) (w.link t).ptr := by
  have channel : t.op.channelId = op.channelId := by rw [targets_op mem]
  have real : op.pattern ≠ .profiler := by
    intro hp
    simp [targets, hp] at mem
  have kind := targets_kind peered mem
  -- A connector of a send or receive is that of its peer.
  have point : ∀ s, op.pattern = sidePattern s → t.side = s ∧ t.peer.toNat = op.root := by
    intro s pattern
    cases s <;> simp only [sidePattern] at pattern <;> simp [pattern, Pattern.isCollnet] at kind <;>
      exact ⟨kind.2.2, by omega⟩
  cases hs : (w.connector t.side t.op.channelId t.peer.toNat t.connIndex).shared with
  | false =>
    have ptr : (w.link t).ptr = .own t.side t.op.channelId t.peer.toNat t.connIndex := by simp [Wiring.link, hs]
    rw [ptr]
    exact ⟨rfl, hs, channel, real, point⟩
  | true =>
    by_cases hc : (w.connector t.side t.op.channelId t.peer.toNat t.connIndex).transport = .collNet
    · have last := w.collNetPeer _ _ _ _ hc
      rcases kind with ⟨-, _, -⟩ | ⟨like, index⟩ | ⟨-, root, ⟨pattern, -⟩ | ⟨pattern, -⟩⟩
      · omega
      · have ptr : (w.link t).ptr = .collNet t.side
            (w.connector t.side t.op.channelId t.peer.toNat t.connIndex).netDev := by
          simp [Wiring.link, hs, hc]
        rw [ptr]
        exact ⟨t.peer.toNat, by simp [Wiring.link, channel, index], hs, like⟩
      · have := ranks .send pattern
        omega
      · have := ranks .recv pattern
        omega
    · have index := (w.sharedIndex _ _ _ _ hs).resolve_left hc
      have ptr : (w.link t).ptr = .localPeer t.side t.op.channelId := by simp [Wiring.link, hs, hc]
      rw [ptr]
      refine ⟨t.peer.toNat, by simp [Wiring.link, channel, index], hs, channel, channel ▸ index ▸ hs, ?_,
        fun s pattern => (point s pattern).2⟩
      rcases kind with ⟨_, -⟩ | ⟨like, index'⟩ | ⟨-, -, ⟨pattern, side⟩ | ⟨pattern, side⟩⟩
      · omega
      · have send : t.side = .send := by
          by_contra ho
          rw [if_neg ho] at index'
          omega
        rw [send]
        cases pattern : op.pattern <;> simp [pattern, Pattern.isCollnet] at like <;>
          simp [pointSide, pattern]
      all_goals simp [pointSide, pattern, side]

theorem mem_saveOp (peered : comm.Peered) {e : Entry} (mem : e ∈ w.saveOp op)
    (ranks : ∀ s, op.pattern = sidePattern s → op.root < comm.nRanks) :
    Shape w op e e.ptr ∧ e.op = { op with nsteps := e.op.nsteps } := by
  by_cases hp : op.pattern = .profiler
  · rw [w.saveOp_profiler hp] at mem
    split at mem
    · obtain rfl := mem_singleton.mp mem
      exact ⟨⟨rfl, rfl, rfl, hp⟩, rfl⟩
    · simp at mem
  · rw [w.saveOp_eq hp] at mem
    obtain ⟨t, hth, rfl⟩ := mem_map.mp mem
    obtain ⟨ht, connected⟩ := mem_filter.mp hth
    simp only [Target.connected, Bool.and_eq_true, decide_eq_true_eq] at connected
    exact ⟨link_shape peered ht connected.1 ranks, targets_op ht⟩

def AppendPtr.side : AppendPtr → Option Side
  | .own side _ _ _ => some side
  | _ => none

theorem saveOp_sides (point : op.pattern.isCollnet = true ∨ op.pattern = .send ∨ op.pattern = .recv) :
    (w.saveOp op).Pairwise fun e f => e.connection.side ≠ f.connection.side := by
  have real : op.pattern ≠ .profiler := by
    intro hp
    simp [hp, Pattern.isCollnet] at point
  rw [w.saveOp_eq real, pairwise_map]
  refine (Pairwise.filter _ (targets_sides point)).imp ?_
  intro t t' hd same
  exact hd (Option.some.inj same)

theorem saveOp_connections (peered : comm.Peered) (op : ProxyOp) :
    (w.saveOp op).Pairwise fun e f => e.connection ≠ f.connection := by
  by_cases hp : op.pattern = .profiler
  · rw [w.saveOp_profiler hp]
    split <;> simp
  rw [w.saveOp_eq hp, pairwise_map]
  refine (Pairwise.filter _ (targets_distinct peered op)).imp_of_mem ?_
  intro t t' mem mem' hd same
  simp only [mem_filter, Target.connected, Bool.and_eq_true, decide_eq_true_eq] at mem mem'
  simp only [Wiring.link, AppendPtr.own.injEq] at same
  exact hd mem.2.1 same.1 (by omega)

end

def OneProfilerOp (plan : KernelPlan) : Prop :=
  ∀ c < Plan.maxChannels, (plan.channels c).proxyOps.Pairwise fun a b =>
    a.pattern = .profiler → b.pattern = .profiler → a.forRecv = b.forRecv → a.opCount ≠ b.opCount

instance (plan : KernelPlan) : Decidable (OneProfilerOp plan) := by
  unfold OneProfilerOp
  infer_instance

/-- A shared connection has no buffers for the LL protocol, hence its sends and receives are simple. -/
def Site.fits {nLocal : Nat} (site : Site nLocal) (side : Side) (peer : Nat) (protocol : Protocol) : Prop :=
  (∃ c, (site.wiring.connector side c peer 1).shared = true) → protocol = .simple

section

variable {nLocal : Nat} {site : Site nLocal} {counters : Counters} {plan : KernelPlan}
  {header : Nat → Nat × Protocol}

variable {comm : Plan.Comm} {fits : Side → Nat → Protocol → Prop}

structure Ordered (comm : Plan.Comm) (fits : Side → Nat → Protocol → Prop) (header : Nat → Nat × Protocol)
    (plan : KernelPlan) : Prop where
  lines : ∀ c, Plan.Line comm fits header plan.collOpCount (plan.channels c)
  ops : ∀ c, Plan.P2pOps c (plan.channels c)
  small : plan.collOpCount ≤ 2 ^ 63

structure Planned (site : Site nLocal) (header : Nat → Nat × Protocol) (plan : KernelPlan) : Prop
    extends Ordered site.comm site.fits header plan where
  single : OneProfilerOp plan

variable {op : ProxyOp}

theorem Ordered.mem_queue (h : Ordered comm fits header plan) (mem : op ∈ plan.proxyOpQueue) :
    op.channelId < Plan.maxChannels ∧ op ∈ (plan.channels op.channelId).proxyOps ∧
      (OfColl header plan.collOpCount op ∨ OfPoint comm fits op) := by
  obtain ⟨_, ht, here⟩ := mem_flatten.mp (plan.proxyOpQueue_perm.mem_iff.mp mem)
  obtain ⟨c, hi, rfl⟩ := mem_map.mp ht
  have channel := ((h.ops c).home op here).1
  rw [channel]
  refine ⟨mem_range.mp hi, here, ?_⟩
  rcases (h.lines c).ops op here with coll | ⟨-, hp⟩
  · exact .inl coll
  · exact .inr hp

theorem Planned.queue_pairwise (h : Planned site header plan) {r : ProxyOp → ProxyOp → Prop}
    (symm : ∀ a b, r a b → r b a) (channels : ∀ c < Plan.maxChannels, (plan.channels c).proxyOps.Pairwise r)
    (elsewhere : ∀ a b, a.channelId ≠ b.channelId → r a b) : plan.proxyOpQueue.Pairwise r := by
  rw [plan.proxyOpQueue_perm.pairwise_iff (fun {a b} => symm a b)]
  refine pairwise_flatten.mpr ⟨?_, ?_⟩
  · intro queue mem
    obtain ⟨c, hi, rfl⟩ := mem_map.mp mem
    exact channels c (mem_range.mp hi)
  · refine pairwise_map.mpr (nodup_range.imp ?_)
    intro c c' hd a inA b inB
    refine elsewhere a b ?_
    rw [((h.ops c).home a inA).1, ((h.ops c').home b inB).1]
    exact hd

def Distinct (a b : ProxyOp) : Prop :=
  a.channelId = b.channelId → a.opCount = b.opCount →
    (a.pattern ≠ .profiler → b.pattern ≠ .profiler →
      a.opCount % 2 = 1 ∧ (a.pattern = b.pattern → a.root ≠ b.root)) ∧
    (a.pattern = .profiler → b.pattern = .profiler → a.forRecv ≠ b.forRecv)

theorem Planned.distinct (h : Planned site header plan) : plan.proxyOpQueue.Pairwise Distinct := by
  refine h.queue_pairwise ?_ ?_ ?_
  · intro a b distinct channel count
    obtain ⟨real, profiler⟩ := distinct channel.symm count.symm
    refine ⟨?_, fun pa pb same => profiler pb pa same.symm⟩
    intro pa pb
    obtain ⟨_, roots⟩ := real pb pa
    exact ⟨by omega, fun same root => roots same.symm root.symm⟩
  · intro c hi
    refine ((h.lines c).ordered.and (h.single c hi)).imp ?_
    rintro a b ⟨hf, hs⟩ - count
    exact ⟨hf.2 count, fun pa pb same => hs pa pb same count⟩
  · intro a b hd channel
    exact absurd channel hd

theorem Ordered.sorted (h : Ordered comm fits header plan) :
    plan.proxyOpQueue.Pairwise fun a b => Plan.lexLe (Plan.mergeOrder a) (Plan.mergeOrder b) := by
  refine Plan.mergeOps_sorted _ _ rfl ⟨?_, ?_⟩
  · intro i queue hf op mem
    have inside : i < Plan.maxChannels := by
      have := (List.getElem?_eq_some_iff.mp hf).1
      simpa [KernelPlan.queues] using this
    simp only [KernelPlan.queues, List.getElem?_map, List.getElem?_range inside, Option.map_some,
      Option.some.injEq] at hf
    subst hf
    exact ((h.ops i).home op mem).1
  · intro queue mem
    obtain ⟨c, -, rfl⟩ := mem_map.mp mem
    exact (h.lines c).ordered.imp fun hfo => hfo.1

theorem translate_parity (counters : Counters) (op : ProxyOp) :
    (counters.translate op).opCount % 2 = op.opCount % 2 := by
  simp only [Counters.translate]
  omega

variable {a b : ProxyOp}

theorem translate_inj (same : (counters.translate a).opCount = (counters.translate b).opCount)
    (channel : a.opCount % 2 = 1 → a.channelId = b.channelId) : a.opCount = b.opCount := by
  have parity := translate_parity counters a
  simp only [Counters.translate] at same
  by_cases odd : a.opCount % 2 = 1
  · rw [if_pos odd, if_pos (by omega), channel odd] at same
    omega
  · rw [if_neg odd, if_neg (by omega)] at same
    omega

theorem translate_congr (same : a.opCount = b.opCount) (channel : a.opCount % 2 = 1 → a.channelId = b.channelId) :
    (counters.translate a).opCount = (counters.translate b).opCount := by
  simp only [Counters.translate, ← same]
  by_cases odd : a.opCount % 2 = 1
  · rw [if_pos odd, if_pos odd, channel odd]
  · rw [if_neg odd, if_neg odd]

theorem mergeKey_inj {K : Nat} (small : K ≤ 2 ^ 63) {a b : Nat} (collA : a % 2 = 0 → a < 2 * K)
    (collB : b % 2 = 0 → b < 2 * K) (same : Plan.mergeKey a = Plan.mergeKey b) : a = b := by
  unfold Plan.mergeKey at same
  omega

def Counters.floor (counters : Counters) (op : ProxyOp) : Nat :=
  2 * if op.opCount % 2 = 1 then counters.p2pOpCount op.channelId else counters.collOpCount

def Counters.next (counters : Counters) (plan : KernelPlan) : Counters where
  collOpCount := counters.collOpCount + plan.collOpCount
  p2pOpCount := fun c => counters.p2pOpCount c + p2pOpBump plan.proxyOpQueue c

theorem lt_p2pOpBump {queue : List ProxyOp}
    (sorted : queue.Pairwise fun a b => Plan.lexLe (Plan.mergeOrder a) (Plan.mergeOrder b)) (mem : op ∈ queue)
    (odd : op.opCount % 2 = 1) :
    op.opCount / 2 < p2pOpBump queue op.channelId := by
  induction queue using reverseRecOn with
  | nil => simp at mem
  | append_singleton earlier last ih =>
    obtain ⟨hb, -, ho⟩ := pairwise_append.mp sorted
    have bump : p2pOpBump (earlier ++ [last]) op.channelId =
        if last.opCount % 2 = 1 ∧ last.channelId = op.channelId then last.opCount / 2 + 1
        else p2pOpBump earlier op.channelId := by
      simp [p2pOpBump]
    rw [bump]
    rcases mem_append.mp mem with old | new
    · split
      next here =>
        have le := ho op old last (by simp)
        unfold Plan.lexLe Plan.mergeOrder Plan.mergeKey at le
        omega
      · exact ih hb old
    · obtain rfl := mem_singleton.mp new
      rw [if_pos ⟨odd, rfl⟩]
      omega

theorem Ordered.below_floor (h : Ordered comm fits header plan) (mem : op ∈ plan.proxyOpQueue) :
    (counters.translate op).opCount < (counters.next plan).floor op := by
  simp only [Counters.translate, Counters.floor, Counters.next]
  obtain ⟨-, -, coll | hp⟩ := h.mem_queue mem
  · have even := coll.even
    have before := coll.before
    rw [if_neg (by omega), if_neg (by omega)]
    omega
  · have odd := hp.odd
    have bump := lt_p2pOpBump h.sorted mem odd
    rw [if_pos odd, if_pos odd]
    omega

theorem OfPoint.pattern_not_collnet (h : OfPoint site.comm site.fits op) :
    op.pattern.isCollnet = false := by
  rcases h.peer with hp | ⟨side, pattern, -⟩
  · simp [hp, Pattern.isCollnet]
  · cases side <;> simp [pattern, sidePattern, Pattern.isCollnet]

structure Uploaded (site : Site nLocal) (counters : Counters) (header : Nat → Nat × Protocol)
    (plan : KernelPlan) (op : ProxyOp) (e : Entry) : Prop where
  queued : op ∈ plan.proxyOpQueue
  kind : OfColl header plan.collOpCount op ∨ OfPoint site.comm site.fits op
  shape : Shape site.wiring (counters.translate op) e e.ptr
  count : e.op.opCount = (counters.translate op).opCount
  channel : e.op.channelId = op.channelId
  slices : e.op.sliceSteps = op.sliceSteps
  protocol : e.op.protocol = op.protocol
  function : e.op.forRecv = op.forRecv

variable {e : Entry}

theorem Planned.uploaded (h : Planned site header plan) (queued : op ∈ plan.proxyOpQueue)
    (mem : e ∈ site.wiring.saveOp (counters.translate op)) :
    Uploaded site counters header plan op e := by
  obtain ⟨-, -, kind⟩ := h.mem_queue queued
  have ranks : ∀ s, op.pattern = sidePattern s → op.root < site.comm.nRanks := by
    intro s hp
    rcases kind with coll | hpo
    · cases s with
      | send => exact absurd hp coll.noSend
      | recv => exact absurd hp coll.noRecv
    · rcases hpo.peer with hpr | ⟨_, _, _, rank, _⟩
      · rw [hpr] at hp
        cases s <;> cases hp
      · exact rank
  obtain ⟨hs, same⟩ := mem_saveOp site.peered mem ranks
  exact ⟨queued, kind, hs, by rw [same], by rw [same]; rfl, by rw [same]; rfl, by rw [same]; rfl,
    by rw [same]; rfl⟩

theorem Planned.mem_entries (h : Planned site header plan) (mem : e ∈ uploadEntries site counters plan) :
    ∃ op, Uploaded site counters header plan op e := by
  obtain ⟨op, hq, here⟩ := mem_flatMap.mp mem
  exact ⟨op, h.uploaded hq here⟩

def Counters.planId (counters : Counters) (c k : Nat) : Nat :=
  k - 2 * if k % 2 = 1 then counters.p2pOpCount c else counters.collOpCount

def Counters.order (counters : Counters) (e : Entry) : Nat × Nat :=
  (Plan.mergeKey (counters.planId e.op.channelId e.op.opCount), e.op.channelId)

section

variable (h : Uploaded site counters header plan op e)
include h

theorem Uploaded.shape_at {ptr : AppendPtr} (at_e : e.ptr = ptr) :
    Shape site.wiring (counters.translate op) e ptr :=
  at_e ▸ h.shape

theorem Uploaded.parity :
    e.op.opCount % 2 = op.opCount % 2 := by
  rw [h.count, translate_parity]

theorem Uploaded.point (odd : op.opCount % 2 = 1) :
    OfPoint site.comm site.fits op := by
  refine h.kind.resolve_left fun coll => ?_
  have := coll.even
  omega

theorem Uploaded.coll (even : op.opCount % 2 = 0) :
    OfColl header plan.collOpCount op := by
  refine h.kind.resolve_right fun hp => ?_
  have := hp.odd
  omega

theorem Uploaded.even_of_collnet (like : op.pattern.isCollnet = true) :
    op.opCount % 2 = 0 := by
  by_contra odd
  rw [OfPoint.pattern_not_collnet (h.point (by omega))] at like
  cases like

theorem Uploaded.ptr_channel (odd : op.opCount % 2 = 1) :
    e.ptr.channel = some op.channelId := by
  cases ptr : e.ptr with
  | own side c peer i => rw [(h.shape_at ptr).2.2.1]; rfl
  | localPeer side c =>
    obtain ⟨_, _, _, channel, _⟩ := h.shape_at ptr
    rw [channel]
    rfl
  | profiler forRecv c => rw [(h.shape_at ptr).2.2.1]; rfl
  | collNet side netDev =>
    obtain ⟨_, _, _, like⟩ := h.shape_at ptr
    have := h.even_of_collnet like
    omega

theorem Uploaded.planId : op.opCount = counters.planId op.channelId e.op.opCount := by
  unfold Counters.planId
  rw [h.parity, h.count]
  simp only [Counters.translate]
  rw [Nat.add_sub_cancel]

theorem Uploaded.order : counters.order e = Plan.mergeOrder op := by
  rw [Counters.order, h.channel, ← h.planId]
  rfl

end

variable {f : Entry}

theorem Uploaded.same_id (left : Uploaded site counters header plan a e)
    (right : Uploaded site counters header plan b f) (key : e.key = f.key) :
    a.opCount = b.opCount ∧ (a.opCount % 2 = 1 → a.channelId = b.channelId) := by
  obtain ⟨ptr, count⟩ := Prod.mk.inj key
  have parity : a.opCount % 2 = b.opCount % 2 := by rw [← left.parity, ← right.parity, count]
  have channel : a.opCount % 2 = 1 → a.channelId = b.channelId := by
    intro odd
    have here := left.ptr_channel odd
    rw [ptr, right.ptr_channel (by omega)] at here
    exact (Option.some.inj here).symm
  have same : (counters.translate a).opCount = (counters.translate b).opCount := by
    rw [← left.count, ← right.count, count]
  exact ⟨translate_inj same channel, channel⟩

theorem Uploaded.joins (left : Uploaded site counters header plan a e)
    (right : Uploaded site counters header plan b f) (distinct : Distinct a b) : e.Joins f := by
  intro key
  obtain ⟨ptr, -⟩ := Prod.mk.inj key
  obtain ⟨hc, -⟩ := left.same_id right key
  have ofPoint {op : ProxyOp} (hp : OfPoint site.comm site.fits op) (real : op.pattern ≠ .profiler) :=
    hp.peer.resolve_left real
  cases at_e : e.ptr with
  | own side c peer i =>
    obtain ⟨-, -, channel, real, hp⟩ := left.shape_at at_e
    obtain ⟨-, -, hc', real', hpo'⟩ := right.shape_at (ptr ▸ at_e)
    obtain ⟨odd, roots⟩ := (distinct (channel.symm.trans hc') hc).1 real real'
    obtain ⟨s, pattern, -⟩ := ofPoint (left.point odd) real
    obtain ⟨s', hp', -⟩ := ofPoint (right.point (by omega)) real'
    obtain ⟨rfl, peer_eq⟩ := hp s pattern
    obtain ⟨rfl, peer_eq'⟩ := hpo' s' hp'
    exact absurd (peer_eq.symm.trans peer_eq') (roots (pattern.trans hp'.symm))
  | localPeer side c =>
    obtain ⟨peer, hco, hsh, channel, hw, uses, hp⟩ := left.shape_at at_e
    obtain ⟨peer', hco', hs', hc', hw', uses', hpo'⟩ :=
      right.shape_at (ptr ▸ at_e)
    have real {op : ProxyOp} (uses : pointSide op = some side) : op.pattern ≠ .profiler := by
      intro profiler
      simp [pointSide, profiler] at uses
    have same_side {op : ProxyOp} {s : Side} (uses : pointSide op = some side)
        (pattern : op.pattern = sidePattern s) : s = side := by
      cases s <;> simpa [pointSide, pattern, sidePattern] using uses
    obtain ⟨odd, roots⟩ := (distinct (channel.symm.trans hc') hc).1 (real uses) (real uses')
    have pointA := left.point odd
    have pointB := right.point (by omega)
    obtain ⟨s, pattern, hf, -, fits⟩ := ofPoint pointA (real uses)
    obtain ⟨s', hp', hf', -, fits'⟩ := ofPoint pointB (real uses')
    obtain rfl := same_side uses pattern
    obtain rfl := same_side uses' hp'
    have root : peer = a.root := hp s' pattern
    have root' : peer' = b.root := hpo' s' hp'
    refine ⟨hs', ?_, ?_, ?_, ?_⟩
    · rw [hco, hco', root, root']
      intro same
      simp only [AppendPtr.own.injEq] at same
      exact roots (pattern.trans hp'.symm) same.2.2.1
    · rw [left.slices, right.slices, pointA.slices, pointB.slices]
    · rw [left.protocol, right.protocol, fits ⟨_, root ▸ hw⟩, fits' ⟨_, root' ▸ hw'⟩]
    · rw [left.function, right.function, hf, hf']
  | collNet side netDev =>
    obtain ⟨peer, hco, hsh, like⟩ := left.shape_at at_e
    obtain ⟨peer', hco', hs', like'⟩ := right.shape_at (ptr ▸ at_e)
    have even := left.even_of_collnet like
    have real {op : ProxyOp} (like : op.pattern.isCollnet = true) : op.pattern ≠ .profiler := by
      intro profiler
      simp [profiler, Pattern.isCollnet] at like
    have collA := left.coll even
    have collB := right.coll (by omega)
    refine ⟨hs', ?_, ?_⟩
    · rw [hco, hco']
      intro same
      have channel : a.channelId = b.channelId := by
        simp only [AppendPtr.own.injEq] at same
        exact same.2.1
      have := ((distinct channel hc).1 (real like) (real like')).1
      omega
    · have shares := collA.shares.trans (hc ▸ collB.shares.symm)
      obtain ⟨hs, protocol⟩ := Prod.mk.inj shares
      rw [left.slices, right.slices, left.protocol, right.protocol, left.function, right.function,
        collA.function, collB.function]
      exact ⟨hs, protocol, rfl⟩
  | profiler forRecv c =>
    obtain ⟨-, hf, channel, like⟩ := left.shape_at at_e
    obtain ⟨-, hf', hc', like'⟩ := right.shape_at (ptr ▸ at_e)
    exact absurd (hf.symm.trans hf')
      ((distinct (channel.symm.trans hc') hc).2 like like')

theorem Uploaded.shares (left : Uploaded site counters header plan a e)
    (right : Uploaded site counters header plan b f) (ptr : e.ptr = f.ptr) (different : e.connection ≠ f.connection) :
    f.shared = true ∧ ∃ side n, f.ptr = .localPeer side n ∨ f.ptr = .collNet side n := by
  cases at_f : f.ptr with
  | own side c peer i => exact absurd ((left.shape_at (ptr.trans at_f)).1.trans (right.shape_at at_f).1.symm) different
  | profiler forRecv c =>
    exact absurd ((left.shape_at (ptr.trans at_f)).1.trans (right.shape_at at_f).1.symm) different
  | localPeer side c =>
    obtain ⟨_, _, shared, _⟩ := right.shape_at at_f
    exact ⟨shared, _, _, .inl rfl⟩
  | collNet side netDev =>
    obtain ⟨_, _, shared, _⟩ := right.shape_at at_f
    exact ⟨shared, _, _, .inr rfl⟩

theorem Planned.entries_join (h : Planned site header plan) :
    (uploadEntries site counters plan).Pairwise Entry.Joins := by
  refine pairwise_flatMap.mpr ⟨?_, ?_⟩
  · intro op queued
    refine (saveOp_connections site.peered _).imp_of_mem ?_
    intro e f inE inF hd key
    have left := h.uploaded queued inE
    have right := h.uploaded queued inF
    refine ⟨(left.shares right (Prod.mk.inj key).1 hd).1, hd, ?_, ?_, ?_⟩
    · rw [left.slices, right.slices]
    · rw [left.protocol, right.protocol]
    · rw [left.function, right.function]
  · refine h.distinct.imp_of_mem ?_
    intro a b inA inB hdi e inE f inF
    exact (h.uploaded inA inE).joins (h.uploaded inB inF) hdi

theorem Planned.entries_grouped (h : Planned site header plan) :
    Grouping.Grouped Entry.key (fun e => e.op.opCount) (uploadEntries site counters plan) := by
  have sorted : (uploadEntries site counters plan).Pairwise
      fun e f => Plan.lexLe (counters.order e) (counters.order f) := by
    refine pairwise_flatMap.mpr ⟨?_, ?_⟩
    · intro op queued
      refine (pairwise_of_forall fun _ _ => trivial).imp_of_mem ?_
      intro e f inE inF _
      rw [(h.uploaded queued inE).order, (h.uploaded queued inF).order]
      exact .inr ⟨rfl, le_refl _⟩
    · refine h.sorted.imp_of_mem ?_
      intro a b inA inB before e inE f inF
      rw [(h.uploaded inA inE).order, (h.uploaded inB inF).order]
      exact before
  refine Grouping.Grouped.of_pairwise sorted ?_
  intro x inX z inZ y inY before after key
  obtain ⟨a, ofX⟩ := h.mem_entries inX
  obtain ⟨m, ofZ⟩ := h.mem_entries inZ
  obtain ⟨b, ofY⟩ := h.mem_entries inY
  rw [ofX.order, ofZ.order] at before
  rw [ofZ.order, ofY.order] at after
  obtain ⟨hc, _⟩ := ofX.same_id ofY key
  have before_coll {op : ProxyOp} {e : Entry} (of : Uploaded site counters header plan op e)
      (even : op.opCount % 2 = 0) : op.opCount < 2 * plan.collOpCount := (of.coll even).before
  have keys : Plan.mergeKey m.opCount = Plan.mergeKey a.opCount := by
    unfold Plan.lexLe Plan.mergeOrder at before after
    rw [hc] at before ⊢
    omega
  have same := mergeKey_inj h.small (before_coll ofZ) (before_coll ofX) keys
  rw [ofZ.count, ofX.count]
  refine translate_congr same fun odd => ?_
  -- On one channel the order is that of the channel, which lies between equal ones.
  unfold Plan.lexLe Plan.mergeOrder at before after
  rw [← hc] at after
  omega

theorem pointSide_pattern {side : Side} (uses : pointSide op = some side) :
    op.pattern.isCollnet = true ∨ op.pattern = .send ∨ op.pattern = .recv := by
  cases pattern : op.pattern <;> simp_all [pointSide, Pattern.isCollnet]

theorem Planned.countP_key (h : Planned site header plan) (side : Side) {key : AppendPtr × Nat} (guard : ProxyOp → Bool)
    (s : Side) (k : Nat) (meets : ∀ op e, Uploaded site counters header plan op e → e.key = key →
      (guard op && Plan.postsAt s k op) = true ∧ e.connection.side = some side) :
    (uploadEntries site counters plan).countP (fun e => decide (e.key = key)) ≤
      plan.proxyOpQueue.countP fun op => guard op && Plan.postsAt s k op := by
  refine Grouping.countP_flatMap_le ?_
  intro op queued
  have meets {e : Entry} (inE : e ∈ site.wiring.saveOp (counters.translate op)) (here : decide (e.key = key) = true) :=
    meets op e (h.uploaded queued inE) (of_decide_eq_true here)
  split
  next posted =>
    simp only [Bool.and_eq_true, Plan.postsAt, decide_eq_true_eq] at posted
    refine Grouping.countP_le_one (saveOp_sides (pointSide_pattern
      (show pointSide (counters.translate op) = some s from posted.2.1))) ?_
    intro e inE f inF hd keyE keyF
    exact hd ((meets inE keyE).2.trans (meets inF keyF).2.symm)
  next other =>
    rw [Nat.le_zero, countP_eq_zero]
    exact fun e inE key => other (meets inE key).1

theorem Planned.few_localPeer (h : Planned site header plan) (side : Side) (c k : Nat) :
    (uploadEntries site counters plan).countP (fun e => decide (e.key = (.localPeer side c, k))) ≤
      maxSubs := by
  refine le_trans (h.countP_key side (fun op => decide (op.channelId = c)) side (counters.planId c k) ?_) ?_
  · intro op e of key
    obtain ⟨ptr, count⟩ := Prod.mk.inj key
    obtain ⟨_, hc, _, hch, _, uses, _⟩ := of.shape_at ptr
    have id := of.planId
    rw [count] at id
    have uses : pointSide op = some side := uses
    exact ⟨by simp [Plan.postsAt, show op.channelId = c from hch.symm, uses, id], by rw [hc]; rfl⟩
  calc plan.proxyOpQueue.countP _
      ≤ (plan.channels c).posts side (counters.planId c k) := KernelPlan.posts_le h.ops side c _
    _ ≤ Plan.maxDevWorkP2pPerBatch := (h.ops c).few side _
    _ ≤ maxSubs := by decide

theorem Planned.few_collNet (h : Planned site header plan) (side : Side) (netDev k : Nat) :
    (uploadEntries site counters plan).countP (fun e => decide (e.key = (.collNet side netDev, k))) ≤
      maxSubs := by
  refine le_trans (h.countP_key side (fun op => decide (op.opCount % 2 = 0)) .send (k - 2 * counters.collOpCount) ?_) ?_
  · intro op e of key
    obtain ⟨ptr, count⟩ := Prod.mk.inj key
    obtain ⟨_, hc, _, like⟩ := of.shape_at ptr
    have even := of.even_of_collnet like
    have id := of.planId
    rw [Counters.planId, of.parity, if_neg (by omega), count] at id
    have uses : pointSide op = some .send := by
      replace like : op.pattern.isCollnet = true := like
      cases hp : op.pattern <;> simp_all [pointSide, Pattern.isCollnet]
    exact ⟨by simp [Plan.postsAt, uses, even, ← id], by rw [hc]; rfl⟩
  -- One op of a collective for each channel.
  rw [plan.proxyOpQueue_perm.countP_eq, KernelPlan.queues, countP_flatten, map_map]
  refine le_trans (sum_le_card_nsmul _ 1 ?_) (by simp [maxSubs])
  intro n mem
  obtain ⟨c, -, rfl⟩ := mem_map.mp mem
  by_cases even : (k - 2 * counters.collOpCount) % 2 = 0
  · refine le_trans (countP_mono_left ?_) ((h.ops c).single .send _ even)
    intro op _ both
    simp only [Bool.and_eq_true] at both
    exact both.2
  · refine le_of_eq_of_le (countP_eq_zero.mpr ?_) (Nat.zero_le 1)
    intro op _ both
    simp only [Bool.and_eq_true, Plan.postsAt, decide_eq_true_eq] at both
    omega

theorem Planned.few (h : Planned site header plan) (k : AppendPtr × Nat) :
    (uploadEntries site counters plan).countP (fun e => decide (e.key = k)) ≤ maxSubs := by
  have alone (ptr : ∀ side n, k.1 ≠ .localPeer side n ∧ k.1 ≠ .collNet side n) :
      (uploadEntries site counters plan).countP (fun e => decide (e.key = k)) ≤ maxSubs := by
    refine le_trans (Grouping.countP_le_one h.entries_join ?_) (by decide)
    intro e inE f inF joins keyE keyF
    obtain ⟨_, ofE⟩ := h.mem_entries inE
    obtain ⟨_, ofF⟩ := h.mem_entries inF
    have key := (of_decide_eq_true keyE).trans (of_decide_eq_true keyF).symm
    obtain ⟨-, side, n, shared⟩ := ofE.shares ofF (Prod.mk.inj key).1 (joins key).2.1
    rw [show f.ptr = k.1 from congrArg Prod.fst (of_decide_eq_true keyF)] at shared
    exact shared.elim (ptr side n).1 (ptr side n).2
  obtain ⟨ptr, k⟩ := k
  cases ptr with
  | localPeer side c => exact h.few_localPeer side c k
  | collNet side netDev => exact h.few_collNet side netDev k
  | own side c peer i => exact alone fun _ _ => ⟨nofun, nofun⟩
  | profiler forRecv c => exact alone fun _ _ => ⟨nofun, nofun⟩

structure Entry.Below (counters : Counters) (e : Entry) : Prop where
  coll : e.op.opCount % 2 = 0 → e.op.opCount < 2 * counters.collOpCount
  point : e.op.opCount % 2 = 1 → ∃ c, e.ptr.channel = some c ∧ e.op.opCount < 2 * counters.p2pOpCount c

theorem Uploaded.key_ne (of : Uploaded site counters header plan op f) (earlier : e.Below counters) :
    e.key ≠ f.key := by
  intro key
  obtain ⟨ptr, _⟩ := Prod.mk.inj key
  have count := of.count
  simp only [Counters.translate] at count
  rcases Nat.mod_two_eq_zero_or_one e.op.opCount with even | odd
  · have := earlier.coll even
    rw [if_neg (by omega)] at count
    omega
  · obtain ⟨c, hc, _⟩ := earlier.point odd
    rw [ptr, of.ptr_channel (by omega)] at hc
    cases hc
    rw [if_pos (by omega)] at count
    omega

theorem Entry.Below.mono {counters counters' : Counters} (h : e.Below counters)
    (colls : counters.collOpCount ≤ counters'.collOpCount)
    (points : ∀ c, counters.p2pOpCount c ≤ counters'.p2pOpCount c) : e.Below counters' := by
  refine ⟨?_, ?_⟩
  · intro even
    have := h.coll even
    omega
  · intro odd
    obtain ⟨c, hc, _⟩ := h.point odd
    have := points c
    exact ⟨c, hc, by omega⟩

theorem Planned.entries_below (h : Planned site header plan) (mem : e ∈ uploadEntries site counters plan) :
    e.Below (counters.next plan) := by
  obtain ⟨_, of⟩ := h.mem_entries mem
  have low : (counters.translate _).opCount < _ := h.below_floor of.queued
  rw [← of.count, Counters.floor, ← of.parity] at low
  refine ⟨?_, ?_⟩
  · intro even
    rwa [if_neg (by omega)] at low
  · intro odd
    rw [if_pos odd] at low
    exact ⟨_, of.ptr_channel (by rw [← of.parity, odd]), low⟩

theorem planned_of_built {persistent : Bool} {tasks rest : Plan.Tasks}
    (sends : ∀ r, ∀ t ∈ tasks.p2ps.send r,
      site.fits .send r (Plan.toProxyProtocol t.direction.protocol))
    (recvs : ∀ r, ∀ t ∈ tasks.p2ps.recv r,
      site.fits .recv r (Plan.toProxyProtocol t.direction.protocol))
    (built : Plan.buildPlan site.comm (Plan.planBudget site.comm persistent) tasks = some (plan, rest))
    (single : OneProfilerOp plan) : ∃ header, Planned site header plan := by
  obtain ⟨hs, header, hl⟩ := Plan.buildPlan_lines site.regular sends recvs built
  exact ⟨header, ⟨hl, Plan.buildPlan_ops built, hs⟩, single⟩

def opCounts (counters : Counters) : List KernelPlan → List (List (ProxyOp × Nat))
  | [] => []
  | plan :: rest =>
    (plan.proxyOpQueue.map fun op => (op, (counters.translate op).opCount)) :: opCounts (counters.next plan) rest

theorem floor_le (counters : Counters) (plans : List KernelPlan) :
    ∀ upload ∈ opCounts counters plans, ∀ x ∈ upload, counters.floor x.1 ≤ x.2 := by
  induction plans generalizing counters with
  | nil => simp [opCounts]
  | cons plan rest ih =>
    refine forall_mem_cons.mpr ⟨?_, ?_⟩
    · rw [forall_mem_map]
      intro op _
      exact Nat.le_add_left _ _
    · intro upload later x mem
      refine le_trans ?_ (ih (counters.next plan) upload later x mem)
      simp only [Counters.floor, Counters.next]
      split <;> omega

structure BuiltPlan where
  comm : Plan.Comm
  regular : comm.Regular
  persistent : Bool
  tasks : Plan.Tasks
  rest : Plan.Tasks
  plan : KernelPlan
  built : Plan.buildPlan comm (Plan.planBudget comm persistent) tasks = some (plan, rest)

theorem BuiltPlan.ordered (b : BuiltPlan) : ∃ header, Ordered b.comm (fun _ _ _ => True) header b.plan := by
  have lines : _ ∧ ∃ header, ∀ c, Plan.Line b.comm (fun _ _ _ => True) header b.plan.collOpCount (b.plan.channels c) :=
    Plan.buildPlan_lines b.regular (fun _ _ _ => trivial) (fun _ _ _ => trivial) b.built
  obtain ⟨hs, header, lines⟩ := lines
  exact ⟨header, lines, Plan.buildPlan_ops b.built, hs⟩

end

end Vccl.Proxy
