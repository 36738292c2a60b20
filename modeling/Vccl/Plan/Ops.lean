import Vccl.Plan.Schedule

/-! The proxy-op queues of a plan: how many ops of one channel, direction and `opCount` there
are. The progress thread makes one args of those that share a connection. -/
namespace Vccl.Plan

open List Function
open Proxy (ProxyOp Side)

def pointSide (op : ProxyOp) : Option Side :=
  match op.pattern with
  | .send | .collnetChain | .collnetDirect | .nvls => some .send
  | .recv => some .recv
  | _ => none

def postsAt (side : Side) (k : Nat) (op : ProxyOp) : Bool :=
  decide (pointSide op = some side ∧ op.opCount = k)

def WipChannel.posts (chan : WipChannel) (side : Side) (k : Nat) : Nat :=
  chan.proxyOps.countP (postsAt side k)

structure CollOps (c K : Nat) (chan : WipChannel) : Prop where
  home : ∀ op ∈ chan.proxyOps, op.channelId = c ∧ op.opCount % 2 = 0
  rounds : chan.wipRounds = []
  few : ∀ side k, chan.posts side k ≤ 1
  past : ∀ side k, chan.posts side k ≠ 0 → k % 2 = 0 ∧ k < 2 * K

structure P2pOps (c : Nat) (chan : WipChannel) : Prop where
  home : ∀ op ∈ chan.proxyOps, op.channelId = c ∧ (op.opCount % 2 = 1 → op.sliceSteps = 1)
  rounds : chan.wipRounds.length ≤ maxDevWorkP2pPerBatch
  few : ∀ side k, chan.posts side k ≤ maxDevWorkP2pPerBatch
  single : ∀ side k, k % 2 = 0 → chan.posts side k ≤ 1
  current : ∀ side, chan.posts side (2 * chan.nWorkBatchesP2p + 1) ≤ chan.wipRounds.length
  later : ∀ side j, chan.nWorkBatchesP2p < j → chan.posts side (2 * j + 1) = 0

variable {c K : Nat} {chan : WipChannel}

theorem CollOps.toP2pOps (h : CollOps c K chan) : P2pOps c chan := by
  have odd : ∀ side j, chan.posts side (2 * j + 1) = 0 := by
    intro side j
    by_contra some'
    have := (h.past side (2 * j + 1) some').1
    omega
  refine ⟨?_, by simp [h.rounds], ?_, fun side k _ => h.few side k, ?_, fun side j _ => odd side j⟩
  · intro op mem
    obtain ⟨hc, _⟩ := h.home op mem
    exact ⟨hc, fun odd => by omega⟩
  · intro side k
    exact le_trans (h.few side k) (by decide)
  · intro side
    rw [odd side]
    exact Nat.zero_le _

theorem CollOps.mono {L : Nat} (h : CollOps c K chan) (more : K ≤ L) :
    CollOps c L chan := by
  refine ⟨h.home, h.rounds, h.few, ?_⟩
  intro side k some'
  obtain ⟨even, _⟩ := h.past side k some'
  exact ⟨even, by omega⟩

theorem CollOps.empty (c : Nat) : CollOps c 0 .empty :=
  ⟨by simp [WipChannel.empty], rfl, fun _ _ => by simp [WipChannel.posts, WipChannel.empty],
    fun _ _ some' => absurd rfl some'⟩

def enqueue (comm : Comm) (op : ProxyOp) (chan : WipChannel) : WipChannel :=
  { chan with
    proxyOps := Proxy.addProfilerProxyOpIfNeeded comm.toComm op
      (Proxy.addProxyOpIfNeeded comm.toComm op chan.proxyOps) }

theorem addProxyOps_channels (comm : Comm) (plan : KernelPlan) (op : ProxyOp) (i : Nat) :
    (addProxyOps comm plan op).channels i =
      if i = op.channelId then enqueue comm op (plan.channels op.channelId) else plan.channels i :=
  rfl

variable {comm : Comm} {op : ProxyOp}

theorem enqueue_proxyOps (comm : Comm) (op : ProxyOp) (chan : WipChannel) :
    ∃ added : List ProxyOp, (enqueue comm op chan).proxyOps = chan.proxyOps ++ added ∧
      added.Sublist [op, { op with pattern := .profiler }] := by
  have append (added : ProxyOp) (queue : List ProxyOp) : ∃ new : List ProxyOp,
      Proxy.addProxyOpIfNeeded comm.toComm added queue = queue ++ new ∧ new.Sublist [added] := by
    unfold Proxy.addProxyOpIfNeeded
    split
    · exact ⟨[], by simp, nil_sublist _⟩
    · exact ⟨[added], rfl, Sublist.refl _⟩
  obtain ⟨first, hf, sf⟩ := append op chan.proxyOps
  obtain ⟨second, hs, ss⟩ := append { op with pattern := .profiler } (chan.proxyOps ++ first)
  refine ⟨first ++ second, ?_, sf.append ss⟩
  rw [← append_assoc, ← hs, ← hf]
  rfl

theorem enqueue_home {good : ProxyOp → Prop} (here : good op) (profiler : good { op with pattern := .profiler })
    (home : ∀ op ∈ chan.proxyOps, good op) : ∀ op' ∈ (enqueue comm op chan).proxyOps, good op' := by
  obtain ⟨_, hq, hi⟩ := enqueue_proxyOps comm op chan
  have both : ∀ op' ∈ [op, { op with pattern := .profiler }], good op' := by
    simp [here, profiler]
  rw [hq]
  exact forall_mem_append.mpr ⟨home, fun op' mem => both op' (hi.subset mem)⟩

theorem enqueue_posts (comm : Comm) (op : ProxyOp) (chan : WipChannel) (side : Side) (k : Nat) :
    (enqueue comm op chan).posts side k ≤ chan.posts side k + (postsAt side k op).toNat := by
  obtain ⟨_, hq, hi⟩ := enqueue_proxyOps comm op chan
  have both : [op, { op with pattern := .profiler }].countP (postsAt side k) = (postsAt side k op).toNat := by
    have profiler : postsAt side k { op with pattern := .profiler } = false := by
      simp [postsAt, pointSide]
    cases h : postsAt side k op <;> simp [h, profiler]
  rw [WipChannel.posts, hq, countP_append, ← both]
  exact Nat.add_le_add_left hi.countP_le _

variable {workType : WorkType}

theorem addWorkBatch_rounds_coll (coll : workType ≠ .p2p) (none : chan.wipRounds = []) (fn : DevFunc)
    (workOffset p2pRound : Nat) :
    (addWorkBatch chan workType fn workOffset p2pRound).1.wipRounds = [] := by
  simp [addWorkBatch, if_neg coll, none]

variable {p2pRound : Nat}

theorem CollOps.add {fn : DevFunc} {workOffset : Nat} (h : CollOps c K chan) (coll : workType ≠ .p2p)
    (here : op.channelId = c) (count : op.opCount = 2 * K) :
    CollOps c (K + 1) (enqueue comm op (addWorkBatch chan workType fn workOffset p2pRound).1) := by
  have most (side : Side) (k : Nat) :
      (enqueue comm op (addWorkBatch chan workType fn workOffset p2pRound).1).posts side k ≤
        chan.posts side k + if k = 2 * K then 1 else 0 := by
    refine le_trans (enqueue_posts comm op _ side k) (Nat.add_le_add_left ?_ _)
    simp only [postsAt, @eq_comm _ _ k]
    split
    · exact Bool.toNat_le _
    · simp_all
  have even : op.channelId = c ∧ op.opCount % 2 = 0 := ⟨here, by omega⟩
  refine ⟨enqueue_home even even h.home,
    addWorkBatch_rounds_coll coll h.rounds fn workOffset p2pRound, ?_, ?_⟩
  · intro side k
    have := h.few side k
    have := h.past side k
    grind
  · intro side k some'
    have := h.past side k
    grind

theorem addCollChannels_channels (comm : Comm) (task : CollTask) (opOf : Nat → ProxyOp)
    (plan : KernelPlan) (lo n c : Nat) :
    (addCollChannels comm task opOf plan lo n).channels c =
      if lo ≤ c ∧ c < lo + n then enqueue comm (collProxyOp task plan c (opOf c))
        (addWorkBatch (plan.channels c) task.workType task.fn plan.workBytes 0).1
      else plan.channels c := by
  have walk (n : Nat) : ∀ (lo : Nat) (wip : KernelPlan),
      ((range' lo n).foldl (fun wip c =>
        addProxyOps comm (addWorkBatchToPlan wip c task.workType task.fn plan.workBytes 0)
          (collProxyOp task plan c (opOf c))) wip).channels c =
      if lo ≤ c ∧ c < lo + n then enqueue comm (collProxyOp task plan c (opOf c))
        (addWorkBatch (wip.channels c) task.workType task.fn plan.workBytes 0).1
      else wip.channels c := by
    induction n with
    | zero =>
      intro lo wip
      rw [if_neg (by omega)]
      rfl
    | succ n ih =>
      intro lo wip
      rw [range'_succ, foldl_cons, ih, addProxyOps_channels]
      by_cases here : c = lo
      · subst here
        have inside : c ≤ c ∧ c < c + (n + 1) := by omega
        rw [if_pos inside]
        simp [collProxyOp, addWorkBatchToPlan, KernelPlan.setChannel]
      · have other : (addWorkBatchToPlan wip lo task.workType task.fn plan.workBytes 0).channels c =
            wip.channels c := if_neg here
        rw [if_neg (show c ≠ (collProxyOp task plan lo (opOf lo)).channelId from here), other]
        simp only [show lo + 1 ≤ c ∧ c < lo + 1 + n ↔ lo ≤ c ∧ c < lo + (n + 1) by omega]
  exact walk n lo plan

variable {plan : KernelPlan}

theorem addCollChannels_ops {task : CollTask} {opOf : Nat → ProxyOp} (lo n : Nat)
    (h : ∀ c, CollOps c plan.collOpCount (plan.channels c)) :
    ∀ c, CollOps c (plan.collOpCount + 1) ((addCollChannels comm task opOf plan lo n).channels c) := by
  intro c
  rw [addCollChannels_channels]
  split
  · exact (h c).add task.collWork rfl rfl
  · exact (h c).mono (Nat.le_succ _)

theorem addWorkBatch_p2p (chan : WipChannel) (fn : DevFunc) (workOffset p2pRound : Nat) :
    ∃ chan', (addWorkBatch chan .p2p fn workOffset p2pRound).1 = chan' ∧ chan'.proxyOps = chan.proxyOps ∧
      (chan'.nWorkBatchesP2p = chan.nWorkBatchesP2p + 1 ∧ chan'.wipRounds = [p2pRound] ∨
        chan'.nWorkBatchesP2p = chan.nWorkBatchesP2p ∧ chan'.wipRounds = chan.wipRounds ++ [p2pRound] ∧
          chan.wipRounds.length ≠ maxDevWorkP2pPerBatch ∧ p2pRound ∉ chan.wipRounds) := by
  refine ⟨_, rfl, rfl, ?_⟩
  cases hf : newBatch chan .p2p fn p2pRound with
  | true => exact .inl (by simp [addWorkBatch, hf])
  | false =>
    refine .inr ⟨by simp [addWorkBatch, hf], by simp [addWorkBatch, hf], ?_⟩
    unfold newBatch at hf
    split at hf
    · contradiction
    · simp at hf
      exact hf.2

theorem P2pOps.addBatch (h : P2pOps c chan) (fn : DevFunc) (workOffset p2pRound : Nat) :
    P2pOps c (addWorkBatch chan .p2p fn workOffset p2pRound).1 ∧
      ∀ side, (addWorkBatch chan .p2p fn workOffset p2pRound).1.posts side
          (2 * (addWorkBatch chan .p2p fn workOffset p2pRound).1.nWorkBatchesP2p + 1) + 1 ≤
        (addWorkBatch chan .p2p fn workOffset p2pRound).1.wipRounds.length := by
  obtain ⟨chan', made, hq, cases⟩ := addWorkBatch_p2p chan fn workOffset p2pRound
  rw [made]
  have same : ∀ side k, chan'.posts side k = chan.posts side k := fun _ _ => by
    simp [WipChannel.posts, hq]
  suffices others : chan.nWorkBatchesP2p ≤ chan'.nWorkBatchesP2p ∧ chan'.wipRounds.length ≤ maxDevWorkP2pPerBatch ∧
      ∀ side, chan'.posts side (2 * chan'.nWorkBatchesP2p + 1) + 1 ≤ chan'.wipRounds.length by
    obtain ⟨_, hbo, room⟩ := others
    refine ⟨⟨hq ▸ h.home, hbo, ?_, ?_, fun side => Nat.le_of_succ_le (room side), ?_⟩, room⟩
    all_goals simp only [same]
    · exact h.few
    · exact h.single
    · exact fun side j after => h.later side j (by omega)
  rcases cases with ⟨hb, hr⟩ | ⟨hb, hr, _, -⟩
  all_goals simp only [same, hb, hr, length_append, length_singleton]
  · refine ⟨Nat.le_succ _, by decide, fun side => ?_⟩
    rw [h.later side _ (Nat.lt_succ_self _)]
  · have limit := h.rounds
    exact ⟨le_refl _, by omega, fun side => Nat.add_le_add_right (h.current side) 1⟩

theorem P2pOps.addOp (comm : Comm) {side : Side} (h : P2pOps c chan) (here : op.channelId = c)
    (slices : op.sliceSteps = 1) (point : pointSide op = some side)
    (count : op.opCount = 2 * chan.nWorkBatchesP2p + 1)
    (room : chan.posts side (2 * chan.nWorkBatchesP2p + 1) + 1 ≤ chan.wipRounds.length) :
    P2pOps c (enqueue comm op chan) ∧ ∀ other ≠ side, ∀ k,
      (enqueue comm op chan).posts other k ≤ chan.posts other k := by
  have most (other : Side) (k : Nat) : (enqueue comm op chan).posts other k ≤ chan.posts other k +
      if other = side ∧ k = 2 * chan.nWorkBatchesP2p + 1 then 1 else 0 := by
    refine le_trans (enqueue_posts comm op chan other k) (Nat.add_le_add_left ?_ _)
    simp only [postsAt, @eq_comm _ _ k]
    split <;> simp_all
  have limit := h.rounds
  have good : op.channelId = c ∧ (op.opCount % 2 = 1 → op.sliceSteps = 1) := ⟨here, fun _ => slices⟩
  refine ⟨⟨enqueue_home good good h.home, h.rounds, ?_, ?_, ?_, ?_⟩, ?_⟩
  · intro other k
    have := h.few other k
    grind
  · intro other k even
    have := h.single other k even
    grind
  · intro other
    have := h.current other
    change (enqueue comm op chan).posts other (2 * chan.nWorkBatchesP2p + 1) ≤ chan.wipRounds.length
    grind
  · intro other j ha
    have := h.later other j ha
    change chan.nWorkBatchesP2p < j at ha
    grind
  · intro other hd k
    grind

theorem partProxyOp_some {side : Side} {task : P2pTask} {root k part : Nat}
    (made : partProxyOp side task root c k part = some op) :
    op.channelId = c ∧ op.opCount = k ∧ op.sliceSteps = 1 ∧ pointSide op = some side := by
  unfold partProxyOp at made
  split at made
  · contradiction
  split at made
  · contradiction
  · obtain rfl := Option.some.inj made
    cases side with
    | send => exact ⟨rfl, rfl, rfl, rfl⟩
    | recv => exact ⟨rfl, rfl, rfl, rfl⟩

/-! A part on its channel. -/

def partOp (comm : Comm) (side : Side) (root part c : Nat) (chan : WipChannel) : Option P2pTask → WipChannel
  | none => chan
  | some task =>
    match partProxyOp side task root c (2 * chan.nWorkBatchesP2p + 1) part with
    | none => chan
    | some op => enqueue comm op chan

def partChannel (comm : Comm) (workOffset p2pRound sendRank recvRank : Nat) (send recv : Option P2pTask)
    (part c : Nat) (chan : WipChannel) : WipChannel :=
  let batched := (addWorkBatch chan .p2p .sendRecv workOffset p2pRound).1
  if sendRank = comm.rank then batched
  else partOp comm .send sendRank part c (partOp comm .recv recvRank part c batched recv) send

theorem addPartOp_channels (comm : Comm) (side : Side) (root part c : Nat) (plan : KernelPlan) (task : Option P2pTask) :
    (addPartOp comm side root part c plan task).channels =
      update plan.channels c (partOp comm side root part c (plan.channels c) task) := by
  unfold addPartOp partOp
  cases task with
  | none => simp
  | some task =>
    cases made : partProxyOp side task root c (2 * (plan.channels c).nWorkBatchesP2p + 1) part with
    | none => simp [made]
    | some op =>
      funext i
      simp [made, addProxyOps_channels, (partProxyOp_some made).1, update_apply]

theorem addP2pToPlan_channels {sendRank recvRank : Nat} {send recv : Option P2pTask} (good : Nat → WipChannel → Prop)
    (keeps : ∀ part c chan, good c chan →
      good c (partChannel comm plan.workBytes p2pRound sendRank recvRank send recv part c chan))
    (h : ∀ i, good i (plan.channels i)) :
    ∀ i, good i ((addP2pToPlan comm plan p2pRound sendRank recvRank send recv).channels i) := by
  have one (wip : KernelPlan) (part : Nat) :
      ∃ c, (addP2pPart comm plan.workBytes p2pRound sendRank recvRank send recv wip part).channels =
        update wip.channels c
          (partChannel comm plan.workBytes p2pRound sendRank recvRank send recv part c (wip.channels c)) := by
    unfold addP2pPart partChannel
    generalize p2pChannelForPart comm.p2pnChannels (p2pChannelBaseForRound comm p2pRound) part = c
    have batched : (addWorkBatchToPlan { wip with channelMask := wip.channelMask ||| 1 <<< c } c .p2p .sendRecv
        plan.workBytes p2pRound).channels = update wip.channels c
          (addWorkBatch (wip.channels c) .p2p .sendRecv plan.workBytes p2pRound).1 := by
      funext i
      simp [addWorkBatchToPlan, KernelPlan.setChannel, update_apply]
    refine ⟨c, ?_⟩
    split <;> simp [addPartOp_channels, batched]
  unfold addP2pToPlan
  generalize range (max (dirChannels recv) (dirChannels send)) = parts
  have fold : ∀ wip : KernelPlan, (∀ i, good i (wip.channels i)) → ∀ i, good i
      ((parts.foldl (addP2pPart comm plan.workBytes p2pRound sendRank recvRank send recv)
        wip).channels i) := by
    induction parts with
    | nil => exact fun _ kept => kept
    | cons part rest ih =>
      intro wip kept
      refine ih _ fun i => ?_
      obtain ⟨c, same⟩ := one wip part
      rw [same, update_apply]
      split
      next here =>
        exact here ▸ keeps part c _ (kept c)
      · exact kept i
  exact fold _ h

theorem P2pOps.partOp (comm : Comm) {side : Side} (root part : Nat) (task : Option P2pTask) (h : P2pOps c chan)
    (room : chan.posts side (2 * chan.nWorkBatchesP2p + 1) + 1 ≤ chan.wipRounds.length) :
    P2pOps c (partOp comm side root part c chan task) ∧
      (partOp comm side root part c chan task).nWorkBatchesP2p = chan.nWorkBatchesP2p ∧
      (partOp comm side root part c chan task).wipRounds = chan.wipRounds ∧
      ∀ other ≠ side, ∀ k, (partOp comm side root part c chan task).posts other k ≤ chan.posts other k := by
  unfold Plan.partOp
  cases task with
  | none => exact ⟨h, rfl, rfl, fun _ _ _ => le_refl _⟩
  | some task =>
    simp only
    split
    · exact ⟨h, rfl, rfl, fun _ _ _ => le_refl _⟩
    next op made =>
      obtain ⟨here, hc, hs, hp⟩ := partProxyOp_some made
      obtain ⟨kept, others⟩ := P2pOps.addOp comm h here hs hp hc room
      exact ⟨kept, rfl, rfl, others⟩

theorem addP2pToPlan_ops {sendRank recvRank : Nat} {send recv : Option P2pTask} (h : ∀ i, P2pOps i (plan.channels i)) :
    ∀ i, P2pOps i ((addP2pToPlan comm plan p2pRound sendRank recvRank send recv).channels i) := by
  refine addP2pToPlan_channels _ (fun part c chan start => ?_) h
  obtain ⟨hb, room⟩ := start.addBatch .sendRecv plan.workBytes p2pRound
  unfold partChannel
  split
  · exact hb
  · obtain ⟨hr, hba, hro, others⟩ := hb.partOp comm recvRank part recv (room .recv)
    refine (hr.partOp comm sendRank part send ?_).1
    rw [hba, hro]
    exact le_trans (Nat.add_le_add_right (others .send (by decide) _) 1) (room .send)

/-- The id with its tag bit moved to the top, which orders collectives before p2ps. -/
def mergeKey (opCount : Nat) : Nat := opCount / 2 + opCount % 2 * 2 ^ 63

def leastHead : Nat → List (List ProxyOp) → Option (Nat × Nat) → Option (Nat × Nat)
  | _, [], least => least
  | c, [] :: rest, least => leastHead (c + 1) rest least
  | c, (op :: _) :: rest, least =>
    let id := mergeKey op.opCount
    leastHead (c + 1) rest
      (match least with
      | none => some (c, id)
      | some (_, minId) => if id < minId then some (c, id) else least)

def mergeOps : Nat → List (List ProxyOp) → List ProxyOp
  | 0, _ => []
  | nOps + 1, queues =>
    match leastHead 0 queues none with
    | none => []
    | some (c, _) =>
      match queues[c]? with
      | some (op :: rest) => op :: mergeOps nOps (queues.set c rest)
      | _ => []

def KernelPlan.queues (plan : KernelPlan) : List (List ProxyOp) :=
  (range maxChannels).map fun c => (plan.channels c).proxyOps

/-- The queue `finishPlan` merges; `proxyOpCnt` is its length. -/
def KernelPlan.proxyOpQueue (plan : KernelPlan) : List ProxyOp :=
  mergeOps plan.queues.flatten.length plan.queues

variable {queues : List (List ProxyOp)} {least : Option (Nat × Nat)}

theorem leastHead_some {first : Nat} {id : Nat} (found : leastHead first queues least = some (c, id)) :
    least = some (c, id) ∨ ∃ op rest, first ≤ c ∧ queues[c - first]? = some (op :: rest) ∧
      id = mergeKey op.opCount := by
  induction queues generalizing first least with
  | nil => exact .inl found
  | cons queue others ih =>
    have shift : first + 1 ≤ c → (queue :: others)[c - first]? = others[c - (first + 1)]? := by
      intro ha
      have : c - first = c - (first + 1) + 1 := by omega
      rw [this, getElem?_cons_succ]
    cases queue with
    | nil =>
      rcases ih found with same | ⟨op, tail, ha, head, key⟩
      · exact .inl same
      · exact .inr ⟨op, tail, by omega, by rw [shift ha]; exact head, key⟩
    | cons op tail =>
      rcases ih found with same | ⟨op', tail', ha, head, key⟩
      · have here : some (first, mergeKey op.opCount) = some (c, id) → ∃ op' rest', first ≤ c ∧
            ((op :: tail) :: others)[c - first]? = some (op' :: rest') ∧ id = mergeKey op'.opCount := by
          intro same
          obtain ⟨rfl, rfl⟩ := same
          exact ⟨op, tail, le_refl _, by simp, rfl⟩
        split at same
        · exact .inr (here same)
        · split at same
          · exact .inr (here same)
          · exact .inl same
      · exact .inr ⟨op', tail', by omega, by rw [shift ha]; exact head, key⟩

theorem leastHead_none {first : Nat} (found : leastHead first queues least = none) :
    least = none ∧ queues.flatten = [] := by
  induction queues generalizing first least with
  | nil => exact ⟨found, rfl⟩
  | cons queue rest ih =>
    cases queue with
    | nil =>
      obtain ⟨start, hb⟩ := ih found
      exact ⟨start, by simpa using hb⟩
    | cons op tail =>
      obtain ⟨start, -⟩ := ih found
      cases least with
      | none => simp at start
      | some old =>
        simp only at start
        split at start <;> contradiction

theorem flatten_set_perm {rest : List ProxyOp} (head : queues[c]? = some (op :: rest)) :
    queues.flatten.Perm (op :: (queues.set c rest).flatten) := by
  induction queues generalizing c with
  | nil => simp at head
  | cons queue others ih =>
    cases c with
    | zero =>
      simp only [getElem?_cons_zero, Option.some.injEq] at head
      subst head
      simp
    | succ c =>
      exact ((ih head).append_left queue).trans perm_middle

theorem mergeOps_turn {nOps : Nat} {queues : List (List ProxyOp)} (count : queues.flatten.length = nOps + 1) :
    ∃ c id op rest, leastHead 0 queues none = some (c, id) ∧ queues[c]? = some (op :: rest) ∧
      mergeOps (nOps + 1) queues = op :: mergeOps nOps (queues.set c rest) ∧
      queues.flatten.Perm (op :: (queues.set c rest).flatten) ∧ (queues.set c rest).flatten.length = nOps := by
  cases hf : leastHead 0 queues none with
  | none => simp [(leastHead_none hf).2] at count
  | some at' =>
    obtain ⟨c, id⟩ := at'
    obtain ⟨op, rest, -, head, -⟩ := (leastHead_some hf).resolve_left (by simp)
    rw [Nat.sub_zero] at head
    have perm := flatten_set_perm head
    refine ⟨c, id, op, rest, rfl, head, by simp [mergeOps, hf, head], perm, ?_⟩
    have := perm.length_eq
    simp only [length_cons] at this
    omega

theorem mergeOps_perm (nOps : Nat) (queues : List (List ProxyOp)) (count : queues.flatten.length = nOps) :
    (mergeOps nOps queues).Perm queues.flatten := by
  induction nOps generalizing queues with
  | zero =>
    rw [length_eq_zero_iff.mp count]
    exact Perm.refl _
  | succ nOps ih =>
    obtain ⟨c, -, op, _, -, -, turn, perm, left⟩ := mergeOps_turn count
    rw [turn]
    exact ((ih _ left).cons op).trans perm.symm

theorem KernelPlan.proxyOpQueue_perm (plan : KernelPlan) :
    plan.proxyOpQueue.Perm plan.queues.flatten :=
  mergeOps_perm _ _ rfl

theorem sum_map_le_of_single {f : Nat → Nat} {xs : List Nat} (distinct : xs.Nodup)
    (others : ∀ x ∈ xs, x ≠ c → f x = 0) : (xs.map f).sum ≤ f c := by
  induction xs with
  | nil => exact Nat.zero_le _
  | cons x rest ih =>
    obtain ⟨ha, distinct⟩ := nodup_cons.mp distinct
    rw [map_cons, sum_cons]
    by_cases here : x = c
    · subst here
      have none : (rest.map f).sum = 0 := by
        rw [sum_eq_zero_iff]
        intro n mem
        obtain ⟨y, ht, rfl⟩ := mem_map.mp mem
        exact others y (by simp [ht]) (fun same => ha (same ▸ ht))
      omega
    · have later := ih distinct (fun y ht => others y (by simp [ht]))
      rw [others x (by simp) here]
      omega

theorem KernelPlan.posts_le (ops : ∀ c, P2pOps c (plan.channels c)) (side : Side) (c k : Nat) :
    plan.proxyOpQueue.countP (fun op => decide (op.channelId = c) && postsAt side k op) ≤
      (plan.channels c).posts side k := by
  rw [plan.proxyOpQueue_perm.countP_eq, countP_flatten, KernelPlan.queues, map_map]
  have most : (plan.channels c).proxyOps.countP
      (fun op => decide (op.channelId = c) && postsAt side k op) ≤ (plan.channels c).posts side k := by
    apply countP_mono_left
    intro op _ both
    simp only [Bool.and_eq_true] at both
    exact both.2
  refine le_trans (sum_map_le_of_single (c := c) nodup_range ?_) most
  intro i _ hd
  rw [comp_apply, countP_eq_zero]
  intro op mem
  have elsewhere : op.channelId ≠ c := by
    rw [((ops i).home op mem).1]
    exact hd
  simp [elsewhere]

theorem KernelPlan.queued_slices (ops : ∀ c, P2pOps c (plan.channels c)) :
    ∀ op ∈ plan.proxyOpQueue, op.opCount % 2 = 1 → op.sliceSteps = 1 := by
  intro op mem
  obtain ⟨_, ht, here⟩ := mem_flatten.mp (plan.proxyOpQueue_perm.mem_iff.mp mem)
  obtain ⟨c, -, rfl⟩ := mem_map.mp ht
  exact ((ops c).home op here).2

end Vccl.Plan
