import Vccl.Failover.Flags

/-! The keys of the work requests. A key recorded with a request or sent with an entry is used
later, on a QP chosen then: it fits if the mode of the entry has not changed in between. -/
namespace Vccl.Failover

open List Transition Option
open Ib (maxRequests maxRecvs)

variable {cfg : Config}

/-- Both keys are registered on the devices of the QP, the local one on this end and the remote one
on the other. -/
structure WorkRequest.Valid (cfg : Config) (wr : WorkRequest) : Prop where
  lkey : ∀ key, wr.lkey = some key → key = some (cfg.localDevice wr.path)
  rkey : wr.rkey = some (cfg.remoteDevice wr.path)

/-- The ends have the same number of devices, with fault tolerance one or two and as many backups,
which can flush if the devices can. -/
structure Paired (cfg : Config) : Prop where
  same : cfg.send.ndevs = cfg.recv.ndevs
  backups : cfg.faultTolerance = true →
    cfg.recv.ndevs ≤ 2 ∧ cfg.send.backupNdevs = cfg.recv.ndevs ∧ cfg.recv.backupNdevs = cfg.recv.ndevs
  flush : cfg.faultTolerance = true → cfg.flushEnabled = true → cfg.backupFlushEnabled = true

theorem Paired.small (h : Paired cfg) : Small cfg :=
  fun on => ⟨h.same ▸ (h.backups on).1, (h.backups on).1⟩

variable {qp : Qp}

theorem Paired.deviceOf (h : Paired cfg) (side : Side) (real : qp.backup = true → cfg.faultTolerance = true) :
    cfg.deviceOf side qp = ⟨side, qp.backup, qp.index % cfg.recv.ndevs⟩ := by
  cases mode : qp.backup with
  | false => cases side <;> simp [Config.deviceOf, Config.at, mode, h.same]
  | true =>
    obtain ⟨-, send, recv⟩ := h.backups (real mode)
    cases side <;> simp [Config.deviceOf, Config.at, mode, send, recv]

variable {i : Nat}

theorem Paired.key (h : Paired cfg) {side : Side} {backup : Bool} (real : backup = true → cfg.faultTolerance = true)
    (bound : i < cfg.recv.ndevs) :
    cfg.key ⟨side, backup, i⟩ = some ⟨side, backup, i⟩ := by
  apply if_pos
  refine ⟨?_, real⟩
  cases side with
  | send => exact h.same ▸ bound
  | recv => exact bound

theorem Paired.key_deviceOf (h : Paired cfg) (side : Side) (real : qp.backup = true → cfg.faultTolerance = true) :
    cfg.key (cfg.deviceOf side qp) = some (cfg.deviceOf side qp) := by
  rw [h.deviceOf side real]
  exact h.key real (Nat.mod_lt _ cfg.recv.positive)

theorem Paired.fifoRequest (h : Paired cfg) (kind : Kind) (real : qp.backup = true → cfg.faultTolerance = true) :
    (fifoRequest cfg kind qp).Valid cfg where
  lkey := by
    rintro _ hf
    cases hf
    exact h.key_deviceOf .recv real
  rkey := h.key_deviceOf .send real

theorem Paired.flushRequest (h : Paired cfg) {warn : Nat → Bool} (bound : i < cfg.recv.ndevs)
    (enabled : cfg.flushEnabled = true) : (flushRequest cfg warn i).Valid cfg := by
  have real : (cfg.faultTolerance && warn i) = true → cfg.faultTolerance = true := by simp_all
  have ready : (if (cfg.faultTolerance && warn i) = true then cfg.backupFlushEnabled else cfg.flushEnabled) =
      true := by
    split
    next mode =>
      exact h.flush (real mode) enabled
    · exact enabled
  constructor
  · intro key hf
    simp only [Failover.flushRequest, ready, some.injEq] at hf
    rw [← hf]
    exact h.key real bound
  · exact h.key real bound

structure Pending (Q : Posted → Nat → SendReq → Prop) (s : State) : Prop where
  rows : ∀ idx p, s.history.posted idx = some p → p.items.length ≤ maxRecvs
  matched : ∀ slot r req, s.send.fifoReqs slot r = some req →
    slot = s.send.fifoHead % maxRequests ∧ r < maxRecvs ∧
      ∃ p, s.history.posted (s.send.fifoHead + 1) = some p ∧ Q p s.send.qpIndex req

variable {s s' : State} {p : Posted} {Q : Posted → Nat → SendReq → Prop}

theorem Pending.matchSend {r size : Nat} {stale : Nat → Bool} (h : Pending Q s) (head : AtHead cfg s p r)
    (new : ∀ req, (matchSend cfg size stale r s).send.fifoReqs (s.send.fifoHead % maxRequests) r = some req →
      Q p s.send.qpIndex req) :
    Pending Q (matchSend cfg size stale r s) := by
  refine ⟨h.rows, ?_⟩
  intro slot j req hf
  by_cases here : slot = s.send.fifoHead % maxRequests ∧ j = r
  · obtain ⟨rfl, rfl⟩ := here
    exact ⟨rfl, lt_of_lt_of_le head.inside (h.rows _ p head.posted), p, head.posted, new req hf⟩
  apply h.matched slot j req
  simp only [Failover.matchSend, Function.update_apply] at hf
  split at hf
  next head =>
    subst head
    rwa [Function.update_of_ne fun same => here ⟨rfl, same⟩] at hf
  · exact hf

theorem Pending.multiSend (h : Pending Q s) : Pending Q (multiSend cfg s) := by
  refine ⟨h.rows, ?_⟩
  intro slot r req hf
  simp only [Failover.multiSend, Function.update_apply] at hf
  split at hf
  · contradiction
  next other =>
    exact absurd (h.matched slot r req hf).1 other

theorem postSyncFifos_frame (cfg : Config) (errPortIdx : Nat) (positions : List Nat) (s : State) :
    (positions.foldl (postSyncFifo cfg errPortIdx) s).send = s.send ∧
      (positions.foldl (postSyncFifo cfg errPortIdx) s).history.posted = s.history.posted := by
  induction positions generalizing s with
  | nil => exact ⟨rfl, rfl⟩
  | cons restartPos rest ih => exact ih _

/-- No entry is matched in part when the sender rolls back: the requests of the slot at its head
would be left there for a later entry. -/
def settled (s : State) : Action → Bool
  | .sendRollBack _ => (range maxRecvs).all fun r =>
    (s.send.fifoReqs (s.send.fifoHead % maxRequests) r).isNone
  | _ => true

theorem step_pending (a : Action) (inv : Inv cfg s) (h : Pending Q s) (clean : settled s a = true)
    (new : ∀ size stale r p req, AtHead cfg s p r →
      (matchSend cfg size stale r s).send.fifoReqs (s.send.fifoHead % maxRequests) r = some req →
      Q p s.send.qpIndex req) (next : step cfg s a = some s') : Pending Q s' := by
  cases a
  case irecv items =>
    obtain ⟨hg, ⟨⟩⟩ := ite_none_left_eq_some.mp next
    simp only [not_or, Nat.not_lt] at hg
    have grows := inv.grows_post (s.recv.toPost cfg items s.history.syncs.length)
      [fifoRequest cfg .cts (s.recv.ctsQp cfg)]
    constructor
    · intro idx p hf
      rcases posted_post hf with ⟨-, rfl⟩ | old
      · exact hg.2.1
      · exact h.rows idx p old
    · intro slot r req hf
      obtain ⟨here, few, p, hp, owed⟩ := h.matched slot r req hf
      exact ⟨here, few, p, grows.posted _ p hp, owed⟩
  case isend tag size stale =>
    obtain ⟨⟨_, _⟩, ran, rfl⟩ := map_eq_some_iff.mp next
    rcases isend_some ran with ⟨rfl, -⟩ | ⟨r, -, -, ha, hpl, -, ends⟩
    · exact h
    · obtain ⟨p, head⟩ := inv.atHead ha hpl
      have matched := h.matchSend head fun req => new size stale r p req head
      rcases ends with ⟨-, rfl⟩ | ⟨-, rfl⟩
      · exact matched
      · exact matched.multiSend
  case sendRollBack count =>
    obtain ⟨-, -, send, ran, rfl⟩ := sendRollBack_some next
    refine ⟨h.rows, ?_⟩
    intro slot r req hf
    rw [(checkSyncFifos_rest count ran).2] at hf
    obtain ⟨rfl, few, -⟩ := h.matched slot r req hf
    have none := all_eq_true.mp clean r (mem_range.mpr few)
    rw [show s.send.fifoReqs _ r = some req from hf] at none
    contradiction
  case recvRollBack k i positions =>
    obtain ⟨devBases, _, -, -, -, -, rfl⟩ := recvRollBack_some next
    obtain ⟨send, hp⟩ := postSyncFifos_frame cfg (errorPortIdx (flag devBases i s.recv.warn))
      positions (startRollBack devBases i s)
    constructor
    · simp only [endRollBack, hp]
      exact h.rows
    · simp only [endRollBack, send, hp]
      exact h.matched
  case rePost k =>
    obtain ⟨_, _, -, -, -, rfl⟩ := rePostFifo_some next
    exact { h with }
  case iflush stale =>
    obtain ⟨-, ⟨⟩⟩ := ite_none_right_eq_some.mp next
    exact { h with }
  all_goals
    have quiet := step_quiet rfl next
    constructor
    · rw [quiet.history]
      exact h.rows
    · rw [quiet.history, quiet.send]
      exact h.matched

def Keyed (cfg : Config) (p : Posted) (_ : Nat) (req : SendReq) : Prop :=
  ∀ d < cfg.send.ndevs, req.lkeys d = some ⟨.send, cfg.faultTolerance && p.flags 0, d⟩

structure Keys (cfg : Config) (s : State) : Prop extends pending : Pending (Keyed cfg) s where
  requests : ∀ wr ∈ s.history.requests, wr.Valid cfg
  retransitions : ∀ q ∈ s.recv.inUse, ∀ t, q.retransition = some t → t.timedOut = false →
    t.devIndex < cfg.recv.ndevs ∧ t.lkey = some ⟨.recv, false, t.devIndex⟩

theorem initial_keys : Keys cfg initial where
  requests := by simp [initial]
  rows := by simp [initial]
  matched := by simp [initial]
  retransitions := by simp [initial]

theorem Paired.ctsQp (s : State) : (s.recv.ctsQp cfg).backup = true → cfg.faultTolerance = true := by
  intro backup
  unfold Receiver.ctsQp at backup
  split at backup
  next mode =>
    exact (Bool.and_eq_true_iff.mp mode).1
  · contradiction

theorem Paired.retransmission {t : Retransition} (paired : Paired cfg) (bound : t.devIndex < cfg.recv.ndevs)
    (lkey : t.lkey = some ⟨.recv, false, t.devIndex⟩) :
    WorkRequest.Valid cfg ⟨.retransmission, .data .recv ⟨false, t.devIndex⟩, some t.lkey,
      cfg.key ⟨.send, false, t.devIndex⟩⟩ := by
  have device : ∀ side, cfg.deviceOf side ⟨false, t.devIndex⟩ = ⟨side, false, t.devIndex⟩ := by
    intro side
    rw [paired.deviceOf side (by simp), Nat.mod_eq_of_lt bound]
  constructor
  · intro key hf
    cases hf
    rw [lkey]
    exact congrArg some (device .recv).symm
  · rw [paired.key (by simp) bound]
    exact congrArg some (device .send).symm

theorem postSyncFifos_requests {errPortIdx : Nat} (positions : List Nat) (paired : Paired cfg)
    (on : cfg.faultTolerance = true) (h : ∀ wr ∈ s.history.requests, wr.Valid cfg) :
    (∀ wr ∈ (positions.foldl (postSyncFifo cfg errPortIdx) s).history.requests, wr.Valid cfg) ∧
      (positions.foldl (postSyncFifo cfg errPortIdx) s).recv.inUse = s.recv.inUse := by
  induction positions generalizing s with
  | nil => exact ⟨h, rfl⟩
  | cons restartPos rest ih =>
    apply ih
    exact forall_mem_append.mpr ⟨h, forall_mem_singleton.mpr (paired.fifoRequest .sync fun _ => on)⟩

theorem matchSend_keyed (size : Nat) (stale : Nat → Bool) (r : Nat) (p : Posted) (req : SendReq) (paired : Paired cfg)
    (modes : Modes cfg s) (head : AtHead cfg s p r)
    (found : (matchSend cfg size stale r s).send.fifoReqs (s.send.fifoHead % maxRequests) r = some req) :
    Keyed cfg p s.send.qpIndex req := by
  simp only [matchSend, Function.update_self] at found
  cases found
  intro d hb
  have mode := matchSend_mode size stale modes head d hb
  have key : lkeysOf cfg { s.send with warn := (matchSend cfg size stale r s).send.warn } d =
      some ⟨.send, cfg.faultTolerance && p.flags 0, d⟩ := by
    rw [lkeysOf, if_pos hb]
    simp only [mode]
    exact paired.key (fun set' => (Bool.and_eq_true_iff.mp set').1) (paired.same ▸ hb)
  exact key

theorem Paired.dataRequest (paired : Paired cfg) {idx r : Nat} {req : SendReq} (uniform : Uniform cfg .recv p.flags)
    (inside : r < p.items.length)
    (lkeys : ∀ d < cfg.send.ndevs, req.lkeys d = some ⟨.send, cfg.faultTolerance && p.flags 0, d⟩)
    (mode : qp.backup = (cfg.faultTolerance && p.flags 0)) :
    (dataRequest cfg (elemOf cfg idx p r) req i qp).Valid cfg := by
  have real : qp.backup = true → cfg.faultTolerance = true := by
    intro backup
    rw [mode] at backup
    exact (Bool.and_eq_true_iff.mp backup).1
  have bound : qp.index % cfg.recv.ndevs < cfg.recv.ndevs := Nat.mod_lt _ cfg.recv.positive
  constructor
  · intro key hf
    obtain ⟨-, ⟨⟩⟩ := ite_none_left_eq_some.mp hf
    rw [paired.deviceOf .send real, lkeys _ (paired.same ▸ bound), ← mode]
    exact congrArg some (paired.deviceOf .send real).symm
  · simp only [Failover.dataRequest, elemOf, getElem?_eq_getElem inside]
    rw [paired.deviceOf .recv real, if_pos bound, uniform _ bound, ← mode, paired.key real bound]
    exact congrArg some (paired.deviceOf .recv real).symm

theorem Paired.sizesRequest (paired : Paired cfg) (real : qp.backup = true → cfg.faultTolerance = true) :
    (sizesRequest cfg qp).Valid cfg := by
  have bound : qp.index % cfg.recv.ndevs < cfg.recv.ndevs := Nat.mod_lt _ cfg.recv.positive
  constructor
  · intro key hf
    cases hf
    rw [paired.deviceOf .send real, paired.key real bound]
    exact congrArg some (paired.deviceOf .send real).symm
  · simp only [Failover.sizesRequest]
    rw [paired.deviceOf .send real, paired.key real bound]
    exact congrArg some (paired.deviceOf .recv real).symm

theorem multiSendRequests_valid {row : Nat → Elem} {reqs : Nat → Option SendReq} {nreqs : Nat}
    (qps : List Qp) (i : Nat)
    (data : ∀ r < nreqs, ∀ req, reqs r = some req → ∀ i, ∀ qp ∈ qps, (dataRequest cfg (row r) req i qp).Valid cfg)
    (sizes : ∀ qp ∈ qps, (sizesRequest cfg qp).Valid cfg) :
    ∀ wr ∈ multiSendRequests cfg row reqs nreqs i qps, wr.Valid cfg := by
  induction qps generalizing i with
  | nil => simp [multiSendRequests]
  | cons qp rest ih =>
    intro wr mem
    rcases mem_append.mp mem with here | hl
    · rcases mem_append.mp here with first | last
      · obtain ⟨r, hb, hf⟩ := mem_filterMap.mp first
        obtain ⟨req, has, rfl⟩ := map_eq_some_iff.mp hf
        exact data r (mem_range.mp hb) req has i qp mem_cons_self
      · split at last
        · rw [mem_singleton.mp last]
          exact sizes qp mem_cons_self
        · simp at last
    · apply ih (i + 1) _ _ wr hl
      · exact fun r hb req has i qp mem => data r hb req has i qp (mem_cons_of_mem _ mem)
      · exact fun qp mem => sizes qp (mem_cons_of_mem _ mem)

theorem multiSend_requests (paired : Paired cfg) (modes : Modes cfg s) (h : Keys cfg s)
    (posted : s.history.posted (s.send.fifoHead + 1) = some p) (row : ∀ r < s.send.nreqs, AtHead cfg s p r)
    (mode : (cfg.faultTolerance && s.send.warn 0) = (cfg.faultTolerance && p.flags 0)) :
    ∀ wr ∈ (multiSend cfg s).history.requests, wr.Valid cfg := by
  have picked : ∀ qp ∈ sendQps cfg s.send, qp.backup = (cfg.faultTolerance && p.flags 0) := by
    intro qp mem
    obtain ⟨q, -, rfl⟩ := mem_map.mp mem
    rw [pickQp_uniform modes.send, mode]
  refine forall_mem_append.mpr ⟨h.requests, ?_⟩
  intro wr new
  apply multiSendRequests_valid _ _ _ _ wr new
  · intro r hbo req hf i qp ht
    obtain ⟨-, hi, elem⟩ := row r hbo
    obtain ⟨-, -, q, same, lkeys⟩ := h.matched _ r req hf
    cases some.inj (posted.symm.trans same)
    rw [elem]
    exact paired.dataRequest (modes.posted _ p posted).1 hi lkeys (picked qp ht)
  · intro qp ht
    apply paired.sizesRequest
    intro hb
    rw [picked qp ht] at hb
    exact (Bool.and_eq_true_iff.mp hb).1

theorem isend_requests {tag size : Nat} {stale : Nat → Bool} {result : Option Nat} (paired : Paired cfg)
    (inv : Inv cfg s) (modes : Modes cfg s) (h : Keys cfg s) (next : isend cfg tag size stale s = some (s', result)) :
    (∀ wr ∈ s'.history.requests, wr.Valid cfg) ∧ s'.recv = s.recv := by
  rcases isend_some next with ⟨rfl, -⟩ | ⟨r, -, here, ha, hpl, -, ⟨-, rfl⟩ | ⟨-, rfl⟩⟩
  · exact ⟨h.requests, rfl⟩
  · exact ⟨h.requests, rfl⟩
  obtain ⟨p, hp, -, -⟩ := inv.entry here
  have row : ∀ j < s.send.nreqs, AtHead cfg s p j := by
    intro j hb
    obtain ⟨q, head⟩ := inv.atHead ha hb
    cases some.inj (hp.symm.trans head.posted)
    exact head
  have head := row r hpl
  have matched := h.pending.matchSend head fun req => matchSend_keyed size stale r p req paired modes head
  refine ⟨?_, rfl⟩
  exact multiSend_requests paired (matchSend_modes paired.small modes)
    ⟨matched, h.requests, h.retransitions⟩ hp
    (fun j hb => { row j hb with })
    (matchSend_mode size stale modes head 0 cfg.send.positive)

theorem step_keys (a : Action) (paired : Paired cfg) (inv : Inv cfg s) (modes : Modes cfg s) (h : Keys cfg s)
    (clean : settled s a = true) (next : step cfg s a = some s') : Keys cfg s' := by
  have pending := step_pending a inv h.pending clean
    (fun size stale r p req => matchSend_keyed size stale r p req paired modes) next
  cases a
  case irecv items =>
    obtain ⟨-, ⟨⟩⟩ := ite_none_left_eq_some.mp next
    refine ⟨pending, ?_, forall_mem_cons.mpr ⟨?_, h.retransitions⟩⟩
    · exact forall_mem_append.mpr
        ⟨h.requests, forall_mem_singleton.mpr (paired.fifoRequest .cts (Paired.ctsQp s))⟩
    · intro t hf hfr
      cases hf
      have bound := Nat.mod_lt (s.recv.devIndex + 1) cfg.recv.positive
      exact ⟨bound, paired.key (by simp) bound⟩
  case rePost k =>
    obtain ⟨devBases, t, hf, -, hfr, rfl⟩ := rePostFifo_some next
    obtain ⟨bound, lkey⟩ := h.retransitions _ (mem_of_getElem? hf) t rfl hfr
    refine ⟨pending, ?_, ?_⟩
    · exact forall_mem_append.mpr
        ⟨h.requests, forall_mem_singleton.mpr (paired.retransmission bound lkey)⟩
    · intro q mem u has hfr'
      rcases mem_or_eq_of_mem_set mem with old | rfl
      · exact h.retransitions q old u has hfr'
      · cases has
        contradiction
  case recvRollBack k i positions =>
    obtain ⟨devBases, _, -, on, -, -, rfl⟩ := recvRollBack_some next
    have start : ∀ wr ∈ (startRollBack devBases i s).history.requests, wr.Valid cfg := h.requests
    obtain ⟨hr, inUse⟩ := postSyncFifos_requests positions paired on start
    exact ⟨pending, hr, by simp only [endRollBack, inUse]; exact h.retransitions⟩
  case iflush stale =>
    obtain ⟨he, ⟨⟩⟩ := ite_none_right_eq_some.mp next
    refine ⟨pending, forall_mem_append.mpr ⟨h.requests, ?_⟩,
      forall_mem_cons.mpr ⟨?_, h.retransitions⟩⟩
    · intro wr new
      obtain ⟨i, bound, rfl⟩ := mem_map.mp new
      exact paired.flushRequest (mem_range.mp bound) he
    · intro t hf hfr
      contradiction
  case isend tag size stale =>
    obtain ⟨⟨_, _⟩, ran, rfl⟩ := map_eq_some_iff.mp next
    obtain ⟨hr, recv⟩ := isend_requests paired inv modes h ran
    exact ⟨pending, hr, by rw [recv]; exact h.retransitions⟩
  case sendRollBack count =>
    obtain ⟨-, -, _, -, rfl⟩ := sendRollBack_some next
    exact ⟨pending, h.requests, h.retransitions⟩
  all_goals
    have quiet := step_quiet rfl next
    refine ⟨pending, ?_, fun q mem => h.retransitions q (quiet.inUse q mem)⟩
    rw [quiet.history]
    exact h.requests

/-- Between ends with the same number of devices, with fault tolerance one or two, every work request
has the keys of the devices of its QP, as long as no entry is matched in part at a rollback. -/
theorem work_request_keys (paired : Paired cfg) {s : State} (actions : List Action)
    (clean : Meets (step cfg) (fun s a => settled s a = true) initial actions)
    (ran : run (step cfg) initial actions = some s) :
    ∀ wr ∈ s.history.requests, wr.Valid cfg := by
  have kept : Inv cfg s ∧ Modes cfg s ∧ Keys cfg s :=
    run_invariant (fun s => Inv cfg s ∧ Modes cfg s ∧ Keys cfg s)
      (fun _ a _ ⟨inv, hm, keys⟩ ok next =>
        ⟨step_inv a inv next, step_modes a paired.small inv hm next,
          step_keys a paired inv hm keys ok next⟩)
      actions ⟨initial_inv, initial_modes, initial_keys⟩ clean ran
  exact kept.2.2.requests

theorem failed_over_keys : ∃ s, run (step single) initial failedOver = some s ∧
    s.history.requests.map WorkRequest.kind = [.cts, .data, .cts, .sync, .cts, .data] ∧
      ∀ wr ∈ s.history.requests, wr.Valid single := by
  obtain ⟨s, ran, hf⟩ := run_reaches (step single) initial failedOver
    (fun s => s.history.requests.map WorkRequest.kind = [.cts, .data, .cts, .sync, .cts, .data])
    (by decide +kernel)
  exact ⟨s, ran, hf, work_request_keys ⟨rfl, by decide, by decide⟩ failedOver
    (by decide +kernel) ran⟩

def uneven : Config where
  faultTolerance := false
  splitDataOnQps := false
  qpsPerConn := 1
  send := single.send
  recv := ⟨2, 2, Nat.two_pos, by decide, Nat.two_pos, by decide⟩
  flushEnabled := true
  backupFlushEnabled := true
  oneQp := Nat.one_pos

/-- The second QP ends on the receiver's second device, and the sizes go out on it with the key of
the first. -/
theorem sizes_key_of_other_device : ∃ s wr, Reachable (step uneven) initial s ∧
    wr ∈ s.history.requests ∧ wr = ⟨.sizes, .data .send ⟨false, 1⟩, some (some ⟨.send, false, 0⟩),
      some ⟨.recv, false, 0⟩⟩ ∧ ¬ wr.Valid uneven := by
  obtain ⟨s, ran, hf⟩ := run_reaches (step uneven) initial
    [.irecv [⟨4096, 64, 7⟩, ⟨8192, 64, 8⟩], .land ⟨false, 0⟩, .isend 7 64 fun _ => false,
      .isend 8 64 fun _ => false]
    (fun s => ⟨.sizes, .data .send ⟨false, 1⟩, some (some ⟨.send, false, 0⟩),
      some ⟨.recv, false, 0⟩⟩ ∈ s.history.requests) (by decide +kernel)
  refine ⟨s, _, ⟨_, ran⟩, hf, rfl, ?_⟩
  intro hv
  have := hv.rkey
  contradiction

def onDevice (cfg : Config) (qps : List Qp) (d : Device) : Nat := (qps.map (cfg.deviceOf .send)).count d

theorem choice_congr {a b : Sender} (index : a.qpIndex = b.qpIndex)
    (flags : ∀ d < cfg.send.ndevs, (cfg.faultTolerance && a.warn d) = (cfg.faultTolerance && b.warn d)) :
    sendQps cfg a = sendQps cfg b ∧ lkeysOf cfg a = lkeysOf cfg b := by
  have qps : sendQps cfg a = sendQps cfg b := by
    unfold sendQps
    rw [index]
    apply map_congr_left
    intro q _
    exact congrArg (Qp.mk · q) (flags _ (Nat.mod_lt _ cfg.send.positive))
  refine ⟨qps, ?_⟩
  funext d
  unfold lkeysOf
  rw [qps]
  split
  next hb =>
    rw [flags d hb]
  · rfl

def follower (p : Posted) (qpIndex : Nat) : Sender := { initial.send with qpIndex, warn := fun _ => p.flags 0 }

def Recorded (cfg : Config) (p : Posted) (qpIndex : Nat) (req : SendReq) : Prop :=
  req.qps = sendQps cfg (follower p qpIndex) ∧ req.lkeys = lkeysOf cfg (follower p qpIndex)

theorem matchSend_recorded (size : Nat) (stale : Nat → Bool) (r : Nat) (p : Posted) (req : SendReq)
    (modes : Modes cfg s) (head : AtHead cfg s p r)
    (found : (matchSend cfg size stale r s).send.fifoReqs (s.send.fifoHead % maxRequests) r = some req) :
    Recorded cfg p s.send.qpIndex req := by
  simp only [matchSend, Function.update_self] at found
  cases found
  exact choice_congr rfl (matchSend_mode size stale modes head)

theorem isend_posts {tag size r : Nat} {stale : Nat → Bool} (next : isend cfg tag size stale s = some (s', some r))
    (all : (matchSend cfg size stale r s).send.allMatched = true) :
    s.send.arrived = true ∧ r < s.send.nreqs ∧ s' = multiSend cfg (matchSend cfg size stale r s) := by
  rcases isend_some next with ⟨-, _⟩ | ⟨_, ⟨⟩, -, arrived, hp, -, ⟨more, -⟩ | ⟨-, posts⟩⟩
  · contradiction
  · rw [all] at more
    contradiction
  · exact ⟨arrived, hp, posts⟩

/-- Without fault tolerance, or with at most two devices at each end, the requests of a message have recorded the
QPs and the keys it is posted with, and so as many events for a device as it has completions for them, as long as
no entry is matched in part at a rollback. -/
theorem posted_as_recorded (small : cfg.faultTolerance = true → cfg.send.ndevs ≤ 2 ∧ cfg.recv.ndevs ≤ 2)
    {s : State} (actions : List Action)
    (clean : Meets (step cfg) (fun s a => settled s a = true) initial actions)
    (ran : run (step cfg) initial actions = some s) :
    ∀ tag size stale s' r, isend cfg tag size stale s = some (s', some r) →
      (matchSend cfg size stale r s).send.allMatched = true →
      ∃ c, s'.history.consumed = s.history.consumed ++ [c] ∧
        ∀ j < s.send.nreqs, ∃ req,
          (matchSend cfg size stale r s).send.fifoReqs (s.send.fifoHead % maxRequests) j = some req ∧
            req.qps = c.qps ∧ req.lkeys = lkeysOf cfg (matchSend cfg size stale r s).send ∧
            ∀ d, onDevice cfg req.qps d = onDevice cfg c.qps d := by
  obtain ⟨inv, hm, pending⟩ : Inv cfg s ∧ Modes cfg s ∧ Pending (Recorded cfg) s :=
    run_invariant (fun s => Inv cfg s ∧ Modes cfg s ∧ Pending (Recorded cfg) s)
      (fun _ a _ ⟨inv, hm, pending⟩ ok next =>
        ⟨step_inv a inv next, step_modes a small inv hm next, step_pending a inv pending ok
          (fun size stale r p req => matchSend_recorded size stale r p req hm) next⟩)
      actions ⟨initial_inv, initial_modes, by simp [initial], by simp [initial]⟩ clean ran
  intro tag size stale s' r next all
  obtain ⟨ha, hp, rfl⟩ := isend_posts next all
  obtain ⟨p, head⟩ := inv.atHead ha hp
  have matched := pending.matchSend head fun req => matchSend_recorded size stale r p req hm head
  obtain ⟨qps, lkeys⟩ := @choice_congr cfg (matchSend cfg size stale r s).send (follower p s.send.qpIndex) rfl
    (matchSend_mode size stale hm head)
  refine ⟨_, rfl, fun j hb => ?_⟩
  obtain ⟨req, hf⟩ := isSome_iff_exists.mp (all_eq_true.mp all j (mem_range.mpr hb))
  obtain ⟨-, -, q, same, own, keys⟩ := matched.matched _ j req hf
  cases some.inj (head.posted.symm.trans same)
  have alike : req.qps = sendQps cfg (matchSend cfg size stale r s).send := own.trans qps.symm
  exact ⟨req, hf, alike, keys.trans lkeys.symm, fun d => by rw [alike]⟩

def halfMatched : List Action :=
  [.irecv [⟨4096, 64, 7⟩, ⟨8192, 64, 8⟩], .land ⟨false, 0⟩, .isend 7 64 fun _ => false]

def completes (cfg : Config) (s : State) : Bool :=
  (isend cfg 8 64 (fun _ => false) s).any fun (_, r) =>
    decide (r = some 1) && (matchSend cfg 64 (fun _ => false) 1 s).send.allMatched

theorem half_matched_as_recorded : ∃ s s' c, Reachable (step single) initial s ∧
    isend single 8 64 (fun _ => false) s = some (s', some 1) ∧ s'.history.consumed = s.history.consumed ++ [c] ∧
      ∀ j < s.send.nreqs, ∃ req,
        (matchSend single 64 (fun _ => false) 1 s).send.fifoReqs (s.send.fifoHead % maxRequests) j = some req ∧
          req.qps = c.qps := by
  obtain ⟨s, ran, hf⟩ := run_reaches (step single) initial halfMatched (completes single ·)
    (by decide +kernel)
  obtain ⟨⟨s', r⟩, next, rest⟩ := (any_eq_true _ _).mp hf
  simp only [Bool.and_eq_true, decide_eq_true_eq] at rest
  obtain ⟨rfl, all⟩ := rest
  obtain ⟨c, hp, each⟩ := posted_as_recorded (by decide) halfMatched (by decide +kernel) ran 8 64 _ s' 1 next all
  refine ⟨s, s', c, ⟨_, ran⟩, next, hp, fun j hb => ?_⟩
  obtain ⟨req, ht, same, -⟩ := each j hb
  exact ⟨req, ht, same⟩

/-- The third device fails between the two matches of an entry: the first request waits for a completion of the
primary device, and its work request goes out on the backup. -/
theorem third_device_between_matches : ∃ s s' c req, Reachable (step merged) initial s ∧
    isend merged 8 64 (fun _ => false) s = some (s', some 1) ∧ s'.history.consumed = s.history.consumed ++ [c] ∧
      (matchSend merged 64 (fun _ => false) 1 s).send.fifoReqs (s.send.fifoHead % maxRequests) 0 = some req ∧
      onDevice merged req.qps ⟨.send, false, 2⟩ = 1 ∧ onDevice merged c.qps ⟨.send, false, 2⟩ = 0 := by
  obtain ⟨s, ran, hf⟩ := run_reaches (step merged) initial (halfMatched ++ [.sendError 0 2])
    (fun s => completes merged s &&
      ((matchSend merged 64 (fun _ => false) 1 s).send.fifoReqs (s.send.fifoHead % maxRequests) 0).any fun req =>
        decide (onDevice merged req.qps ⟨.send, false, 2⟩ = 1 ∧ onDevice merged
          (sendQps merged (matchSend merged 64 (fun _ => false) 1 s).send) ⟨.send, false, 2⟩ = 0))
    (by decide +kernel)
  obtain ⟨hp, waits⟩ := Bool.and_eq_true_iff.mp hf
  obtain ⟨⟨s', r⟩, next, rest⟩ := (any_eq_true _ _).mp hp
  obtain ⟨req, ht, counts⟩ := (any_eq_true _ _).mp waits
  simp only [Bool.and_eq_true, decide_eq_true_eq] at rest counts
  obtain ⟨rfl, all⟩ := rest
  obtain ⟨-, -, rfl⟩ := isend_posts next all
  exact ⟨s, _, _, req, ⟨_, ran⟩, next, rfl, ht, counts.1, counts.2⟩

end Vccl.Failover
