import Vccl.Failover.Fifo

/-! The failed flags of the two ends, and the QPs the ends choose by them. With at most two devices
at an end its flags are always all alike, and so the one bit in an entry says all of them. -/
namespace Vccl.Failover

open List Transition
open Ib (maxRequests)

variable {cfg : Config}

theorem nqps_comm (qpsPerConn a b : Nat) : nqps qpsPerConn a b = nqps qpsPerConn b a := by
  simp only [nqps]
  split <;> split <;> omega

theorem recvNqps_eq (cfg : Config) : cfg.recvNqps = cfg.sendNqps := nqps_comm _ _ _

theorem recvQpsPerMessage_eq (cfg : Config) : cfg.recvQpsPerMessage = cfg.sendQpsPerMessage := by
  simp [Config.recvQpsPerMessage, Config.sendQpsPerMessage, recvNqps_eq, nDataQps, Nat.max_comm]

variable {n : Nat}

theorem qpRun_mod {nqps : Nat} (divides : n ∣ nqps) (count q : Nat) :
    (qpRun nqps count q).map (· % n) = (range count).map fun i => (q + i) % n := by
  induction count generalizing q with
  | zero => rfl
  | succ count ih =>
    rw [qpRun, map_cons, ih, range_succ_eq_map, map_cons, map_map]
    congr 1
    apply map_congr_left
    intro i _
    rw [Nat.add_mod, Nat.mod_mod_of_dvd _ divides, ← Nat.add_mod]
    congr 1
    omega

theorem qpRun_covers {nqps count : Nat} (divides : n ∣ nqps) (enough : n ≤ count) (q : Nat) {d : Nat} (bound : d < n) :
    ∃ x ∈ qpRun nqps count q, x % n = d := by
  have offset : (n - q % n + d) % n < count := lt_of_lt_of_le (Nat.mod_lt _ (by omega)) enough
  have mem : (q + (n - q % n + d) % n) % n ∈ (qpRun nqps count q).map (· % n) := by
    rw [qpRun_mod divides]
    exact mem_map.mpr ⟨_, mem_range.mpr offset, rfl⟩
  obtain ⟨x, ht, same⟩ := mem_map.mp mem
  refine ⟨x, ht, same.trans ?_⟩
  have small : q % n < n := Nat.mod_lt _ (by omega)
  calc (q + (n - q % n + d) % n) % n
      = (q % n + (n - q % n + d)) % n := by rw [Nat.add_mod, Nat.mod_mod, ← Nat.add_mod, Nat.mod_add_mod]
    _ = (n + d) % n := by congr 1; omega
    _ = d := by rw [Nat.add_mod_left, Nat.mod_eq_of_lt bound]

def Small (cfg : Config) : Prop :=
  cfg.faultTolerance = true → cfg.send.ndevs ≤ 2 ∧ cfg.recv.ndevs ≤ 2

variable {side : Side}

theorem Small.at (small : Small cfg) (on : cfg.faultTolerance = true) : (cfg.at side).ndevs ≤ 2 := by
  cases side with
  | send => exact (small on).1
  | recv => exact (small on).2

def Uniform (cfg : Config) (side : Side) (warn : Nat → Bool) : Prop :=
  ∀ d < (cfg.at side).ndevs, (cfg.faultTolerance && warn d) = (cfg.faultTolerance && warn 0)

variable {warn : Nat → Bool} {b : Bool}

theorem uniform_of_all (same : cfg.faultTolerance = true → ∀ d < (cfg.at side).ndevs, warn d = b) :
    Uniform cfg side warn := by
  intro d hb
  cases on : cfg.faultTolerance with
  | false => rfl
  | true => rw [same on d hb, same on 0 (by omega)]

theorem pickQp_uniform (h : Uniform cfg side warn) (q : Nat) :
    pickQp cfg side warn q = ⟨cfg.faultTolerance && warn 0, q⟩ := by
  rw [pickQp, h _ (Nat.mod_lt _ (cfg.at side).positive)]

def Whole (n : Nat) (devBases : Nat → Bool) : Prop :=
  ∀ d, devBases d = true → d < n ∧ ∀ e < n, devBases e = true

variable {i : Nat} {devBases : Nat → Bool}

theorem flag_all (small : n ≤ 2) (whole : Whole n devBases) (set' : devBases i = true) :
    ∀ d < n, flag devBases i warn d = true := by
  intro d hb
  obtain ⟨_, others⟩ := whole i set'
  have partner : d ≠ i → d = i ^^^ 1 := by
    intro ho
    obtain ⟨rfl, rfl⟩ | ⟨rfl, rfl⟩ : (i = 0 ∧ d = 1) ∨ (i = 1 ∧ d = 0) := by omega
    · rfl
    · rfl
  by_cases here : d = i
  · simp [flag, here]
  · have mate := partner here
    have set'' : devBases (i ^^^ 1) = true := mate ▸ others d hb
    exact if_pos (.inr ⟨mate, set''⟩)

theorem flag_uniform (small : Small cfg)
    (whole : cfg.faultTolerance = true → Whole (cfg.at side).ndevs devBases) (set' : devBases i = true) :
    Uniform cfg side (flag devBases i warn) :=
  uniform_of_all fun on => flag_all (small.at on) (whole on) set'

theorem followEntry_all {ifBackup : Bool} (h : Uniform cfg .send warn) (on : cfg.faultTolerance = true) :
    ∀ d < cfg.send.ndevs, followEntry cfg ifBackup warn d = ifBackup := by
  intro d hb
  unfold followEntry
  split
  · exact if_pos hb
  next same =>
    have same : ifBackup = warn 0 := by simpa [on] using same
    have := h d hb
    rw [on, Bool.true_and, Bool.true_and] at this
    rw [this, same]

theorem followEntry_uniform {ifBackup : Bool} (h : Uniform cfg .send warn) :
    Uniform cfg .send (followEntry cfg ifBackup warn) :=
  uniform_of_all fun on => followEntry_all h on

structure Modes (cfg : Config) (s : State) : Prop where
  send : Uniform cfg .send s.send.warn
  recv : Uniform cfg .recv s.recv.warn
  posted : ∀ idx p, s.history.posted idx = some p →
    Uniform cfg .recv p.flags ∧ p.ifBackup = (cfg.faultTolerance && p.flags 0) ∧
      p.qps = (qpRun cfg.recvNqps cfg.recvQpsPerMessage p.start).map (pickQp cfg .recv p.flags)
  syncs : ∀ y ∈ s.history.syncs, y.elem.errPortIdx = 0 ∧ ∀ d < cfg.recv.ndevs, y.flags d = true
  sendBases : cfg.faultTolerance = true → ∀ devBases ∈ s.send.inUse, Whole cfg.send.ndevs devBases
  recvBases : cfg.faultTolerance = true → ∀ r ∈ s.recv.inUse, Whole cfg.recv.ndevs r.devBases

theorem initial_modes : Modes cfg initial where
  send := uniform_of_all fun _ _ _ => rfl
  recv := uniform_of_all fun _ _ _ => rfl
  posted := by simp [initial]
  syncs := by simp [initial]
  sendBases := by simp [initial]
  recvBases := by simp [initial]

variable {stale : Nat → Bool}

theorem leftOver_small {d : Nat} (small : n ≤ 2) : leftOver n stale d = false := by
  simp only [leftOver, Bool.and_eq_false_iff, decide_eq_false_iff_not]
  left
  omega

theorem dvd_nqps {qpsPerConn own remote : Nat} (positive : 0 < own) (small : own ≤ 2) (few : remote ≤ 2) :
    own ∣ nqps qpsPerConn own remote := by
  simp only [nqps]
  split
  · obtain rfl | ⟨rfl, rfl⟩ : own = 1 ∨ (own = 2 ∧ remote = 2) := by
      rcases Nat.lt_or_ge remote own with less | _
      · have := Nat.mul_le_mul_left qpsPerConn (Nat.le_of_lt less)
        omega
      · omega
    · exact one_dvd _
    · exact Dvd.intro_left _ rfl
  · exact Dvd.intro_left _ rfl

theorem ndevs_le_sendQpsPerMessage (cfg : Config) : cfg.send.ndevs ≤ cfg.sendQpsPerMessage := by
  unfold Config.sendQpsPerMessage
  split
  · have := Nat.mul_le_mul_right cfg.send.ndevs cfg.oneQp
    simp only [Config.sendNqps, nqps]
    split <;> omega
  · exact Nat.le_max_left _ _

theorem sendDevBases_whole {s : Sender} (small : Small cfg) (on : cfg.faultTolerance = true)
    (h : Uniform cfg .send s.warn) :
    Whole cfg.send.ndevs (sendDevBases cfg s stale) := by
  intro d set'
  simp only [sendDevBases, leftOver_small (small on).1, Bool.or_false, decide_eq_true_eq] at set' ⊢
  have pick : pickQp cfg .send s.warn = fun q => ⟨s.warn 0, q⟩ := by
    funext q
    rw [pickQp_uniform h, on, Bool.true_and]
  simp only [sendQps, pick, map_map, mem_map, Function.comp_apply, Config.deviceOf, Device.mk.injEq, true_and] at set' ⊢
  obtain ⟨q, _, hp, index⟩ := set'
  simp only [hp] at index ⊢
  refine ⟨index ▸ Nat.mod_lt _ cfg.send.positive, ?_⟩
  intro e hb
  obtain ⟨x, ht, same⟩ := qpRun_covers (dvd_nqps cfg.send.positive (small on).1 (small on).2)
    (ndevs_le_sendQpsPerMessage cfg) s.qpIndex hb
  exact ⟨x, ht, trivial, same⟩

variable {s s' : State} {items : List Item}

theorem irecv_modes (h : Modes cfg s) (next : irecv cfg items s = some s') : Modes cfg s' := by
  obtain ⟨-, ⟨⟩⟩ := Option.ite_none_left_eq_some.mp next
  refine { h with posted := ?_, recvBases := ?_ }
  · intro idx p hf
    rcases posted_post hf with ⟨-, rfl⟩ | old
    · exact ⟨h.recv, h.recv _ (Nat.mod_lt _ cfg.recv.positive), rfl⟩
    · exact h.posted idx p old
  · intro on r mem
    rcases mem_cons.mp mem with rfl | old
    · intro d hi
      exact ⟨of_decide_eq_true hi, fun e hb => decide_eq_true hb⟩
    · exact h.recvBases on r old

variable {k : Nat}

theorem rePostFifo_modes (h : Modes cfg s) (next : rePostFifo cfg k s = some s') :
    Modes cfg s' := by
  obtain ⟨devBases, t, hf, -, -, rfl⟩ := rePostFifo_some next
  refine { h with recvBases := ?_ }
  intro on r mem
  rcases mem_or_eq_of_mem_set mem with old | rfl
  · exact h.recvBases on r old
  · exact h.recvBases on ⟨devBases, some t⟩ (mem_of_getElem? hf)

def AllFailed (cfg : Config) (s : State) : Prop := ∀ d < cfg.recv.ndevs, s.recv.warn d = true

theorem postSyncFifos_modes (positions : List Nat) (h : Modes cfg s) (failed : AllFailed cfg s) :
    Modes cfg (positions.foldl (postSyncFifo cfg 0) s) := by
  induction positions generalizing s with
  | nil => exact h
  | cons restartPos rest ih =>
    apply ih
    · refine { h with syncs := ?_ }
      exact forall_mem_append.mpr ⟨h.syncs, forall_mem_singleton.mpr ⟨rfl, failed⟩⟩
    · exact failed

variable {positions : List Nat}

theorem recvRollBack_modes (small : Small cfg) (h : Modes cfg s) (next : recvRollBack cfg k i positions s = some s') :
    Modes cfg s' := by
  obtain ⟨devBases, t, hf, on, -, set', rfl⟩ := recvRollBack_some next
  have whole := h.recvBases on _ (mem_of_getElem? hf)
  have failed : AllFailed cfg (startRollBack devBases i s) := flag_all (small on).2 whole set'
  have port : errorPortIdx (flag devBases i s.recv.warn) = 0 := if_pos (failed 0 cfg.recv.positive)
  rw [port]
  have start : Modes cfg (startRollBack devBases i s) :=
    { h with recv := flag_uniform small (fun _ => whole) set' }
  exact { postSyncFifos_modes positions start failed with }

theorem iflush_whole (small : Small cfg) (on : cfg.faultTolerance = true) (h : Uniform cfg .recv warn) :
    Whole cfg.recv.ndevs fun d => decide (d < cfg.recv.ndevs ∧ ¬ (cfg.faultTolerance ∧ warn d)) ||
      leftOver cfg.recv.ndevs stale d := by
  intro d set'
  have alike : ∀ e < cfg.recv.ndevs, warn e = warn 0 := by
    intro e hb
    simpa [on] using h e hb
  simp only [leftOver_small (small on).2, Bool.or_false, decide_eq_true_eq] at set' ⊢
  refine ⟨set'.1, fun e hb => ⟨hb, ?_⟩⟩
  rw [alike e hb, ← alike d set'.1]
  exact set'.2

variable {r : Nat}

structure AtHead (cfg : Config) (s : State) (p : Posted) (r : Nat) : Prop where
  posted : s.history.posted (s.send.fifoHead + 1) = some p
  inside : r < p.items.length
  elem : s.send.fifo (s.send.fifoHead % maxRequests) r = elemOf cfg (s.send.fifoHead + 1) p r

theorem Inv.atHead (inv : Inv cfg s) (arrived : s.send.arrived = true) (place : r < s.send.nreqs) :
    ∃ p, AtHead cfg s p r := by
  have named := all_eq_true.mp arrived r (mem_range.mpr place)
  obtain ⟨p, hp, hi, elem⟩ := inv.entry (of_decide_eq_true named)
  exact ⟨p, hp, hi, elem⟩

theorem matchSend_flags (size : Nat) (stale : Nat → Bool) {p : Posted} (h : Modes cfg s) (head : AtHead cfg s p r)
    (on : cfg.faultTolerance = true) :
    ∀ d < cfg.send.ndevs, (matchSend cfg size stale r s).send.warn d = p.flags 0 := by
  have bit : (s.send.fifo (s.send.fifoHead % maxRequests) r).ifBackup = p.flags 0 := by
    rw [head.elem, elemOf, getElem?_eq_getElem head.inside]
    simpa [on] using (h.posted _ p head.posted).2.1
  intro d hb
  rw [← bit]
  exact followEntry_all h.send on d hb

theorem matchSend_mode (size : Nat) (stale : Nat → Bool) {p : Posted} (h : Modes cfg s) (head : AtHead cfg s p r)
    (d : Nat) (bound : d < cfg.send.ndevs) :
    (cfg.faultTolerance && (matchSend cfg size stale r s).send.warn d) = (cfg.faultTolerance && p.flags 0) := by
  cases on : cfg.faultTolerance with
  | false => rfl
  | true => rw [matchSend_flags size stale h head on d bound]

variable {size : Nat}

theorem matchSend_modes (small : Small cfg) (h : Modes cfg s) :
    Modes cfg (matchSend cfg size stale r s) := by
  have send : Uniform cfg .send (matchSend cfg size stale r s).send.warn := followEntry_uniform h.send
  refine { h with send, sendBases := ?_ }
  intro on devBases mem
  rcases mem_cons.mp mem with rfl | old
  · exact sendDevBases_whole small on send
  · exact h.sendBases on devBases old

variable {result : Option Nat} {tag : Nat}

theorem isend_modes (small : Small cfg) (h : Modes cfg s)
    (next : isend cfg tag size stale s = some (s', result)) :
    Modes cfg s' := by
  rcases isend_some next with ⟨rfl, -⟩ | ⟨r, -, -, -, -, -, ⟨-, rfl⟩ | ⟨-, rfl⟩⟩
  · exact h
  · exact matchSend_modes small h
  · exact { matchSend_modes small h with }

variable {send : Sender}

theorem checkSyncFifo_flags (small : Small cfg) (inv : Inv cfg s) (h : Modes cfg s) (on : cfg.faultTolerance = true)
    (next : checkSyncFifo cfg s.send = some send) :
    ∀ d < cfg.send.ndevs, send.warn d = true := by
  unfold checkSyncFifo at next
  obtain ⟨_, ⟨⟩⟩ := Option.ite_none_right_eq_some.mp next
  obtain ⟨y, hf, same, -⟩ := inv.syncFifo (s.send.syncFifoHead % maxRequests) (by omega)
  have port := (h.syncs y (mem_of_getElem? hf)).1
  intro d hb
  have few := (small on).1
  simp only [same, port]
  apply if_pos
  obtain rfl | rfl : d = 0 ∨ d = 1 := by omega
  · exact .inl rfl
  · exact .inr ⟨hb, rfl⟩

theorem checkSyncFifo_rest {s : Sender} (next : checkSyncFifo cfg s = some send) :
    send.inUse = s.inUse ∧ send.qpIndex = s.qpIndex ∧ send.fifoReqs = s.fifoReqs := by
  unfold checkSyncFifo at next
  simp only at next
  split at next
  · cases next
    exact ⟨rfl, rfl, rfl⟩
  · contradiction

theorem checkSyncFifos_modes (count : Nat) (small : Small cfg) (inv : Inv cfg s) (h : Modes cfg s)
    (on : cfg.faultTolerance = true) (next : checkSyncFifos cfg count s.send = some send) :
    Modes cfg { s with send } ∧ (0 < count → ∀ d < cfg.send.ndevs, send.warn d = true) := by
  induction count generalizing s with
  | zero =>
    cases next
    exact ⟨h, by simp⟩
  | succ count ih =>
    obtain ⟨first, one, rest⟩ := Option.bind_eq_some_iff.mp next
    have failed := checkSyncFifo_flags small inv h on one
    have kept : Modes cfg { s with send := first } :=
      { h with
        send := uniform_of_all fun _ => failed
        sendBases := fun on devBases mem =>
          h.sendBases on devBases ((checkSyncFifo_rest one).1 ▸ mem) }
    obtain ⟨hm, later⟩ := ih (checkSyncFifo_inv inv one).1 kept rest
    refine ⟨hm, fun _ => ?_⟩
    cases count with
    | zero =>
      cases rest
      exact failed
    | succ count => exact later (Nat.succ_pos _)

theorem step_modes (a : Action) (small : Small cfg) (inv : Inv cfg s) (h : Modes cfg s)
    (next : step cfg s a = some s') : Modes cfg s' := by
  cases a with
  | irecv items => exact irecv_modes h next
  | rePost k => exact rePostFifo_modes h next
  | recvRollBack k i positions => exact recvRollBack_modes small h next
  | iflush stale =>
    obtain ⟨-, ⟨⟩⟩ := Option.ite_none_right_eq_some.mp next
    refine { h with recvBases := ?_ }
    intro on r mem
    rcases mem_cons.mp mem with rfl | old
    · exact iflush_whole small on h.recv
    · exact h.recvBases on r old
  | flushError k i =>
    obtain ⟨devBases, hf, set', rfl⟩ := flushError_some next
    exact { h with
      recv := flag_uniform small (fun on => h.recvBases on _ (mem_of_getElem? hf)) set' }
  | freeRecv k =>
    cases next
    exact { h with recvBases := fun on r mem => h.recvBases on r (mem_of_mem_eraseIdx mem) }
  | refresh =>
    cases next
    exact { h with recv := uniform_of_all fun _ d hb => if_pos hb }
  | isend tag size stale =>
    obtain ⟨⟨_, _⟩, ran, rfl⟩ := Option.map_eq_some_iff.mp next
    exact isend_modes small h ran
  | sendError k i =>
    obtain ⟨devBases, hf, set', rfl⟩ := sendError_some next
    exact { h with
      send := flag_uniform small (fun on => h.sendBases on _ (mem_of_getElem? hf)) set' }
  | freeSend k =>
    cases next
    exact { h with sendBases := fun on b mem => h.sendBases on b (mem_of_mem_eraseIdx mem) }
  | sendRollBack count =>
    obtain ⟨-, on, send, ran, rfl⟩ := sendRollBack_some next
    exact (checkSyncFifos_modes count small inv.reset { h with } on ran).1
  | land qp =>
    obtain ⟨w, _, -, rfl⟩ := land_some next
    cases w <;> exact { h with }
  | lose qp k =>
    cases next
    exact { h with }
  | reread qp k j =>
    obtain ⟨w, -, rfl⟩ := reread_some next
    exact { h with }

theorem reachable_modes (small : Small cfg) (reached : Reachable (step cfg) initial s) :
    Inv cfg s ∧ Modes cfg s :=
  reachable_invariant (fun s => Inv cfg s ∧ Modes cfg s) ⟨initial_inv, initial_modes⟩
    (fun _ a _ kept next => ⟨step_inv a kept.1 next, step_modes a small kept.1 kept.2 next⟩) reached

/-- The same devices are flagged at the two ends, and both pick the same QPs. -/
structure Agree (cfg : Config) (warn flags : Nat → Bool) : Prop where
  devices : ∀ d, (d < cfg.send.ndevs ∧ warn d = true) ↔ (d < cfg.recv.ndevs ∧ flags d = true)
  qps : ∀ q, pickQp cfg .send warn q = pickQp cfg .recv flags q

theorem agree_of_all {flags : Nat → Bool} (same : cfg.send.ndevs = cfg.recv.ndevs)
    (send : ∀ d < cfg.send.ndevs, warn d = b) (recv : ∀ d < cfg.recv.ndevs, flags d = b) :
    Agree cfg warn flags := by
  constructor
  · intro d
    rw [same] at send ⊢
    exact and_congr_right fun hb => by rw [send d hb, recv d hb]
  · intro q
    simp only [pickQp, Config.at]
    rw [send _ (Nat.mod_lt _ cfg.send.positive), recv _ (Nat.mod_lt _ cfg.recv.positive)]

/-- With the same number of devices at both ends, one or two, the sender's flags are those the
receiver had when it posted the entry: the last sync entry of a rollback, or a clear-to-send entry. -/
theorem flags_agree_up_to_two_devices (on : cfg.faultTolerance = true)
    (same : cfg.send.ndevs = cfg.recv.ndevs) (few : cfg.recv.ndevs ≤ 2) {s : State}
    (reached : Reachable (step cfg) initial s) :
    (∀ count s' y, step cfg s (.sendRollBack count) = some s' →
        s'.history.syncs[s'.send.syncFifoHead - 1]? = some y → Agree cfg s'.send.warn y.flags) ∧
      ∀ tag size stale s' r, isend cfg tag size stale s = some (s', some r) →
        ∃ p, s.history.posted (s.send.fifoHead + 1) = some p ∧ Agree cfg s'.send.warn p.flags := by
  have small : Small cfg := fun _ => ⟨same ▸ few, few⟩
  obtain ⟨inv, hm⟩ := reachable_modes small reached
  constructor
  · intro count s' y next hf
    obtain ⟨hp, -, send, ran, rfl⟩ := sendRollBack_some next
    have failed := (checkSyncFifos_modes count small inv.reset { hm with } on ran).2 hp
    exact agree_of_all same failed (hm.syncs y (mem_of_getElem? hf)).2
  · intro tag size stale s' r next
    rcases isend_some next with ⟨-, _⟩ | ⟨_, -, _, ha, hpl, -, ends⟩
    · contradiction
    obtain ⟨p, head⟩ := inv.atHead ha hpl
    have alike : ∀ d < cfg.recv.ndevs, p.flags d = p.flags 0 := by
      intro d hb
      simpa [on] using (hm.posted _ p head.posted).1 d hb
    have flags := matchSend_flags size stale hm head on
    refine ⟨p, head.posted, ?_⟩
    rcases ends with ⟨-, rfl⟩ | ⟨-, rfl⟩
    all_goals exact agree_of_all same flags alike

def lastFlags (s : State) : Option (List Bool) :=
  (s.history.syncs[s.send.syncFifoHead - 1]?).map fun y => (range 4).map y.flags

theorem single_flags_agree : ∃ s s' y, Reachable (step single) initial s ∧
    step single s (.sendRollBack 1) = some s' ∧
      s'.history.syncs[s'.send.syncFifoHead - 1]? = some y ∧ Agree single s'.send.warn y.flags := by
  obtain ⟨s, s', ran, next, hf⟩ := run_step_reaches (step single) initial
    (failedOver.take 6) (.sendRollBack 1) (fun _ s' => (lastFlags s').isSome) (by decide +kernel)
  obtain ⟨flags, ht⟩ := Option.isSome_iff_exists.mp hf
  obtain ⟨y, read, -⟩ := Option.map_eq_some_iff.mp ht
  have agree := flags_agree_up_to_two_devices (rfl : single.faultTolerance = true) rfl (by decide) ⟨_, ran⟩
  exact ⟨s, s', y, ⟨_, ran⟩, next, read, agree.1 1 s' y next read⟩

def merged : Config where
  faultTolerance := true
  splitDataOnQps := false
  qpsPerConn := 1
  send := ⟨4, 4, Ib.maxDevsPerNic_pos, by decide, Ib.maxDevsPerNic_pos, by decide⟩
  recv := ⟨4, 4, Ib.maxDevsPerNic_pos, by decide, Ib.maxDevsPerNic_pos, by decide⟩
  flushEnabled := true
  backupFlushEnabled := true
  oneQp := Nat.one_pos

def thirdDeviceFails : List Action := [.irecv [message], .recvRollBack 0 2 [0], .land ⟨true, 0⟩]

/-- The receiver has flagged devices 2 and 3, the sender flags 0 and 1. -/
theorem third_device_flags_differ : ∃ s s' y, Reachable (step merged) initial s ∧
    step merged s (.sendRollBack 1) = some s' ∧
      s'.history.syncs[s'.send.syncFifoHead - 1]? = some y ∧
      (range 4).map s'.send.warn = [true, true, false, false] ∧
      (range 4).map y.flags = [false, false, true, true] ∧ ¬ Agree merged s'.send.warn y.flags := by
  obtain ⟨s, s', ran, next, hf⟩ := run_step_reaches (step merged) initial thirdDeviceFails
    (.sendRollBack 1)
    (fun _ s' => lastFlags s' = some [false, false, true, true] ∧
      (range 4).map s'.send.warn = [true, true, false, false]) (by decide +kernel)
  obtain ⟨ht, sent⟩ := hf
  obtain ⟨y, read, flags⟩ := Option.map_eq_some_iff.mp ht
  refine ⟨s, s', y, ⟨_, ran⟩, next, read, sent, flags, ?_⟩
  intro ha
  have failed : s'.send.warn 0 = true := (cons.inj sent).1
  have working : y.flags 0 = false := (cons.inj flags).1
  have := (ha.devices 0).mp ⟨by decide, failed⟩
  simp [working] at this

/-- `index h` is the QP index with which the entry after position `h` begins. -/
structure Indexed (cfg : Config) (posted : Nat → Option Posted) (syncs : List SyncPosted) (index : Nat → Nat) : Prop where
  next : ∀ n p, posted (n + 1) = some p →
    p.start = index n ∧ index (n + 1) = qpAfter cfg.recvNqps cfg.recvQpsPerMessage (index n)
  synced : ∀ y ∈ syncs, index y.elem.recvFifoTail = 0

structure Turns (cfg : Config) (s : State) : Prop where
  indexed : ∃ index, Indexed cfg s.history.posted s.history.syncs index ∧ s.send.qpIndex = index s.send.fifoHead ∧
    s.recv.qpIndex = index s.recv.fifoTail
  consumed : ∀ c ∈ s.history.consumed, ∃ p, s.history.posted c.idx = some p ∧ c.qps = p.qps

theorem initial_turns : Turns cfg initial where
  indexed := ⟨fun _ => 0, ⟨by simp [initial], by simp [initial]⟩, rfl, rfl⟩
  consumed := by simp [initial]

variable {index : Nat → Nat}

theorem Indexed.extend {h : History} {fifoTail syncFifoTail t v : Nat} (turns : Indexed cfg h.posted h.syncs index)
    (posts : Posts h fifoTail syncFifoTail) (new : fifoTail < t) :
    Indexed cfg h.posted h.syncs (Function.update index t v) := by
  constructor
  · intro n p hf
    have below := (posts.inside _ p hf).2.1
    rw [Function.update_of_ne (by omega), Function.update_of_ne (by omega)]
    exact turns.next n p hf
  · intro y mem
    obtain ⟨j, hb, rfl⟩ := getElem_of_mem mem
    have := (posts.tails j _ (getElem?_eq_getElem hb)).2
    rw [Function.update_of_ne (by omega)]
    exact turns.synced _ mem

theorem irecv_turns (inv : Inv cfg s) (h : Turns cfg s) (next : irecv cfg items s = some s') :
    Turns cfg s' := by
  obtain ⟨-, ⟨⟩⟩ := Option.ite_none_left_eq_some.mp next
  obtain ⟨index, ht, send, recv⟩ := h.indexed
  have grows := inv.grows_post (s.recv.toPost cfg items s.history.syncs.length)
    [fifoRequest cfg .cts (s.recv.ctsQp cfg)]
  have head := inv.head
  have extended := ht.extend (v := qpAfter cfg.recvNqps cfg.recvQpsPerMessage s.recv.qpIndex)
    inv.toPosts (Nat.lt_succ_self s.recv.fifoTail)
  constructor
  · refine ⟨_, ⟨?_, extended.synced⟩, ?_, ?_⟩
    · intro n p hf
      rcases posted_post hf with ⟨same, rfl⟩ | old
      · obtain rfl := Nat.succ.inj same
        rw [Function.update_self, Function.update_of_ne (by omega)]
        exact ⟨recv, by rw [recv]⟩
      · exact extended.next n p old
    · rw [Function.update_of_ne (by simp only; omega)]
      exact send
    · simp
  · intro c mem
    obtain ⟨p, hf, same⟩ := h.consumed c mem
    exact ⟨p, grows.posted _ p hf, same⟩

theorem postSyncFifo_turns (errPortIdx restartPos : Nat) (inv : Inv cfg s) 
    (turns : Indexed cfg s.history.posted s.history.syncs index) (send : s.send.qpIndex = index s.send.fifoHead) :
    ∃ index', Indexed cfg s.history.posted (postSyncFifo cfg errPortIdx s restartPos).history.syncs index' ∧
      s.send.qpIndex = index' s.send.fifoHead ∧ index' (s.recv.fifoTail + 1000) = 0 := by
  have head := inv.head
  have extended := turns.extend (t := s.recv.fifoTail + 1000) (v := 0) inv.toPosts (by omega)
  refine ⟨_, ⟨extended.next, ?_⟩, ?_, ?_⟩
  · exact forall_mem_append.mpr ⟨extended.synced, forall_mem_singleton.mpr (Function.update_self _ _ _)⟩
  · rw [Function.update_of_ne (by omega)]
    exact send
  · exact Function.update_self _ _ _

theorem postSyncFifos_turns {errPortIdx : Nat} (some' : positions ≠ []) (inv : Inv cfg s)
    (turns : Indexed cfg s.history.posted s.history.syncs index) (send : s.send.qpIndex = index s.send.fifoHead)
    (reset : s.recv.qpIndex = 0)
    (consumed : ∀ c ∈ s.history.consumed, ∃ p, s.history.posted c.idx = some p ∧ c.qps = p.qps) :
    Turns cfg (positions.foldl (postSyncFifo cfg errPortIdx) s) := by
  induction positions generalizing s index with
  | nil => contradiction
  | cons restartPos rest ih =>
    obtain ⟨index', ht', send', tail⟩ := postSyncFifo_turns errPortIdx restartPos inv turns send
    cases rest with
    | nil => exact ⟨⟨index', ht', send', reset.trans tail.symm⟩, consumed⟩
    | cons next others => exact ih (by simp) (postSyncFifo_inv inv) ht' send' reset consumed

theorem recvRollBack_turns (inv : Inv cfg s) (h : Turns cfg s) (next : recvRollBack cfg k i positions s = some s') :
    Turns cfg s' := by
  obtain ⟨devBases, t, -, -, some', -, rfl⟩ := recvRollBack_some next
  obtain ⟨_, ht, send, -⟩ := h.indexed
  have start : Inv cfg (startRollBack devBases i s) := { inv with }
  exact { postSyncFifos_turns some' start ht send rfl h.consumed with }

theorem matchSend_qps {p : Posted} (small : Small cfg) (modes : Modes cfg s) (head : AtHead cfg s p r)
    (start : p.start = s.send.qpIndex) :
    sendQps cfg (matchSend cfg size stale r s).send = p.qps := by
  obtain ⟨hu, -, qps⟩ := modes.posted _ p head.posted
  have send : Uniform cfg .send (matchSend cfg size stale r s).send.warn :=
    (matchSend_modes small modes).send
  have mode := matchSend_mode size stale modes head 0 cfg.send.positive
  rw [qps, recvNqps_eq, recvQpsPerMessage_eq, start]
  apply map_congr_left
  intro q _
  rw [pickQp_uniform send, pickQp_uniform hu, mode]

theorem isend_turns (small : Small cfg) (inv : Inv cfg s) (modes : Modes cfg s) (h : Turns cfg s)
    (next : isend cfg tag size stale s = some (s', result)) : Turns cfg s' := by
  rcases isend_some next with ⟨rfl, -⟩ | ⟨r, -, _, ha, hp, -, ⟨-, rfl⟩ | ⟨-, rfl⟩⟩
  · exact h
  · exact ⟨h.indexed, h.consumed⟩
  obtain ⟨p, head⟩ := inv.atHead ha hp
  obtain ⟨index, ht, send, recv⟩ := h.indexed
  obtain ⟨start, after⟩ := ht.next _ p head.posted
  constructor
  · refine ⟨index, ht, ?_, recv⟩
    simp only [multiSend, matchSend]
    rw [after, recvNqps_eq, recvQpsPerMessage_eq, send]
  · intro c mem
    rcases mem_append.mp mem with old | new
    · exact h.consumed c old
    · obtain rfl := mem_singleton.mp new
      exact ⟨p, head.posted, matchSend_qps small modes head (start.trans send.symm)⟩

theorem checkSyncFifos_rest (count : Nat) {s : Sender} (next : checkSyncFifos cfg count s = some send) :
    send.qpIndex = s.qpIndex ∧ send.fifoReqs = s.fifoReqs := by
  induction count generalizing s with
  | zero =>
    cases next
    exact ⟨rfl, rfl⟩
  | succ count ih =>
    obtain ⟨_, one, rest⟩ := Option.bind_eq_some_iff.mp next
    obtain ⟨-, index, reqs⟩ := checkSyncFifo_rest one
    exact ⟨(ih rest).1.trans index, (ih rest).2.trans reqs⟩

theorem sendRollBack_turns {count : Nat} (inv : Inv cfg s) (h : Turns cfg s)
    (next : sendRollBack cfg count s = some s') : Turns cfg s' := by
  obtain ⟨hp, -, send, ran, rfl⟩ := sendRollBack_some next
  obtain ⟨y, hf, head, -⟩ := (checkSyncFifos_inv count inv.reset ran).2 hp
  obtain ⟨index, ht, -, recv⟩ := h.indexed
  refine ⟨⟨index, ht, ?_, recv⟩, h.consumed⟩
  rw [(checkSyncFifos_rest count ran).1, head]
  exact (ht.synced y (mem_of_getElem? hf)).symm

theorem step_turns (a : Action) (small : Small cfg) (inv : Inv cfg s) (modes : Modes cfg s) (h : Turns cfg s)
    (next : step cfg s a = some s') : Turns cfg s' := by
  cases a
  case irecv items => exact irecv_turns inv h next
  case rePost k =>
    obtain ⟨_, t, -, -, -, rfl⟩ := rePostFifo_some next
    exact { h with }
  case recvRollBack k i positions => exact recvRollBack_turns inv h next
  case iflush stale =>
    obtain ⟨-, ⟨⟩⟩ := Option.ite_none_right_eq_some.mp next
    exact { h with }
  case isend tag size stale =>
    obtain ⟨⟨_, _⟩, ran, rfl⟩ := Option.map_eq_some_iff.mp next
    exact isend_turns small inv modes h ran
  case sendRollBack count => exact sendRollBack_turns inv h next
  all_goals
    have quiet := step_quiet rfl next
    constructor
    · rw [quiet.history, quiet.send, quiet.recv]
      exact h.indexed
    · rw [quiet.history]
      exact h.consumed

/-- Without fault tolerance, or with at most two devices at each end, every message is sent on the
QPs its receive was posted on. -/
theorem message_qps_agree (small : cfg.faultTolerance = true → cfg.send.ndevs ≤ 2 ∧ cfg.recv.ndevs ≤ 2)
    {s : State} (reached : Reachable (step cfg) initial s) :
    ∀ c ∈ s.history.consumed, ∃ p, s.history.posted c.idx = some p ∧ c.qps = p.qps := by
  have kept : Inv cfg s ∧ Modes cfg s ∧ Turns cfg s :=
    reachable_invariant (fun s => Inv cfg s ∧ Modes cfg s ∧ Turns cfg s)
      ⟨initial_inv, initial_modes, initial_turns⟩
      (fun _ a _ ⟨inv, hm, turns⟩ next =>
        ⟨step_inv a inv next, step_modes a small inv hm next, step_turns a small inv hm turns next⟩)
      reached
  exact kept.2.2.consumed

theorem failed_over_qps_agree : ∃ s, Reachable (step single) initial s ∧
    s.history.consumed.map Consumed.qps = [[⟨false, 0⟩], [⟨true, 0⟩]] ∧
      ∀ c ∈ s.history.consumed, ∃ p, s.history.posted c.idx = some p ∧ c.qps = p.qps := by
  obtain ⟨s, ran, hf⟩ := run_reaches (step single) initial failedOver
    (fun s => s.history.consumed.map Consumed.qps = [[⟨false, 0⟩], [⟨true, 0⟩]]) (by decide +kernel)
  exact ⟨s, ⟨_, ran⟩, hf, message_qps_agree (by decide) ⟨_, ran⟩⟩

/-- After an error on device 2 the next message is received on two primary and two backup QPs and
sent on the primary ones. -/
theorem third_device_qps_differ : ∃ s c p, Reachable (step merged) initial s ∧
    c ∈ s.history.consumed ∧ s.history.posted c.idx = some p ∧
      c.qps = [⟨false, 0⟩, ⟨false, 1⟩, ⟨false, 2⟩, ⟨false, 3⟩] ∧
      p.qps = [⟨false, 0⟩, ⟨false, 1⟩, ⟨true, 2⟩, ⟨true, 3⟩] := by
  obtain ⟨s, ran, hf⟩ := run_reaches (step merged) initial
    (thirdDeviceFails ++ [.sendRollBack 1, .irecv [message], .land ⟨false, 1⟩, .isend 7 64 fun _ => false])
    (fun s => s.history.consumed = [⟨1002, [⟨false, 0⟩, ⟨false, 1⟩, ⟨false, 2⟩, ⟨false, 3⟩], 1⟩] ∧
      (s.history.posted 1002).map Posted.qps = some [⟨false, 0⟩, ⟨false, 1⟩, ⟨true, 2⟩, ⟨true, 3⟩]) (by decide +kernel)
  obtain ⟨p, posted, qps⟩ := Option.map_eq_some_iff.mp hf.2
  exact ⟨s, _, p, ⟨_, ran⟩, by rw [hf.1]; exact mem_singleton_self _, posted, rfl, qps⟩

end Vccl.Failover
