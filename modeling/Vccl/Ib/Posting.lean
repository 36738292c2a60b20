import Vccl.Ib.Accounting

namespace Vccl.Ib

open List Function Option

variable {cfg : Config} {s : State} {i : Dev}

theorem due_eq_zero {o : Owner} (none : ∀ q, ∀ wr ∈ s.inFlight q, o ∉ wr.owners) (d : Dev) :
    s.due o d = 0 := by
  have each : ∀ q, share o (s.inFlight q) = 0 := by
    intro q
    refine count_eq_zero.mpr fun mem => ?_
    obtain ⟨wr, here, owns⟩ := mem_flatMap.mp mem
    exact none q wr here owns
  rw [State.due, each, each]

variable {k : Nat} {wr : WorkRequest} {q : Queue}

theorem Accounts.unused_not_owner {owed : List Owner} (h : Accounts cfg s i owed)
    (unused : (s.reqs k).type = .unused) (mem : wr ∈ s.inFlight q) {o : Owner} (owns : o ∈ wr.owners) :
    o.slot ≠ k := by
  intro same
  exact ((h.sound q wr mem).live o owns).2.2 (same ▸ unused)

variable {t : State} {type : ReqType}

theorem getRequest_some {nreqs : Nat → Nat} (got : getRequest s type nreqs = some (k, t)) :
    k < maxRequests ∧ (s.reqs k).type = .unused ∧
      t = s.modify k fun r => { r.reset with type, nreqs := nreqs r.nreqs } := by
  unfold getRequest at got
  split at got
  next hf =>
    obtain ⟨rfl, rfl⟩ := got
    have unused := find?_some hf
    have inside := mem_of_find?_eq_some hf
    exact ⟨mem_range.mp inside, by simpa using unused, rfl⟩
  · contradiction

theorem Inv.getRequest (h : Inv cfg s) {nreqs : Nat → Nat} (got : getRequest s type nreqs = some (k, t)) :
    Inv cfg t := by
  obtain ⟨-, hu, rfl⟩ := getRequest_some got
  intro i
  have h := h i
  have waits : ∀ slot r j, s.fifoReqs slot r = some j → j ≠ k := by
    intro slot r j waits same
    have := (h.waiting slot r j waits).2.2.2.1
    rw [same, hu] at this
    contradiction
  refine h.change ⟨rfl, rfl⟩ ?_ ?_ fun slot r j here => by simp [State.modify, waits slot r j here]
  · intro q wr mem
    refine (h.sound q wr mem).of_alike fun o owns => ?_
    have other := h.unused_not_owner hu mem owns
    simp [State.modify, other]
  · intro j d
    by_cases here : j = k
    · subst here
      have counts := h.counts j d
      have fresh := due_eq_zero (s := s) (o := ⟨j, (s.reqs j).use + 1⟩)
        (fun q wr mem owns => h.unused_not_owner hu mem owns rfl) d
      have due : (s.modify j fun r => { r.reset with type, nreqs := nreqs r.nreqs }).due
          ⟨j, (s.reqs j).use + 1⟩ d = 0 := fresh
      refine .inr ⟨fun slot r waits' => waits slot r j waits' rfl, ?_⟩
      simp [State.owner, State.modify, Request.reset] at counts due ⊢
      rw [due]
      split <;> simp
      omega
    · simp [Slack, State.owner, State.modify, here, State.due, State.inFlight]

variable {imm : Bool} {flush : Bool}

theorem sound_single {reqs : Nat → Request} {use : Nat} (small : k < maxRequests) (current : (reqs k).use = use)
    (type : (reqs k).type = .recv ∨ (reqs k).type = .flush ∧ imm = false) :
    Sound reqs ⟨wrIdOf [k], imm, flush, [⟨k, use⟩]⟩ := by
  refine ⟨rfl, ?_, ⟨⟨k, use⟩, [], rfl, .inr ⟨?_, rfl, ?_⟩⟩⟩
  · intro o mem
    rw [mem_singleton.mp mem]
    refine ⟨small, current, ?_⟩
    rcases type with recv | ⟨flush, -⟩
    · simp [recv]
    · simp [flush]
  · rcases type with recv | ⟨flush, -⟩
    · simp [recv]
    · simp [flush]
  · intro imm'
    rcases type with recv | ⟨-, none⟩
    · exact recv
    · simp [none] at imm'

structure Single (s : State) (k : Nat) (imm : Bool) : Prop where
  small : k < maxRequests
  type : (s.reqs k).type = .recv ∨ (s.reqs k).type = .flush ∧ imm = false

theorem Single.of_alike (h : Single s k imm) (alike : Alike s.reqs t.reqs) : Single t k imm :=
  ⟨h.small, by rw [(alike k).1]; exact h.type⟩

theorem Inv.addPosted (h : Inv cfg s) (recvComm : cfg.isSend = false) (single : Single s k imm)
    (reqs : t.reqs = (s.modify k (·.addEvent q)).reqs)
    (flight : t.posted = (s.post q ⟨wrIdOf [k], imm, flush, [s.owner k]⟩).posted ∧ t.cq = s.cq)
    (fifo : t.fifoReqs = s.fifoReqs ∧ t.fifoHead = s.fifoHead) (warn : t.warn = s.warn) :
    Inv cfg t := by
  intro i
  have sound : Sound s.reqs ⟨wrIdOf [k], imm, flush, [s.owner k]⟩ :=
    sound_single single.small rfl single.type
  exact (h i).addPosted rfl sound reqs flight fifo warn (.inr ((h i).role recvComm))

theorem postRecvs_inv (recvComm : cfg.isSend = false) (k n : Nat) (h : Inv cfg s)
    (single : Single s k true) :
    Inv cfg (postRecvs cfg k n s) ∧ Alike s.reqs (postRecvs cfg k n s).reqs := by
  induction n generalizing s with
  | zero => exact ⟨h, fun _ => ⟨rfl, rfl, rfl⟩⟩
  | succ n ih =>
    have alike : Alike s.reqs (s.modify k (·.addEvent (qpQueue cfg s.warn s.qpIndex))).reqs :=
      addEvent_alike s k _
    have next : Inv cfg { (s.modify k (·.addEvent (qpQueue cfg s.warn s.qpIndex))).post
        (qpQueue cfg s.warn s.qpIndex) ⟨wrIdOf [k], true, false, [s.owner k]⟩ with
          qpIndex := (s.qpIndex + 1) % cfg.nqps } :=
      h.addPosted recvComm single rfl ⟨rfl, rfl⟩ ⟨rfl, rfl⟩ rfl
    obtain ⟨inv, ha'⟩ := ih next (single.of_alike alike)
    exact ⟨inv, alike.trans ha'⟩

theorem postFifo_inv (recvComm : cfg.isSend = false) (k : Nat) (h : Inv cfg s)
    (single : Single s k false) : Inv cfg (postFifo cfg k s) := by
  unfold postFifo
  split
  · exact h.addPosted recvComm single rfl ⟨rfl, rfl⟩ ⟨rfl, rfl⟩ rfl
  · intro i
    exact (h i).grow (fun _ => ⟨rfl, rfl, rfl⟩) (fun _ _ => le_rfl) ⟨rfl, rfl⟩ ⟨rfl, rfl, rfl⟩ rfl

theorem irecv_inv {n : Nat} (h : Inv cfg s) (posted : irecv cfg s n = some t) :
    Inv cfg t := by
  obtain ⟨he, posted⟩ := ite_none_right_eq_some.mp posted
  obtain ⟨⟨k, u⟩, got, rfl⟩ := map_eq_some_iff.mp posted
  have inv := h.getRequest got
  obtain ⟨hs, -, same⟩ := getRequest_some got
  have type : (u.reqs k).type = .recv := by simp [same, State.modify]
  have bases : Alike u.reqs (u.modify k (·.setBases cfg)).reqs := alike_modify u k ⟨rfl, rfl, rfl⟩
  have events : ∀ j d, (u.reqs j).events d ≤ ((u.modify k (·.setBases cfg)).reqs j).events d := by
    intro j d
    by_cases here : j = k
    · subst here
      simp [State.modify, Request.setBases]
    · simp [State.modify, here]
  have inv' : Inv cfg (u.modify k (·.setBases cfg)) := fun i =>
    (inv i).grow bases events ⟨rfl, rfl⟩ ⟨rfl, rfl, rfl⟩ rfl
  have single : Single (u.modify k (·.setBases cfg)) k true :=
    ⟨hs, .inl ((bases k).1.trans type)⟩
  obtain ⟨inv'', ha⟩ := postRecvs_inv he.1 k cfg.perMessage inv' single
  refine postFifo_inv he.1 k inv'' ⟨hs, .inl ?_⟩
  rw [(ha k).1, (bases k).1, type]

theorem postFlushes_inv (recvComm : cfg.isSend = false) (k : Nat) (devs : List Dev) (h : Inv cfg s)
    (single : Single s k false) : Inv cfg (postFlushes cfg k devs s) := by
  induction devs generalizing s with
  | nil => exact h
  | cons d rest ih =>
    exact ih (h.addPosted recvComm single rfl ⟨rfl, rfl⟩ ⟨rfl, rfl⟩ rfl)
      (single.of_alike (addEvent_alike s k _))

theorem iflush_inv (h : Inv cfg s) (posted : iflush cfg s = some t) : Inv cfg t := by
  obtain ⟨hr, posted⟩ := ite_none_right_eq_some.mp posted
  obtain ⟨⟨k, u⟩, got, rfl⟩ := map_eq_some_iff.mp posted
  obtain ⟨hs, -, same⟩ := getRequest_some got
  refine postFlushes_inv hr k _ (h.getRequest got) ⟨hs, .inr ⟨?_, rfl⟩⟩
  simp [same, State.modify]

theorem addEvents_spec (cfg : Config) (k n q : Nat) (s : State) :
    ∃ r : Request, addEvents cfg k n q s = s.modify k (fun _ => r) ∧ r.type = (s.reqs k).type ∧
      r.nreqs = (s.reqs k).nreqs ∧ r.use = (s.reqs k).use ∧
      ∀ d, r.events d = (s.reqs k).events d + planned cfg s.warn n q d := by
  induction n generalizing q s with
  | zero => exact ⟨s.reqs k, by simp [addEvents, State.modify], rfl, rfl, rfl, by simp [planned]⟩
  | succ n ih =>
    obtain ⟨r, same, type, nreqs, use, events⟩ :=
      ih ((q + 1) % cfg.nqps) (s.modify k (·.addEvent (qpQueue cfg s.warn q)))
    have alike := addEvent_alike s k (qpQueue cfg s.warn q) k
    refine ⟨r, ?_, type.trans alike.1, nreqs.trans alike.2.1, use.trans alike.2.2, ?_⟩
    · rw [addEvents, same]
      simp [State.modify]
    intro d
    have first := addEvent_events s k (qpQueue cfg s.warn q) k d
    rw [events, first, planned]
    by_cases dev : d = (qpQueue cfg s.warn q).dev
    · simp [dev, State.modify]
      omega
    · have dev' : ¬ (qpQueue cfg s.warn q).dev = d := fun same => dev same.symm
      simp [dev, dev', State.modify]

structure Sending (cfg : Config) (s : State) (slots : List Nat) (n : Nat) : Prop where
  sound : ∀ q, ∀ wr ∈ s.inFlight q, Sound s.reqs wr
  counts : ∀ k d, (s.due (s.owner k) d : Int) ≤ (s.reqs k).events d
  covered : ∀ k ∈ slots, ∀ d,
    ((s.due (s.owner k) d + planned cfg s.warn n s.qpIndex d : Nat) : Int) ≤ (s.reqs k).events d

variable {slots : List Nat}

theorem count_owners (distinct : slots.Nodup) (k : Nat) :
    (slots.map s.owner).count (s.owner k) = if k ∈ slots then 1 else 0 := by
  have injective : Injective s.owner := fun a b same => congrArg Owner.slot same
  rw [count_map_of_injective slots s.owner injective, distinct.count]

theorem postSends_sending (distinct : slots.Nodup) (owners : wr.owners = slots.map s.owner)
    (sound : Sound s.reqs wr) (n : Nat) (h : Sending cfg s slots n) :
    Sending cfg (postSends cfg wr n s) slots 0 ∧ (postSends cfg wr n s).reqs = s.reqs ∧
      (postSends cfg wr n s).fifoReqs = s.fifoReqs ∧ (postSends cfg wr n s).fifoHead = s.fifoHead := by
  induction n generalizing s with
  | zero => exact ⟨h, rfl, rfl, rfl⟩
  | succ n ih =>
    set queue := qpQueue cfg s.warn s.qpIndex with hq
    have due := fun k d => due_post s queue wr (s.owner k) d
    simp only [owners, count_owners distinct] at due
    refine ih owners sound ⟨?_, ?_, ?_⟩
    · intro q other mem
      rcases mem_inFlight_post mem with same | hb
      · rw [same]
        exact sound
      · exact h.sound q other hb
    · intro k d
      show (((s.post queue wr).due (s.owner k) d : Nat) : Int) ≤ _
      rw [due]
      by_cases here : k ∈ slots
      · have covered := h.covered k here d
        rw [planned, ← hq] at covered
        by_cases dev : d = queue.dev
        · simp [here, dev] at covered ⊢
          exact le_trans (by omega) covered
        · simp [dev]
          exact h.counts k d
      · simp [here]
        exact h.counts k d
    · intro k here d
      show (((s.post queue wr).due (s.owner k) d +
        planned cfg s.warn n ((s.qpIndex + 1) % cfg.nqps) d : Nat) : Int) ≤ _
      rw [due]
      have covered := h.covered k here d
      rw [planned, ← hq] at covered
      by_cases dev : d = queue.dev
      · simp [here, dev] at covered ⊢
        exact le_trans (by omega) covered
      · have dev' : ¬ queue.dev = d := fun same => dev same.symm
        simp [dev, dev'] at covered ⊢
        exact covered

theorem multiSend_inv (h : Inv cfg s)
    (complete : ∀ r < (cfg.entry s.fifoHead).nreqs, (s.fifoReqs (s.fifoHead % maxRequests) r).isSome) :
    Inv cfg (multiSend cfg s) := by
  have acc := h (cfg.dev 0)
  set slots := s.matched (cfg.entry s.fifoHead).nreqs with all
  have waits : ∀ k ∈ slots, ∃ r, s.fifoReqs (s.fifoHead % maxRequests) r = some k := by
    intro k mem
    obtain ⟨r, -, here⟩ := mem_filterMap.mp mem
    exact ⟨r, here⟩
  have length : slots.length = (cfg.entry s.fifoHead).nreqs := by
    rw [all, State.matched, filterMap_length_eq_length.mpr, length_range]
    intro r mem
    exact complete r (mem_range.mp mem)
  have distinct : slots.Nodup := by
    apply Nodup.filterMap _ nodup_range
    intro r r' k here ht
    exact acc.once _ r r' k here ht
  have live : ∀ k ∈ slots, k < maxRequests ∧ (s.reqs k).type = .send ∧
      (s.reqs k).nreqs = (cfg.entry s.fifoHead).nreqs := by
    intro k mem
    obtain ⟨r, here⟩ := waits k mem
    exact (acc.waiting _ r k here).2.2
  have sound : Sound s.reqs ⟨wrIdOf slots, false, false, slots.map s.owner⟩ := by
    refine ⟨?_, ?_, ?_⟩
    · simp [comp_def, State.owner]
    · intro o mem
      obtain ⟨k, here, rfl⟩ := mem_map.mp mem
      obtain ⟨hs, type, -⟩ := live k here
      exact ⟨hs, rfl, by simp [State.owner, type]⟩
    · cases all : slots with
      | nil =>
        rw [all] at length
        have := (cfg.entries s.fifoHead).1
        simp only [length_nil] at length
        omega
      | cons k rest =>
        obtain ⟨-, type, nreqs⟩ := live k (by simp [all])
        refine ⟨s.owner k, rest.map s.owner, rfl, .inl ⟨type, ?_⟩⟩
        rw [length_map, ← all, length]
        exact nreqs
  have sending : Sending cfg s slots cfg.perMessage := by
    refine ⟨acc.sound, ?_, ?_⟩
    · intro k d
      simpa using acc.counts k d
    · intro k mem d
      obtain ⟨r, here⟩ := waits k mem
      simpa using acc.covered _ r k here d
  obtain ⟨sent, reqs, fifoReqs, head⟩ := postSends_sending distinct rfl sound cfg.perMessage sending
  have cleared : ∀ slot r, (multiSend cfg s).fifoReqs slot r = none := by
    intro slot r
    simp only [multiSend, ← all, fifoReqs, head]
    by_cases here : slot = s.fifoHead % maxRequests
    · simp [here]
    · rw [update_of_ne here]
      cases waits : s.fifoReqs slot r with
      | none => rfl
      | some k => exact absurd (acc.waiting slot r k waits).1 here
  intro i
  refine ⟨sent.sound, ?_, ?_, ?_, ?_, fun _ => cleared⟩
  · intro k d
    have counts := sent.counts k d
    simp only [count_nil, ite_self]
    exact counts
  · intro slot r k waits
    simp [cleared] at waits
  · intro slot r r' k waits
    simp [cleared] at waits
  · intro slot r k waits
    simp [cleared] at waits

theorem Inv.matches (h : Inv cfg s) (sendComm : cfg.isSend = true) {r : Nat}
    (enabled : r < (cfg.entry s.fifoHead).nreqs) (fresh : ∀ q, ∀ wr ∈ s.inFlight q, ∀ o ∈ wr.owners, o.slot ≠ k)
    (idle : ∀ slot r, s.fifoReqs slot r ≠ some k) (live : k < maxRequests ∧ (s.reqs k).type = .send ∧
      (s.reqs k).nreqs = (cfg.entry s.fifoHead).nreqs)
    (events : ∀ d, (planned cfg s.warn cfg.perMessage s.qpIndex d : Int) ≤ (s.reqs k).events d) :
    Inv cfg (s.setMatched r k) := by
  -- every entry is the new one or one of before
  have entries : ∀ slot r' j, (s.setMatched r k).fifoReqs slot r' = some j →
      slot = s.fifoHead % maxRequests ∧ r' = r ∧ j = k ∨ s.fifoReqs slot r' = some j ∧ j ≠ k := by
    intro slot r' j here
    unfold State.setMatched at here
    simp only at here
    by_cases head : slot = s.fifoHead % maxRequests
    · subst head
      rw [update_self] at here
      by_cases new : r' = r
      · subst new
        rw [update_self, some.injEq] at here
        exact .inl ⟨rfl, rfl, here.symm⟩
      · rw [update_of_ne new] at here
        exact .inr ⟨here, fun same => idle _ r' (same ▸ here)⟩
    · rw [update_of_ne head] at here
      exact .inr ⟨here, fun same => idle slot r' (same ▸ here)⟩
  intro i
  have acc := h i
  refine ⟨acc.sound, acc.counts, ?_, ?_, ?_, ?_⟩
  · intro slot r' j here
    rcases entries slot r' j here with ⟨rfl, rfl, rfl⟩ | ⟨hb, -⟩
    · exact ⟨rfl, enabled, live⟩
    · exact acc.waiting slot r' j hb
  · intro slot a b j here ht
    rcases entries slot a j here with ⟨rfl, rfl, rfl⟩ | ⟨hb, other⟩
    · rcases entries _ b j ht with ⟨-, rfl, -⟩ | ⟨-, other⟩
      · rfl
      · exact absurd rfl other
    · rcases entries slot b j ht with ⟨-, -, same⟩ | ⟨hb', -⟩
      · exact absurd same other
      · exact acc.once slot a b j hb hb'
  · intro slot r' j here d
    rcases entries slot r' j here with ⟨rfl, rfl, rfl⟩ | ⟨hb, -⟩
    · have zero : s.due (s.owner j) d = 0 :=
        due_eq_zero (fun q wr mem owns => fresh q wr mem _ owns rfl) d
      have due : (s.setMatched r' j).due ((s.setMatched r' j).owner j) d = 0 := zero
      rw [due]
      simpa [State.setMatched] using events d
    · exact acc.covered slot r' j hb d
  · intro hr
    simp [hr] at sendComm

theorem followEntry_inv (h : Inv cfg s) (unmixed : Unmixed cfg s) : Inv cfg (followEntry cfg s) := by
  unfold followEntry
  simp only
  split
  · intro i
    exact (h i).setWarn unmixed _
  · exact h

theorem followEntry_same (cfg : Config) (s : State) : (followEntry cfg s).reqs = s.reqs ∧
    (followEntry cfg s).fifoReqs = s.fifoReqs ∧ (followEntry cfg s).fifoHead = s.fifoHead := by
  unfold followEntry
  simp only
  split <;> exact ⟨rfl, rfl, rfl⟩

theorem isend_inv {r : Nat} (followed : Inv cfg (followEntry cfg s)) (posted : isend cfg s r = some t) :
    Inv cfg t := by
  unfold isend at posted
  obtain ⟨-, hw, head⟩ := followEntry_same cfg s
  obtain ⟨he, posted⟩ := ite_none_right_eq_some.mp posted
  obtain ⟨⟨k, u⟩, got, rfl⟩ := map_eq_some_iff.mp posted
  have inv := followed.getRequest got
  obtain ⟨hs, hu, same⟩ := getRequest_some got
  have acc := followed (cfg.dev 0)
  obtain ⟨_, hc, type, nreqs, use, events⟩ := addEvents_spec cfg k cfg.perMessage u.qpIndex u
  simp only
  generalize addEvents cfg k cfg.perMessage u.qpIndex u = v at hc ⊢
  have kept : u.fifoReqs = s.fifoReqs ∧ u.fifoHead = s.fifoHead := by
    simp [same, State.modify, hw, head]
  have alike : Alike u.reqs v.reqs := by
    rw [hc]
    exact alike_modify u k ⟨type, nreqs, use⟩
  have inv' : Inv cfg v := by
    intro i
    refine (inv i).grow alike ?_ ?_ ?_ ?_
    · intro j d
      rw [hc]
      by_cases here : j = k
      · subst here
        simp only [State.modify, update_self, events]
        omega
      · simp [State.modify, here]
    · rw [hc]
      exact ⟨rfl, rfl⟩
    · rw [hc]
      exact ⟨rfl, rfl, rfl⟩
    · rw [hc]
      rfl
  have fresh : ∀ q, ∀ wr ∈ v.inFlight q, ∀ o ∈ wr.owners, o.slot ≠ k := by
    intro q wr mem o owns
    rw [hc, same] at mem
    exact acc.unused_not_owner hu mem owns
  have idle : ∀ slot r, v.fifoReqs slot r ≠ some k := by
    intro slot r' here
    rw [hc] at here
    have before : (followEntry cfg s).fifoReqs slot r' = some k := by
      rw [hw, ← kept.1]
      exact here
    have := (acc.waiting slot r' k before).2.2.2.1
    rw [hu] at this
    contradiction
  have head' : v.fifoHead = s.fifoHead := by
    rw [hc]
    exact kept.2
  have live : k < maxRequests ∧ (v.reqs k).type = .send ∧ (v.reqs k).nreqs = (cfg.entry s.fifoHead).nreqs := by
    rw [(alike k).1, (alike k).2.1, same]
    exact ⟨hs, by simp [State.modify], by simp [State.modify]⟩
  have matched := inv'.matches he.1 (head' ▸ he.2.1) fresh idle (head' ▸ live) (by
    intro d
    have base := (inv (cfg.dev 0)).counts k d
    rw [hc]
    simp only [State.modify, update_self, events]
    omega)
  split
  next hco =>
    refine multiSend_inv matched ?_
    intro r' hi
    have inside' : r' < (cfg.entry s.fifoHead).nreqs := head' ▸ hi
    have found := all_eq_true.mp hco r' (mem_range.mpr inside')
    rw [← head'] at found
    exact found
  · exact matched

end Vccl.Ib
