import Vccl.Bootstrap.RootThread
import Vccl.Lib.Totals

/-! All ranks and all roots of one initialisation. The ranks contact the roots in any order, and a root accepts the
connections that wait for it in any order. -/
namespace Vccl.Bootstrap

open Mailbox Transition List Function

/-- What each rank has still to send, what waits at each root, and the root threads. -/
structure Net (A I : Type) where
  pending : Nat → List (Nat × ExtInfo A I)
  queue : Nat → List (ExtInfo A I)
  roots : Nat → Root A I

inductive Action where
  | send (rank : Nat)
  | accept (root k : Nat)
deriving DecidableEq

variable {A I : Type} (job : Job A I)

def Net.initial : Net A I :=
  ⟨job.messages, fun _ => [], fun _ => Root.initial job.zeroAddress job.zeroInfo⟩

def step [DecidableEq A] [DecidableEq I] (s : Net A I) : Action → Option (Net A I)
  | .send rank =>
    if rank < job.nranks then
      match s.pending rank with
      | [] => none
      | (i, m) :: rest => some { s with
          pending := update s.pending rank rest
          queue := update s.queue i (s.queue i ++ [m]) }
    else none
  | .accept i k =>
    if i < job.nroots ∧ (s.roots i).status = .collecting then
      match (s.queue i)[k]? with
      | none => none
      | some m => some { s with
          queue := update s.queue i ((s.queue i).eraseIdx k)
          roots := update s.roots i ((s.roots i).receive job.zeroAddress job.zeroInfo m) }
    else none

structure Placed (s : Net A I) (i : Nat) (seen queued : List Nat) : Prop where
  queue : s.queue i = queued.map (job.expected i)
  distinct : (seen ++ queued).Nodup
  whole : ∀ l, l ∈ seen ++ queued ↔ l < job.nrecv i ∧ (i, job.expected i l) ∉ s.pending (job.owner i l)
  root : RootInv job i seen (s.roots i)

structure Inv (s : Net A I) : Prop where
  pending : ∀ rank < job.nranks, s.pending rank <:+ job.messages rank
  placed : ∀ i < job.nroots, ∃ seen queued, Placed job s i seen queued

section

variable {job} {s t : Net A I}

theorem owner_lt (i l : Nat) : job.owner i l < job.nranks := Nat.mod_lt _ job.nranks_pos

theorem initial_inv : Inv job (Net.initial job) := by
  refine ⟨fun rank _ => suffix_rfl, fun i hb => ⟨[], [], rfl, nodup_nil, ?_, ?_⟩⟩
  · intro l
    simp only [append_nil, not_mem_nil, false_iff, not_and, not_not]
    intro hi
    exact (Job.mem_messages (owner_lt i l)).mpr ⟨l, hb, hi, rfl, rfl⟩
  · refine ⟨rfl, ?_, fun _ => rfl, by simp⟩
    have some_rank := job.n2send_pos i
    rw [if_neg (by simp only [length_nil, Job.nrecv]; omega)]
    rfl

theorem Placed.seen_lt {i : Nat} {seen queued : List Nat} (h : Placed job s i seen queued) :
    ∀ l ∈ seen, l < job.nrecv i :=
  fun l mem => ((h.whole l).mp (mem_append_left _ mem)).1

variable {m : ExtInfo A I}

theorem Inv.send (h : Inv job s) {rank i : Nat} {rest : List (Nat × ExtInfo A I)} (below : rank < job.nranks)
    (next : s.pending rank = (i, m) :: rest) :
    Inv job { s with
      pending := update s.pending rank rest, queue := update s.queue i (s.queue i ++ [m]) } := by
  have suffix := h.pending rank below
  rw [next] at suffix
  obtain ⟨l, root, _, rfl, owner⟩ := (Job.mem_messages below).mp (suffix.subset mem_cons_self)
  have once : (i, job.expected i l) ∉ rest :=
    (nodup_cons.mp (suffix.sublist.nodup (Job.messages_nodup below))).1
  constructor
  · intro other hi'
    by_cases same : other = rank
    · subst same
      simp only [update_self]
      exact (suffix_cons _ _).trans suffix
    · simp only [update_of_ne same]
      exact h.pending other hi'
  · intro j hb'
    obtain ⟨seen, queued, hp⟩ := h.placed j hb'
    -- What is left to be sent to root `j` is as before, but for the contribution that went out.
    have left : ∀ k, ((j, job.expected j k) ∈ update s.pending rank rest (job.owner j k)) ↔
        (j, job.expected j k) ∈ s.pending (job.owner j k) ∧ ¬ (j = i ∧ k = l) := by
      intro k
      have same := @Job.expected_injective _ _ job j k l
      by_cases here : job.owner j k = rank
      · grind
      · rw [update_of_ne here]
        grind
    by_cases same : j = i
    · subst same
      have unsent : l ∉ seen ++ queued := fun ht =>
        ((hp.whole l).mp ht).2 (by rw [owner, next]; exact mem_cons_self)
      refine ⟨seen, queued ++ [l], ?_, ?_, ?_, hp.root⟩
      · simp [hp.queue]
      · rw [← append_assoc]
        exact nodup_append.mpr ⟨hp.distinct, nodup_singleton l, by grind⟩
      · intro k
        rw [← append_assoc, mem_append, hp.whole k]
        grind
    · refine ⟨seen, queued, ?_, hp.distinct, ?_, hp.root⟩
      · simp only [update_of_ne same]
        exact hp.queue
      · intro k
        rw [hp.whole k, left k]
        simp [same]

theorem Inv.accept [DecidableEq A] [DecidableEq I] (h : Inv job s) {i k : Nat} (below : i < job.nroots)
    (collecting : (s.roots i).status = .collecting) (there : (s.queue i)[k]? = some m) :
    Inv job { s with
      queue := update s.queue i ((s.queue i).eraseIdx k)
      roots := update s.roots i ((s.roots i).receive job.zeroAddress job.zeroInfo m) } := by
  refine ⟨h.pending, fun j hb' => ?_⟩
  obtain ⟨seen, queued, hp⟩ := h.placed j hb'
  by_cases same : j = i
  · subst same
    rw [hp.queue, List.getElem?_map, Option.map_eq_some_iff] at there
    obtain ⟨l, hf, rfl⟩ := there
    obtain ⟨hs, value⟩ := List.getElem?_eq_some_iff.mp hf
    have moved : (l :: queued.eraseIdx k).Perm queued := value ▸ getElem_cons_eraseIdx_perm hs
    have shuffle : (l :: seen ++ queued.eraseIdx k).Perm (seen ++ queued) :=
      perm_middle.symm.trans (moved.append_left seen)
    have distinct : (l :: (seen ++ queued.eraseIdx k)).Nodup := shuffle.nodup_iff.mpr hp.distinct
    have mem : l ∈ seen ++ queued := mem_append_right _ (moved.subset mem_cons_self)
    refine ⟨l :: seen, queued.eraseIdx k, ?_, distinct, ?_, ?_⟩
    · simp [hp.queue, eraseIdx_map]
    · intro k'
      rw [shuffle.mem_iff]
      exact hp.whole k'
    · simp only [update_self]
      refine hp.root.receive below ((hp.whole l).mp mem).1 ?_ hp.seen_lt ?_ collecting
      · exact fun ha => (nodup_cons.mp distinct).1 (mem_append_left _ ha)
      · exact (nodup_append.mp hp.distinct).1
  · refine ⟨seen, queued, ?_, hp.distinct, hp.whole, ?_⟩
    · simp only [update_of_ne same]
      exact hp.queue
    · simp only [update_of_ne same]
      exact hp.root

section

variable [DecidableEq A] [DecidableEq I] {a : Action}

theorem step_cases (taken : step job s a = some t) :
    (∃ rank i m rest, rank < job.nranks ∧ s.pending rank = (i, m) :: rest ∧
      t = { s with
        pending := update s.pending rank rest, queue := update s.queue i (s.queue i ++ [m]) }) ∨
    (∃ i k m, i < job.nroots ∧ (s.roots i).status = .collecting ∧ (s.queue i)[k]? = some m ∧
      t = { s with
        queue := update s.queue i ((s.queue i).eraseIdx k)
        roots := update s.roots i ((s.roots i).receive job.zeroAddress job.zeroInfo m) }) := by
  cases a with
  | send rank =>
    simp only [step] at taken
    split at taken
    next hb =>
      split at taken
      · cases taken
      next i m rest list =>
        cases taken
        exact .inl ⟨rank, i, m, rest, hb, list, rfl⟩
    · cases taken
  | accept i k =>
    simp only [step] at taken
    split at taken
    next hw =>
      split at taken
      · cases taken
      next m ht =>
        cases taken
        exact .inr ⟨i, k, m, hw.1, hw.2, ht, rfl⟩
    · cases taken

theorem step_inv (h : Inv job s) (taken : step job s a = some t) : Inv job t := by
  rcases step_cases taken with ⟨_, i, m, _, hb, list, rfl⟩ | ⟨i, k, m, hb, hc, ht, rfl⟩
  · exact h.send hb list
  · exact h.accept hb hc ht

end

def Net.delivered (job : Job A I) (s : Net A I) : List (A × I) :=
  (range job.nroots).flatMap fun i => (s.roots i).sends

def Job.answer (job : Job A I) (rank : Nat) : A × I :=
  (job.listenRootAddress rank, job.connectInfo ((rank + 1) % job.nranks))

theorem answer_eq {i l : Nat} (below : i < job.nroots) (own : l < job.n2send i) :
    (job.address i l, job.info i ((job.plan i).next l)) = job.answer (job.first i + l) := by
  have received : l < job.nrecv i := by
    unfold Job.nrecv
    omega
  have next := (bootstrapPid_nat (Nat.zero_lt_of_lt received) (l + 1)).1
  simp only [Job.address, Job.info, Int.toNat_natCast, Job.owner_of_own below own, Job.plan]
  rw [← Int.natCast_add_one, next, Int.toNat_natCast, Job.owner]
  congr 2
  by_cases hs : 1 < job.nroots
  · have size : job.nrecv i = job.n2send i + 1 := by
      rw [Job.nrecv, if_pos hs]
    rw [Nat.mod_eq_of_lt (show l + 1 < job.nrecv i by omega), Nat.add_assoc]
  have single : job.nroots = 1 := by
    omega
  have zero : i = 0 := by omega
  have start : job.first 0 = 0 := firstRankFromRoot_zero
  have size : job.nrecv 0 = job.nranks := by
    have whole := @firstRankFromRoot_last job.nranks job.nroots job.some_root
    have next_root : job.first 1 = job.first 0 + job.n2send 0 := Job.first_succ (zero ▸ below)
    rw [Job.nrecv, if_neg hs]
    rw [single] at whole
    have one : job.first 1 = job.nranks := by
      rw [Job.first, single]
      exact whole
    omega
  rw [zero, start, size, Nat.zero_add, Nat.zero_add, Nat.mod_mod]

theorem RootInv.served {i : Nat} {seen : List Nat} {root : Root A I} (h : RootInv job i seen root)
    (below : i < job.nroots) :
    ∃ served : List Nat, served.Nodup ∧ (∀ l ∈ served, l < job.n2send i) ∧
      ((∀ l < job.nrecv i, l ∈ seen) → ∀ l < job.n2send i, l ∈ served) ∧
      root.sends = served.map fun l => job.answer (job.first i + l) := by
  by_cases hn : seen = []
  · refine ⟨[], nodup_nil, by simp, ?_, by simp [h.fresh hn]⟩
    intro he l own
    have := he l (by unfold Job.nrecv; omega)
    rw [hn] at this
    cases this
  · obtain ⟨served, hd, who, sends⟩ := (h.opened hn).matched.sent
    have small : ∀ l ∈ served, 0 ≤ l ∧ l < job.n2send i := fun l mem => ((who l).mp mem).1
    refine ⟨served.map Int.toNat, ?_, ?_, ?_, ?_⟩
    · refine hd.map_on ?_
      intro a first b hs same
      have := small a first
      have := small b hs
      omega
    · intro l mem
      obtain ⟨l', hi, rfl⟩ := mem_map.mp mem
      have := small l' hi
      omega
    · intro he l own
      refine mem_map.mpr ⟨l, (who l).mpr ⟨⟨by omega, by omega⟩, ?_, ?_⟩, Int.toNat_natCast l⟩
      · exact mem_map_of_mem (he l (by unfold Job.nrecv; omega))
      · obtain ⟨next, hi⟩ := bootstrapPid_nat (n := job.nrecv i) (by unfold Job.nrecv; omega) (l + 1)
        show bootstrapPid ((l : Int) + 1) (job.nrecv i) ∈ _
        rw [← Int.natCast_add_one, next]
        exact mem_map_of_mem (he _ hi)
    · show root.box.sends = _
      rw [sends, map_map]
      refine map_congr_left ?_
      intro l mem
      have own := small l mem
      have cast : ((l.toNat : Nat) : Int) = l := Int.toNat_of_nonneg own.1
      rw [comp_apply, ← answer_eq below (by omega), cast]

section

variable {i : Nat} {seen queued : List Nat}

theorem Placed.finished (h : Placed job s i seen queued) (done : (s.roots i).status = .finished) :
    ∀ l < job.nrecv i, l ∈ seen := by
  have all : seen.length = job.nrecv i := by
    by_contra hm
    rw [h.root.status, if_neg hm] at done
    cases done
  have inside : seen ⊆ range (job.nrecv i) := fun l mem => mem_range.mpr (h.seen_lt l mem)
  have everyone := (subperm_of_subset (nodup_append.mp h.distinct).1 inside).perm_of_length_le
    (by rw [length_range, all])
  exact fun l hs => everyone.mem_iff.mpr (mem_range.mpr hs)

theorem Placed.nothing_left (h : Placed job s i seen queued)
    (suffix : ∀ rank < job.nranks, s.pending rank <:+ job.messages rank)
    (done : (s.roots i).status = .finished) :
    s.queue i = [] ∧ ∀ rank < job.nranks, ∀ m, (i, m) ∉ s.pending rank := by
  have everyone := h.finished done
  constructor
  · rw [h.queue, map_eq_nil_iff, eq_nil_iff_forall_not_mem]
    intro l hw
    have inside := ((h.whole l).mp (mem_append_right _ hw)).1
    exact (nodup_append.mp h.distinct).2.2 l (everyone l inside) l hw rfl
  · intro rank inside m hu
    obtain ⟨l, -, hs, rfl, rfl⟩ := (Job.mem_messages inside).mp ((suffix rank inside).subset hu)
    exact ((h.whole l).mp (mem_append_left _ (everyone l hs))).2 hu

theorem Placed.waits_for (h : Placed job s i seen queued) (going : (s.roots i).status = .collecting) :
    ∃ m, m ∈ s.queue i ∨ ∃ rank < job.nranks, (i, m) ∈ s.pending rank := by
  have missing : seen.length ≠ job.nrecv i := by
    intro all
    rw [h.root.status, if_pos all] at going
    cases going
  obtain ⟨l, hs, ha⟩ : ∃ l < job.nrecv i, l ∉ seen := by
    by_contra nobody
    push Not at nobody
    have sub := subperm_of_subset (nodup_range (n := job.nrecv i)) fun l mem =>
      nobody l (mem_range.mp mem)
    have inside : seen ⊆ range (job.nrecv i) := fun l mem => mem_range.mpr (h.seen_lt l mem)
    have sub' := subperm_of_subset (nodup_append.mp h.distinct).1 inside
    have := sub.length_le
    have := sub'.length_le
    rw [length_range] at *
    omega
  refine ⟨job.expected i l, ?_⟩
  by_cases sent : l ∈ seen ++ queued
  · rcases mem_append.mp sent with old | hw
    · exact absurd old ha
    · refine .inl ?_
      rw [h.queue]
      exact mem_map_of_mem hw
  · refine .inr ⟨job.owner i l, owner_lt i l, ?_⟩
    by_contra gone
    exact sent ((h.whole l).mpr ⟨hs, gone⟩)

end

theorem Inv.delivered (h : Inv job s) :
    ∃ served : List Nat, served.Nodup ∧ (∀ rank ∈ served, rank < job.nranks) ∧
      s.delivered job = served.map job.answer ∧
      ∀ i < job.nroots, (s.roots i).status = .finished → ∀ l < job.n2send i, job.first i + l ∈ served := by
  have each : ∀ i, ∃ served : List Nat, i < job.nroots → served.Nodup ∧ (∀ l ∈ served, l < job.n2send i) ∧
      (s.roots i).sends = (served.map fun l => job.answer (job.first i + l)) ∧
      ((s.roots i).status = .finished → ∀ l < job.n2send i, l ∈ served) := by
    intro i
    by_cases below : i < job.nroots
    · obtain ⟨_, _, placed⟩ := h.placed i below
      obtain ⟨served, distinct, own, all, sends⟩ := placed.root.served below
      exact ⟨served, fun _ => ⟨distinct, own, sends, fun done => all (placed.finished done)⟩⟩
    · exact ⟨[], fun inside => absurd inside below⟩
  choose served facts using each
  refine ⟨(range job.nroots).flatMap fun i => (served i).map (job.first i + ·), ?_, ?_, ?_, ?_⟩
  · rw [nodup_flatMap]
    constructor
    · intro i mem
      refine (facts i (mem_range.mp mem)).1.map ?_
      exact fun a b same => Nat.add_left_cancel same
    refine (nodup_range (n := job.nroots)).imp_of_mem ?_
    intro i j left right different
    have below := mem_range.mp left
    have below' := mem_range.mp right
    intro rank first second
    obtain ⟨l, inside, rfl⟩ := mem_map.mp first
    obtain ⟨l', inside', same⟩ := mem_map.mp second
    have root := Job.rootIdFromRank_own below ((facts i below).2.1 l inside)
    have root' := Job.rootIdFromRank_own below' ((facts j below').2.1 l' inside')
    rw [show job.first j + l' = job.first i + l from same, root] at root'
    exact different root'
  · intro rank mem
    obtain ⟨i, range, inside⟩ := mem_flatMap.mp mem
    have below := mem_range.mp range
    obtain ⟨l, inside', rfl⟩ := mem_map.mp inside
    have own := (facts i below).2.1 l inside'
    have next : job.first (i + 1) ≤ job.nranks := Job.first_le_nranks below
    rw [Job.first_succ below] at next
    omega
  · rw [map_flatMap]
    refine flatMap_congr ?_
    intro i mem
    rw [(facts i (mem_range.mp mem)).2.2.1, map_map]
    rfl
  · intro i below done l own
    exact mem_flatMap.mpr
      ⟨i, mem_range.mpr below, mem_map_of_mem ((facts i below).2.2.2 done l own)⟩

theorem Inv.status (h : Inv job s) {i : Nat} (below : i < job.nroots) :
    (s.roots i).status = .finished ∨ (s.roots i).status = .collecting := by
  obtain ⟨_, _, hp⟩ := h.placed i below
  rw [hp.root.status]
  split
  · exact .inl rfl
  · exact .inr rfl

def Net.work (job : Job A I) (s : Net A I) : Nat :=
  (∑ rank ∈ Finset.range job.nranks, 2 * (s.pending rank).length) + ∑ i ∈ Finset.range job.nroots, (s.queue i).length

theorem step_work [DecidableEq A] [DecidableEq I] {a : Action} (h : Inv job s) (taken : step job s a = some t) :
    t.work job + 1 = s.work job := by
  unfold Net.work
  rcases step_cases taken with ⟨rank, i, m, rest, hb, list, rfl⟩ | ⟨i, k, m, hb, -, ht, rfl⟩
  · have suffix := h.pending rank hb
    rw [list] at suffix
    obtain ⟨l, root, -, -, -⟩ := (Job.mem_messages hb).mp (suffix.subset mem_cons_self)
    have sent := @sum_change (fun r => 2 * (s.pending r).length)
      (fun r => 2 * (update s.pending rank rest r).length) job.nranks rank hb
      fun j other => by simp [update_of_ne other]
    have queued := @sum_change (fun j => (s.queue j).length)
      (fun j => (update s.queue i (s.queue i ++ [m]) j).length) job.nroots i root
      fun j other => by simp [update_of_ne other]
    simp only [update_self, list, length_cons, length_append, length_nil] at sent queued
    dsimp only
    omega
  · obtain ⟨hs, -⟩ := List.getElem?_eq_some_iff.mp ht
    have queued := @sum_change (fun j => (s.queue j).length)
      (fun j => (update s.queue i ((s.queue i).eraseIdx k) j).length) job.nroots i hb
      fun j other => by simp [update_of_ne other]
    simp only [update_self, length_eraseIdx_of_lt hs] at queued
    dsimp only
    omega

section

variable [DecidableEq A] [DecidableEq I] {actions : List Action}

theorem run_inv (ran : run (step job) (Net.initial job) actions = some s) : Inv job s :=
  reachable_invariant (Inv job) initial_inv (fun _ _ _ h taken => step_inv h taken) ⟨actions, ran⟩

theorem run_work (h : Inv job s) (ran : run (step job) s actions = some t) :
    actions.length + t.work job = s.work job := by
  induction actions generalizing s with
  | nil =>
    cases ran
    exact Nat.zero_add _
  | cons a rest ih =>
    obtain ⟨m, ht, tail⟩ := run_cons_some.mp ran
    have one := step_work h ht
    have more := ih (step_inv h ht) tail
    rw [length_cons]
    omega

theorem Inv.moves (h : Inv job s) {i : Nat} (below : i < job.nroots) (going : (s.roots i).status = .collecting) :
    ∃ a, step job s a ≠ none := by
  obtain ⟨_, _, hp⟩ := h.placed i below
  obtain ⟨m, hw | ⟨rank, hi, hu⟩⟩ := hp.waits_for going
  · obtain ⟨k, ht⟩ := mem_iff_getElem?.mp hw
    refine ⟨.accept i k, ?_⟩
    simp only [step, if_pos (And.intro below going), ht]
    exact Option.some_ne_none _
  · refine ⟨.send rank, ?_⟩
    simp only [step, if_pos hi]
    cases list : s.pending rank with
    | nil =>
      rw [list] at hu
      cases hu
    | cons => exact Option.some_ne_none _

end

end

/-- No root fails; the roots send to no rank anything but the information of the next one, and that not twice; a root
whose thread has ended has served all of its ranks, and nobody contacts it after that; a root that waits is going to be
contacted; and a run ends, after as many steps as there is work, with every rank served. -/
theorem every_rank_learns_the_next [DecidableEq A] [DecidableEq I] {actions : List Action} {s : Net A I}
    (ran : run (step job) (Net.initial job) actions = some s) :
    (∀ i < job.nroots, (s.roots i).status ≠ .failed) ∧
    (∃ served : List Nat, served.Nodup ∧ (∀ rank ∈ served, rank < job.nranks) ∧
      s.delivered job = served.map job.answer ∧
      ∀ i < job.nroots, (s.roots i).status = .finished →
        ∀ rank, job.first i ≤ rank → rank < job.first (i + 1) → rank ∈ served) ∧
    (∀ i < job.nroots, (s.roots i).status = .finished →
      s.queue i = [] ∧ ∀ rank < job.nranks, ∀ m, (i, m) ∉ s.pending rank) ∧
    (∀ i < job.nroots, (s.roots i).status = .collecting →
      ∃ m, m ∈ s.queue i ∨ ∃ rank < job.nranks, (i, m) ∈ s.pending rank) ∧
    ((∀ a, step job s a = none) →
      (∀ i < job.nroots, (s.roots i).status = .finished) ∧
        (s.delivered job).Perm ((range job.nranks).map job.answer)) ∧
    actions.length + s.work job = (Net.initial job).work job := by
  have h := run_inv ran
  obtain ⟨served, hd, hi, delivered, hc⟩ := h.delivered
  refine ⟨?_, ⟨served, hd, hi, delivered, ?_⟩, ?_, ?_, ?_, run_work initial_inv ran⟩
  · intro i hb failed
    rcases h.status hb with status | status <;> rw [failed] at status <;> cases status
  · intro i hb done rank hf hbe
    have mem := hc i hb done (rank - job.first i) (by rw [Job.first_succ hb] at hbe; omega)
    rwa [Nat.add_sub_cancel' hf] at mem
  · intro i hb done
    obtain ⟨seen, queued, hp⟩ := h.placed i hb
    exact hp.nothing_left h.pending done
  · intro i hb hg
    obtain ⟨seen, queued, hp⟩ := h.placed i hb
    exact hp.waits_for hg
  intro hs
  have all : ∀ i < job.nroots, (s.roots i).status = .finished := by
    intro i hb
    rcases h.status hb with done | hg
    · exact done
    · obtain ⟨a, he⟩ := h.moves hb hg
      exact absurd (hs a) he
  refine ⟨all, ?_⟩
  rw [delivered]
  refine Perm.map _ ?_
  rw [perm_ext_iff_of_nodup hd nodup_range]
  intro rank
  rw [mem_range]
  refine ⟨hi rank, fun hsm => ?_⟩
  obtain ⟨i, l, hb, own, rfl⟩ := Job.exists_place hsm
  exact hc i hb (all i hb) l own

def threeRanks : Job Nat Nat where
  nranks := 3
  nroots := 2
  zeroAddress := 0
  zeroInfo := 0
  listenRootAddress rank := 10 + rank
  connectInfo rank := 20 + rank
  some_root := by decide
  fits := by decide
  address_set rank := by omega
  info_set rank := by omega

def lastFirst : List Action :=
  [.send 2, .send 2, .accept 0 0, .send 1, .accept 0 0, .send 0, .accept 0 0, .accept 1 0, .send 0, .accept 1 0]

theorem three_ranks_learn_the_next :
    ∃ s, run (step threeRanks) (Net.initial threeRanks) lastFirst = some s ∧
      s.delivered threeRanks = [(11, 22), (10, 21), (12, 20)] ∧ (s.roots 0).status ≠ .failed := by
  obtain ⟨s, ran, hf⟩ := run_reaches (step threeRanks) (Net.initial threeRanks) lastFirst
    (fun s => s.delivered threeRanks = [(11, 22), (10, 21), (12, 20)]) (by decide)
  exact ⟨s, ran, hf, (every_rank_learns_the_next threeRanks ran).1 0 (by decide)⟩

end Vccl.Bootstrap
