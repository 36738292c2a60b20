import Vccl.Bootstrap.Roots
import Vccl.Lib.Mailbox

/-! The thread `bootstrapRoot`: it tells each of its ranks how to reach the next one as soon as both have come in. -/
namespace Vccl.Bootstrap

open Mailbox List

inductive Status where
  | collecting
  | finished
  | failed
deriving DecidableEq

/-- The locals of `bootstrapRoot`; `sends` is what `rootSend` was called with. -/
structure Root (A I : Type) where
  c : Nat
  nranks : Nat
  iroot : Nat
  nroots : Nat
  nrecv : Nat
  n2send : Nat
  rankInfo : Int → I
  rankAddressesRoot : Int → A
  sends : List (A × I)
  status : Status

section

variable {A I : Type} [DecidableEq A] [DecidableEq I] (zeroAddress : A) (zeroInfo : I)

def Root.initial : Root A I := ⟨0, 0, 0, 0, 0, 0, fun _ => zeroInfo, fun _ => zeroAddress, [], .collecting⟩

def Root.rootSend (root : Root A I) (addr : A) (info : I) : Root A I :=
  { root with sends := root.sends ++ [(addr, info)] }

def Root.open (root : Root A I) (info : ExtInfo A I) : Root A I :=
  if root.c = 0 then
    let n2send := nRankFromRoot info.iroot info.nranks info.nroots
    { root with
      nranks := info.nranks, iroot := info.iroot, nroots := info.nroots, n2send
      nrecv := n2send + if 1 < info.nroots then 1 else 0
      rankInfo := fun _ => zeroInfo, rankAddressesRoot := fun _ => zeroAddress }
  else root

def Root.prev (root : Root A I) (localId : Int) : Int :=
  if 1 < root.nroots then localId - 1 else bootstrapPid (localId - 1) root.nrecv

def Root.sendPrev (root : Root A I) (localId : Int) (info : ExtInfo A I) : Root A I :=
  let prev := root.prev localId
  if 0 ≤ prev ∧ prev < root.n2send ∧ root.rankAddressesRoot prev ≠ zeroAddress then
    root.rootSend (root.rankAddressesRoot prev) info.connectInfo
  else { root with rankInfo := Function.update root.rankInfo localId info.connectInfo }

def Root.sendNext (root : Root A I) (localId : Int) (info : ExtInfo A I) : Root A I :=
  let next := bootstrapPid (localId + 1) root.nrecv
  if 0 ≤ localId ∧ localId < root.n2send ∧ root.rankInfo next ≠ zeroInfo then
    root.rootSend info.listenRootAddress (root.rankInfo next)
  else { root with rankAddressesRoot := Function.update root.rankAddressesRoot localId info.listenRootAddress }

def Root.sendRemaining (root : Root A I) : Root A I :=
  (range root.n2send).foldl (fun root (r : Nat) =>
    let next := bootstrapPid ((r : Int) + 1) root.nrecv
    if root.rankAddressesRoot r ≠ zeroAddress ∧ root.rankInfo next ≠ zeroInfo then
      root.rootSend (root.rankAddressesRoot r) (root.rankInfo next)
    else root) root

/-- One turn of the loop in `bootstrapRoot`, and what follows the last one. A local id outside of the two arrays
counts as a failure. -/
def Root.receive (root : Root A I) (info : ExtInfo A I) : Root A I :=
  let root := root.open zeroAddress zeroInfo info
  if root.nranks ≠ info.nranks ∨ root.nroots ≠ info.nroots ∨ root.iroot ≠ info.iroot then
    { root with status := .failed }
  else
    let localId := localIdFromRoot info.rank root.iroot root.nranks root.nroots
    if localId < 0 ∨ (root.nrecv : Int) ≤ localId then { root with status := .failed }
    else if root.rankAddressesRoot localId ≠ zeroAddress ∨ root.rankInfo localId ≠ zeroInfo then
      { root with status := .failed }
    else
      let root := (root.sendPrev zeroAddress localId info).sendNext zeroInfo localId info
      let root := { root with c := root.c + 1 }
      if root.c < root.nrecv then root else { root.sendRemaining zeroAddress zeroInfo with status := .finished }

end

theorem bootstrapPid_eq {n : Nat} {i : Int} (above : -n ≤ i) (below : i < 2 * n) :
    bootstrapPid i n = if i < 0 then i + n else if i < n then i else i - n := by
  unfold bootstrapPid
  split
  · exact Int.emod_eq_of_lt (by omega) (by omega)
  · rw [Int.add_emod_right]
    split
    · exact Int.emod_eq_of_lt (by omega) (by omega)
    · rw [← Int.sub_emod_right]
      exact Int.emod_eq_of_lt (by omega) (by omega)

theorem bootstrapPid_nat {n : Nat} (some_rank : 0 < n) (i : Nat) : bootstrapPid i n = (i % n : Nat) ∧ i % n < n := by
  refine ⟨?_, Nat.mod_lt i some_rank⟩
  rw [bootstrapPid, Int.add_emod_right, Int.natCast_mod]

variable {A I : Type} (job : Job A I)

namespace Job

def plan (i : Nat) : Plan Int where
  mine p := 0 ≤ p ∧ p < job.n2send i
  next l := bootstrapPid (l + 1) (job.nrecv i)
  prev l :=
    if 0 ≤ l ∧ l < job.nrecv i then
      let p := if 1 < job.nroots then l - 1 else bootstrapPid (l - 1) (job.nrecv i)
      if 0 ≤ p ∧ p < job.n2send i then some p else none
    else none
  prev_iff := by
    intro l p
    have some_rank := job.n2send_pos i
    have total : job.nrecv i = job.n2send i + if 1 < job.nroots then 1 else 0 := rfl
    have next_of_mine : 0 ≤ p ∧ p < job.n2send i →
        bootstrapPid (p + 1) (job.nrecv i) = if p + 1 < job.nrecv i then p + 1 else 0 := by
      intro mine
      rw [bootstrapPid_eq (by omega) (by omega), if_neg (by omega)]
      split at total <;> split <;> omega
    constructor
    · intro found
      split at found
      next inside =>
        rw [Option.ite_none_right_eq_some] at found
        obtain ⟨mine, here⟩ := found
        cases here
        refine ⟨mine, ?_⟩
        rw [next_of_mine mine]
        split at total
        next several =>
          rw [if_pos several] at mine ⊢
          split <;> omega
        next single =>
          rw [if_neg single, bootstrapPid_eq (by omega) (by omega)]
          split <;> split <;> omega
      · cases found
    · rintro ⟨mine, next⟩
      rw [next_of_mine mine] at next
      split at total
      next several =>
        have after : l = p + 1 := by split at next <;> omega
        rw [if_pos (by omega), if_pos several, after, Int.add_sub_cancel, if_pos mine]
      next single =>
        have same : bootstrapPid (l - 1) (job.nrecv i) = p := by
          rw [bootstrapPid_eq (by split at next <;> omega) (by split at next <;> omega)]
          split <;> split at next <;> omega
        rw [if_pos (by split at next <;> omega), if_neg single, same, if_pos mine]

def address (i : Nat) (l : Int) : A := job.listenRootAddress (job.owner i l.toNat)

def info (i : Nat) (l : Int) : I := job.connectInfo (job.owner i l.toNat)

instance (i : Nat) (l : Int) : Decidable ((job.plan i).mine l) :=
  inferInstanceAs (Decidable (0 ≤ l ∧ l < job.n2send i))

end Job

def Root.box (root : Root A I) : Box Int A I := ⟨root.rankAddressesRoot, root.rankInfo, root.sends⟩

structure Opened (i : Nat) (seen : List Nat) (root : Root A I) : Prop where
  nranks : root.nranks = job.nranks
  iroot : root.iroot = i
  nroots : root.nroots = job.nroots
  n2send : root.n2send = job.n2send i
  nrecv : root.nrecv = job.nrecv i
  matched : Matched job.zeroAddress job.zeroInfo (job.plan i) (job.address i) (job.info i) (seen.map Nat.cast) root.box

structure RootInv (i : Nat) (seen : List Nat) (root : Root A I) : Prop where
  count : root.c = seen.length
  status : root.status = if seen.length = job.nrecv i then .finished else .collecting
  fresh : seen = [] → root.sends = []
  opened : seen ≠ [] → Opened job i seen root

section

variable {job} {i : Nat} {seen : List Nat} {root : Root A I} {m : ExtInfo A I}

theorem RootInv.open_opened (h : RootInv job i seen root) (l : Nat) :
    Opened job i seen (root.open job.zeroAddress job.zeroInfo (job.expected i l)) := by
  unfold Root.open
  by_cases hn : seen = []
  · have start : root.c = 0 := by rw [h.count, hn, length_nil]
    rw [if_pos start]
    refine ⟨rfl, rfl, rfl, rfl, rfl, ?_⟩
    simp only [hn, h.fresh hn]
    exact matched_empty _ _
  · have later : root.c ≠ 0 := by
      rw [h.count]
      exact fun he => hn (length_eq_zero_iff.mp he)
    rw [if_neg later]
    exact h.opened hn

theorem open_c (root : Root A I) (m : ExtInfo A I) (zeroAddress : A) (zeroInfo : I) :
    (root.open zeroAddress zeroInfo m).c = root.c := by
  unfold Root.open
  split <;> rfl

theorem open_status (root : Root A I) (m : ExtInfo A I) (zeroAddress : A) (zeroInfo : I) :
    (root.open zeroAddress zeroInfo m).status = root.status := by
  unfold Root.open
  split <;> rfl

def Root.SameJob (root root' : Root A I) : Prop :=
  root'.c = root.c ∧ root'.nranks = root.nranks ∧ root'.iroot = root.iroot ∧ root'.nroots = root.nroots ∧
    root'.n2send = root.n2send ∧ root'.nrecv = root.nrecv ∧ root'.status = root.status

theorem sendPrev_same [DecidableEq A] (root : Root A I) (m : ExtInfo A I) (zeroAddress : A) (l : Int) :
    root.SameJob (root.sendPrev zeroAddress l m) := by
  simp only [Root.sendPrev]
  split <;> exact ⟨rfl, rfl, rfl, rfl, rfl, rfl, rfl⟩

theorem sendNext_same [DecidableEq I] (root : Root A I) (m : ExtInfo A I) (zeroInfo : I) (l : Int) :
    root.SameJob (root.sendNext zeroInfo l m) := by
  simp only [Root.sendNext]
  split <;> exact ⟨rfl, rfl, rfl, rfl, rfl, rfl, rfl⟩

theorem sendPrev_box [DecidableEq A] {l : Int} (nroots : root.nroots = job.nroots) (n2send : root.n2send = job.n2send i)
    (nrecv : root.nrecv = job.nrecv i) (inside : 0 ≤ l ∧ l < job.nrecv i) :
    (root.sendPrev job.zeroAddress l m).box =
      root.box.offer job.zeroAddress ((job.plan i).prev l) l m.connectInfo := by
  simp only [Root.sendPrev, Root.prev, Box.offer, Job.plan, if_pos inside, nroots, n2send, nrecv]
  generalize (if 1 < job.nroots then l - 1 else bootstrapPid (l - 1) (job.nrecv i)) = p
  by_cases mine : 0 ≤ p ∧ p < job.n2send i
  · simp only [mine, true_and, ↓reduceIte]
    by_cases ht : root.rankAddressesRoot p ≠ job.zeroAddress
    · rw [if_pos ht, if_pos (show root.box.addr p ≠ job.zeroAddress from ht)]
      rfl
    · rw [if_neg ht, if_neg (show ¬ root.box.addr p ≠ job.zeroAddress from ht)]
      rfl
  · rw [if_neg (fun both => mine ⟨both.1, both.2.1⟩), if_neg mine]
    rfl

theorem sendNext_box [DecidableEq I] {l : Int} (n2send : root.n2send = job.n2send i) (nrecv : root.nrecv = job.nrecv i) :
    (root.sendNext job.zeroInfo l m).box =
      root.box.ask job.zeroInfo ((job.plan i).mine l) ((job.plan i).next l) l m.listenRootAddress := by
  have same : (0 ≤ l ∧ l < job.n2send i ∧ root.rankInfo (bootstrapPid (l + 1) (job.nrecv i)) ≠ job.zeroInfo) ↔
      ((job.plan i).mine l ∧ root.box.item ((job.plan i).next l) ≠ job.zeroInfo) := and_assoc.symm
  simp only [Root.sendNext, Box.ask, n2send, nrecv]
  by_cases ht : (job.plan i).mine l ∧ root.box.item ((job.plan i).next l) ≠ job.zeroInfo
  · rw [if_pos (same.mpr ht), if_pos ht]
    rfl
  · rw [if_neg (fun both => ht (same.mp both)), if_neg ht]
    rfl

variable [DecidableEq A] [DecidableEq I]

theorem sendRemaining_eq (zeroAddress : A) (zeroInfo : I)
    (done : ∀ r : Nat, r < root.n2send →
      root.rankAddressesRoot r = zeroAddress ∨ root.rankInfo (bootstrapPid (r + 1) root.nrecv) = zeroInfo) :
    root.sendRemaining zeroAddress zeroInfo = root := by
  unfold Root.sendRemaining
  have ranks : ∀ r ∈ range root.n2send, r < root.n2send := fun r => mem_range.mp
  generalize range root.n2send = rs at ranks
  induction rs with
  | nil => rfl
  | cons r rest ih =>
    rw [foldl_cons, if_neg]
    · exact ih fun r' later => ranks r' (mem_cons_of_mem _ later)
    · rintro ⟨ht, hk⟩
      rcases done r (ranks r mem_cons_self) with zero | zero
      · exact ht zero
      · exact hk zero

theorem Opened.turn (h : Opened job i seen root) {l : Nat} (inside : l < job.nrecv i) (new : l ∉ seen) (c : Nat) :
    Opened job i (l :: seen)
      { (root.sendPrev job.zeroAddress l (job.expected i l)).sendNext job.zeroInfo l (job.expected i l) with c } := by
  obtain ⟨-, hnra, hi, hnr, hn, nrecv, -⟩ :=
    sendPrev_same root (job.expected i l) job.zeroAddress l
  have halves := sendNext_same (root.sendPrev job.zeroAddress l (job.expected i l)) (job.expected i l) job.zeroInfo l
  obtain ⟨-, hnr', hi', hn', hn2', nrecv', -⟩ := halves
  refine ⟨hnr'.trans (hnra.trans h.nranks), hi'.trans (hi.trans h.iroot),
    hn'.trans (hnr.trans h.nroots), hn2'.trans (hn.trans h.n2send),
    nrecv'.trans (nrecv.trans h.nrecv), ?_⟩
  have absent : (l : Int) ∉ seen.map Nat.cast := by
    simpa using new
  have arrived := h.matched.arrive (fun _ => job.address_set _) (fun _ => job.info_set _) absent
  have second := sendNext_box (l := l) (m := job.expected i l) (hn.trans h.n2send) (nrecv.trans h.nrecv)
  have first := sendPrev_box (l := l) (m := job.expected i l) h.nroots h.n2send h.nrecv
    ⟨Int.natCast_nonneg l, Int.ofNat_lt.mpr inside⟩
  rw [first] at second
  show Matched _ _ _ _ _ _ (Root.box (Root.sendNext _ _ _ _))
  rw [second]
  exact arrived

theorem RootInv.receive (h : RootInv job i seen root) (below : i < job.nroots) {l : Nat} (inside : l < job.nrecv i)
    (new : l ∉ seen) (bounded : ∀ k ∈ seen, k < job.nrecv i) (distinct : seen.Nodup)
    (collecting : root.status = .collecting) :
    RootInv job i (l :: seen) (root.receive job.zeroAddress job.zeroInfo (job.expected i l)) := by
  have opened := h.open_opened l
  have count := (open_c root (job.expected i l) job.zeroAddress job.zeroInfo).trans h.count
  have status := (open_status root (job.expected i l) job.zeroAddress job.zeroInfo).trans collecting
  unfold Root.receive
  generalize root.open job.zeroAddress job.zeroInfo (job.expected i l) = root' at opened count status
  have localId : localIdFromRoot (job.expected i l).rank root'.iroot root'.nranks root'.nroots = l := by
    have same : (i + job.nroots) % job.nroots = i := by
      rw [Nat.add_mod_right, Nat.mod_eq_of_lt below]
    simp only [localIdFromRoot, opened.iroot, opened.nranks, opened.nroots, same, Job.expected, Job.first]
    omega
  have absent : (l : Int) ∉ seen.map Nat.cast := by
    simpa using new
  obtain ⟨hn, no_info⟩ := opened.matched.untouched l absent
  simp only [localId]
  rw [if_neg (by simp [opened.nranks, opened.nroots, opened.iroot, Job.expected]),
    if_neg (by rw [opened.nrecv]; omega), if_neg (by simpa [Root.box] using ⟨hn, no_info⟩)]
  have turned := opened.turn inside new (seen.length + 1)
  obtain ⟨c, -, -, -, -, -, hg⟩ := sendPrev_same root' (job.expected i l) job.zeroAddress l
  obtain ⟨c', -, -, -, -, -, hg'⟩ := sendNext_same (root'.sendPrev job.zeroAddress l (job.expected i l))
    (job.expected i l) job.zeroInfo l
  have still := hg'.trans (hg.trans status)
  rw [c', c, count]
  generalize (root'.sendPrev job.zeroAddress l (job.expected i l)).sendNext job.zeroInfo l (job.expected i l) = root''
    at turned still ⊢
  have inside' : l :: seen ⊆ range (job.nrecv i) := by
    exact forall_mem_cons.mpr ⟨mem_range.mpr inside, fun k old => mem_range.mpr (bounded k old)⟩
  have sub := subperm_of_subset (nodup_cons.mpr ⟨new, distinct⟩) inside'
  have full : seen.length + 1 ≤ job.nrecv i := sub.length_le.trans_eq length_range
  have size : root''.nrecv = job.nrecv i := turned.nrecv
  split
  next more =>
    refine ⟨rfl, ?_, (by simp), fun _ => turned⟩
    rw [if_neg (by simp only [length_cons] at more ⊢; omega)]
    exact still
  next last =>
    have everyone : (l :: seen).Perm (range (job.nrecv i)) :=
      sub.perm_of_length_le (by simp only [length_range, length_cons]; omega)
    have here : ∀ k : Nat, k < job.nrecv i → (k : Int) ∈ (l :: seen).map Nat.cast := by
      intro k hs
      exact mem_map_of_mem (everyone.mem_iff.mpr (mem_range.mpr hs))
    have done : ({ root'' with c := seen.length + 1 } : Root A I).sendRemaining job.zeroAddress job.zeroInfo =
        { root'' with c := seen.length + 1 } := by
      refine sendRemaining_eq _ _ fun r hs => ?_
      have own : r < job.n2send i := turned.n2send ▸ hs
      have received : r < job.nrecv i := by
        unfold Job.nrecv
        omega
      obtain ⟨next, next_inside⟩ := bootstrapPid_nat (Nat.zero_lt_of_lt received) (r + 1)
      have once := turned.matched.once r ⟨Int.natCast_nonneg r, Int.ofNat_lt.mpr own⟩ (here r received)
      rw [size]
      refine once ?_
      show bootstrapPid ((r : Int) + 1) (job.nrecv i) ∈ _
      rw [← Int.natCast_add_one, next]
      exact here _ next_inside
    rw [done]
    refine ⟨rfl, ?_, (by simp), fun _ => ⟨turned.1, turned.2, turned.3, turned.4, turned.5, turned.6⟩⟩
    rw [if_pos (by simp only [length_cons]; omega)]

end

end Vccl.Bootstrap
