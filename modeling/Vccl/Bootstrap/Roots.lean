import Mathlib

/-! The bootstrap roots: how the ranks are divided over them, what a rank sends to which root, and the thread
`bootstrapRoot` that tells each of its ranks how to reach the next one. -/
namespace Vccl.Bootstrap

open List

def bootstrapPid (i : Int) (n : Nat) : Int := (i + n) % n

def firstRankFromRoot (root nRanks nRoots : Nat) : Nat :=
  root * (nRanks / nRoots) + min root (nRanks % nRoots)

def rootIdFromRank (rank nRanks nRoots : Nat) : Nat :=
  let rmr := nRanks % nRoots
  let rpr := nRanks / nRoots
  let D := rmr * (rpr + 1)
  if rank < D then rank / (rpr + 1) else (rank - D) / rpr + rmr

def nRankFromRoot (root nRanks nRoots : Nat) : Nat :=
  let ir := (root + nRoots) % nRoots
  nRanks / nRoots + if ir < nRanks % nRoots then 1 else 0

def localIdFromRoot (rank root nRanks nRoots : Nat) : Int :=
  rank - firstRankFromRoot ((root + nRoots) % nRoots) nRanks nRoots

def isFirstFromRoot (rank root nRanks nRoots : Nat) : Bool :=
  rank = firstRankFromRoot root nRanks nRoots

section

variable {nRanks nRoots : Nat}

theorem firstRankFromRoot_zero : firstRankFromRoot 0 nRanks nRoots = 0 := by
  simp [firstRankFromRoot]

theorem firstRankFromRoot_succ {root : Nat} (below : root < nRoots) :
    firstRankFromRoot (root + 1) nRanks nRoots =
      firstRankFromRoot root nRanks nRoots + nRankFromRoot root nRanks nRoots := by
  have same : (root + nRoots) % nRoots = root := by
    rw [Nat.add_mod_right, Nat.mod_eq_of_lt below]
  simp only [firstRankFromRoot, nRankFromRoot, Nat.add_mul]
  split <;> omega

theorem firstRankFromRoot_last (some_root : 1 ≤ nRoots) : firstRankFromRoot nRoots nRanks nRoots = nRanks := by
  have below : nRanks % nRoots < nRoots := Nat.mod_lt _ some_root
  have whole := Nat.div_add_mod nRanks nRoots
  rw [firstRankFromRoot, Nat.min_eq_right (Nat.le_of_lt below)]
  exact whole

theorem firstRankFromRoot_mono {a b : Nat} (le : a ≤ b) :
    firstRankFromRoot a nRanks nRoots ≤ firstRankFromRoot b nRanks nRoots := by
  have := Nat.mul_le_mul_right (nRanks / nRoots) le
  simp only [firstRankFromRoot]
  omega

theorem nRankFromRoot_pos (some_root : 1 ≤ nRoots) (fits : nRoots ≤ nRanks) (root : Nat) :
    0 < nRankFromRoot root nRanks nRoots := by
  have := Nat.div_pos fits some_root
  simp only [nRankFromRoot]
  omega

theorem rootIdFromRank_spec (some_root : 1 ≤ nRoots) (fits : nRoots ≤ nRanks) {rank : Nat} (below : rank < nRanks) :
    rootIdFromRank rank nRanks nRoots < nRoots ∧
      firstRankFromRoot (rootIdFromRank rank nRanks nRoots) nRanks nRoots ≤ rank ∧
      rank < firstRankFromRoot (rootIdFromRank rank nRanks nRoots + 1) nRanks nRoots := by
  have rmr_below : nRanks % nRoots < nRoots := Nat.mod_lt _ some_root
  have whole := Nat.div_add_mod nRanks nRoots
  have rpr_pos := Nat.div_pos fits some_root
  simp only [rootIdFromRank, firstRankFromRoot]
  generalize nRanks % nRoots = rmr at *
  generalize nRanks / nRoots = rpr at *
  split
  next he =>
    have quotient := Nat.div_add_mod rank (rpr + 1)
    have rest : rank % (rpr + 1) < rpr + 1 := Nat.mod_lt rank (Nat.succ_pos rpr)
    have small : rank / (rpr + 1) < rmr := Nat.div_lt_of_lt_mul (by rwa [Nat.mul_comm])
    generalize rank / (rpr + 1) = q at *
    have product : (rpr + 1) * q = q * rpr + q := by ring
    rw [Nat.add_mul q 1 rpr]
    refine ⟨?_, ?_, ?_⟩ <;> omega
  next late =>
    have quotient := Nat.div_add_mod (rank - rmr * (rpr + 1)) rpr
    have rest := Nat.mod_lt (rank - rmr * (rpr + 1)) rpr_pos
    have small : (rank - rmr * (rpr + 1)) / rpr < nRoots - rmr := by
      refine Nat.div_lt_of_lt_mul ?_
      rw [Nat.mul_sub]
      have := Nat.mul_add rmr rpr 1
      rw [Nat.mul_comm rpr nRoots, Nat.mul_comm rpr rmr]
      omega
    generalize (rank - rmr * (rpr + 1)) / rpr = q at *
    have product : rpr * q = q * rpr := Nat.mul_comm rpr q
    have remainder := Nat.mul_add rmr rpr 1
    rw [Nat.add_mul (q + rmr) 1 rpr, Nat.add_mul q rmr rpr]
    refine ⟨?_, ?_, ?_⟩ <;> omega

theorem rootIdFromRank_eq (some_root : 1 ≤ nRoots) (fits : nRoots ≤ nRanks) {rank root : Nat} (below : rank < nRanks)
    (from_first : firstRankFromRoot root nRanks nRoots ≤ rank)
    (before_next : rank < firstRankFromRoot (root + 1) nRanks nRoots) : rootIdFromRank rank nRanks nRoots = root := by
  obtain ⟨-, _, _⟩ := rootIdFromRank_spec some_root fits below
  rcases Nat.lt_trichotomy (rootIdFromRank rank nRanks nRoots) root with less | same | more
  · have := @firstRankFromRoot_mono nRanks nRoots (rootIdFromRank rank nRanks nRoots + 1) root less
    omega
  · exact same
  · have := @firstRankFromRoot_mono nRanks nRoots (root + 1) (rootIdFromRank rank nRanks nRoots) more
    omega

end

structure ExtInfo (A I : Type) where
  rank : Nat
  nranks : Nat
  iroot : Nat
  nroots : Nat
  listenRootAddress : A
  connectInfo : I

/-- The ranks of one initialisation and what each of them listens on. An address comes back from `ncclSocketGetAddr`
with its family set and a handle comes back from `listen`, so neither is all zeros. -/
structure Job (A I : Type) where
  nranks : Nat
  nroots : Nat
  zeroAddress : A
  zeroInfo : I
  listenRootAddress : Nat → A
  connectInfo : Nat → I
  some_root : 1 ≤ nroots
  fits : nroots ≤ nranks
  address_set : ∀ rank, listenRootAddress rank ≠ zeroAddress
  info_set : ∀ rank, connectInfo rank ≠ zeroInfo

namespace Job

variable {A I : Type} (job : Job A I)

/-- The calls of `sendToRoot` in `bootstrapInit`: the root that is contacted and what it is sent. -/
def messages (rank : Nat) : List (Nat × ExtInfo A I) :=
  let curr_root := rootIdFromRank rank job.nranks job.nroots
  let info : ExtInfo A I :=
    ⟨rank, job.nranks, curr_root, job.nroots, job.listenRootAddress rank, job.connectInfo rank⟩
  (curr_root, info) ::
    if 1 < job.nroots ∧ isFirstFromRoot rank curr_root job.nranks job.nroots then
      let prev_rank := (bootstrapPid (rank - 1) job.nranks).toNat
      let prev_root := rootIdFromRank prev_rank job.nranks job.nroots
      [(prev_root, { info with rank := prev_rank + 1, iroot := prev_root })]
    else []

def first (i : Nat) : Nat := firstRankFromRoot i job.nranks job.nroots

def n2send (i : Nat) : Nat := nRankFromRoot i job.nranks job.nroots

def nrecv (i : Nat) : Nat := job.n2send i + if 1 < job.nroots then 1 else 0

/-- The rank that root `i` knows under a local id; the one after the last of its own is the next root's first. -/
def owner (i l : Nat) : Nat := (job.first i + l) % job.nranks

def expected (i l : Nat) : ExtInfo A I :=
  ⟨job.first i + l, job.nranks, i, job.nroots, job.listenRootAddress (job.owner i l), job.connectInfo (job.owner i l)⟩

variable {job}

theorem nranks_pos (job : Job A I) : 0 < job.nranks := Nat.lt_of_lt_of_le job.some_root job.fits

theorem n2send_pos (job : Job A I) (i : Nat) : 0 < job.n2send i := nRankFromRoot_pos job.some_root job.fits i

variable {i : Nat}

theorem first_succ (below : i < job.nroots) : job.first (i + 1) = job.first i + job.n2send i :=
  firstRankFromRoot_succ below

theorem first_le_nranks (le : i ≤ job.nroots) : job.first i ≤ job.nranks := by
  have last := @firstRankFromRoot_last job.nranks job.nroots job.some_root
  exact last ▸ firstRankFromRoot_mono le

theorem first_lt_nranks (below : i < job.nroots) : job.first i < job.nranks := by
  have : job.first (i + 1) ≤ job.nranks := first_le_nranks below
  have := job.n2send_pos i
  rw [first_succ below] at *
  omega

variable {l : Nat}

theorem owner_of_own (below : i < job.nroots) (own : l < job.n2send i) :
    job.owner i l = job.first i + l := by
  have : job.first (i + 1) ≤ job.nranks := first_le_nranks below
  rw [first_succ below] at this
  exact Nat.mod_eq_of_lt (by omega)

theorem rootIdFromRank_own (below : i < job.nroots) (own : l < job.n2send i) :
    rootIdFromRank (job.first i + l) job.nranks job.nroots = i := by
  have whole : job.first (i + 1) ≤ job.nranks := first_le_nranks below
  have next := first_succ below
  refine rootIdFromRank_eq job.some_root job.fits (by omega) (Nat.le_add_right _ _) ?_
  show _ < job.first (i + 1)
  omega

def prevRoot (job : Job A I) (i : Nat) : Nat := if i = 0 then job.nroots - 1 else i - 1

theorem prevRoot_lt (below : i < job.nroots) : job.prevRoot i < job.nroots := by
  unfold prevRoot
  split <;> omega

theorem prev_rank_eq (below : i < job.nroots) :
    (bootstrapPid ((job.first i : Nat) - 1) job.nranks).toNat =
      job.first (job.prevRoot i) + (job.n2send (job.prevRoot i) - 1) ∧
    job.owner (job.prevRoot i) (job.n2send (job.prevRoot i)) = job.first i := by
  have some_rank := job.n2send_pos (job.prevRoot i)
  have next := first_succ (prevRoot_lt below)
  have fits := first_lt_nranks below
  unfold owner bootstrapPid
  rw [← next]
  by_cases zero : i = 0
  · subst zero
    have whole : job.first (job.prevRoot 0 + 1) = job.nranks := by
      have same : job.prevRoot 0 + 1 = job.nroots := by
        simp only [prevRoot, if_pos]
        omega
      rw [same]
      exact firstRankFromRoot_last job.some_root
    have none_before : job.first 0 = 0 := firstRankFromRoot_zero
    rw [whole, Nat.mod_self, none_before]
    refine ⟨?_, rfl⟩
    rw [Int.emod_eq_of_lt (by omega) (by omega)]
    omega
  · have same : job.prevRoot i + 1 = i := by
      simp only [prevRoot, if_neg zero]
      omega
    rw [same] at next ⊢
    refine ⟨?_, Nat.mod_eq_of_lt fits⟩
    rw [Int.add_emod_right, Int.emod_eq_of_lt (by omega) (by omega)]
    omega

theorem expected_injective (i : Nat) : Function.Injective (job.expected i) := by
  intro a b same
  have := congrArg ExtInfo.rank same
  simp only [expected] at this
  omega

theorem messages_eq (below : i < job.nroots) (own : l < job.n2send i) :
    job.messages (job.first i + l) = (i, job.expected i l) ::
      if 1 < job.nroots ∧ l = 0 then
        [(job.prevRoot i, job.expected (job.prevRoot i) (job.n2send (job.prevRoot i)))]
      else [] := by
  have first_iff : isFirstFromRoot (job.first i + l) i job.nranks job.nroots = true ↔ l = 0 := by
    simp only [isFirstFromRoot, decide_eq_true_eq]
    show job.first i + l = job.first i ↔ _
    omega
  simp only [messages, rootIdFromRank_own below own, first_iff]
  congr 1
  · simp [expected, owner_of_own below own]
  split
  next at_first =>
    obtain ⟨rank, owner⟩ := prev_rank_eq below
    have some_rank := job.n2send_pos (job.prevRoot i)
    have root := rootIdFromRank_own (prevRoot_lt below) (Nat.sub_lt some_rank Nat.one_pos)
    rw [at_first.2, Nat.add_zero, rank]
    simp only [expected, owner, cons.injEq, Prod.mk.injEq, ExtInfo.mk.injEq, and_true, true_and]
    omega
  · rfl

variable {rank : Nat}

theorem exists_place (below : rank < job.nranks) :
    ∃ i l, i < job.nroots ∧ l < job.n2send i ∧ rank = job.first i + l := by
  obtain ⟨root, hf, hb⟩ := rootIdFromRank_spec job.some_root job.fits below
  have next := first_succ root
  refine ⟨_, rank - job.first (rootIdFromRank rank job.nranks job.nroots), root, ?_, ?_⟩
  · change job.first _ ≤ rank at hf
    change rank < job.first _ at hb
    omega
  · change job.first _ ≤ rank at hf
    omega

theorem mem_messages {m : ExtInfo A I} (below : rank < job.nranks) :
    (i, m) ∈ job.messages rank ↔
      ∃ l, i < job.nroots ∧ l < job.nrecv i ∧ m = job.expected i l ∧ job.owner i l = rank := by
  constructor
  · intro sent
    obtain ⟨c, l, root, own, rfl⟩ := exists_place below
    rw [messages_eq root own, mem_cons] at sent
    rcases sent with here | hb
    · cases here
      exact ⟨l, root, by unfold nrecv; omega, rfl, owner_of_own root own⟩
    split at hb
    next at_first =>
      cases mem_singleton.mp hb
      refine ⟨_, prevRoot_lt root, ?_, rfl, ?_⟩
      · simp only [nrecv, if_pos at_first.1]
        omega
      · rw [at_first.2]
        exact (prev_rank_eq root).2
    · cases hb
  · rintro ⟨l, root, hr, rfl, rfl⟩
    by_cases own : l < job.n2send i
    · rw [owner_of_own root own, messages_eq root own]
      exact mem_cons_self
    have several : 1 < job.nroots ∧ l = job.n2send i := by
      unfold nrecv at hr
      split at hr <;> omega
    obtain ⟨c, hn, same⟩ : ∃ c, c < job.nroots ∧ job.prevRoot c = i := by
      by_cases last : i + 1 = job.nroots
      · exact ⟨0, by omega, by simp only [prevRoot, if_pos]; omega⟩
      · exact ⟨i + 1, by omega, by simp [prevRoot]⟩
    obtain ⟨-, owner⟩ := prev_rank_eq hn
    rw [several.2, ← same, owner]
    have list := messages_eq hn (job.n2send_pos c)
    rw [Nat.add_zero, if_pos ⟨several.1, rfl⟩] at list
    rw [list]
    exact mem_cons_of_mem _ (mem_singleton_self _)

theorem messages_nodup (below : rank < job.nranks) : (job.messages rank).Nodup := by
  obtain ⟨i, l, root, own, rfl⟩ := exists_place below
  rw [messages_eq root own]
  split
  next at_first =>
    have other : job.prevRoot i ≠ i := by
      unfold prevRoot
      split <;> omega
    simp only [nodup_cons, mem_singleton, not_mem_nil, not_false_eq_true, nodup_nil, and_true,
      Prod.mk.injEq, not_and]
    intro same
    exact absurd same.symm other
  · exact nodup_singleton _

end Job

end Vccl.Bootstrap
