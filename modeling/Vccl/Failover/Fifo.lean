import Vccl.Failover.Model

/-! The two FIFOs: what an index found in a slot says. Every element with an index, wherever it is,
is an element of the entry posted under that index, so the sender can go by its head alone. -/
namespace Vccl.Failover

open List Function Option Transition
open Ib (maxRequests)

variable {cfg : Config}

def TrueElem (cfg : Config) (h : History) (slot i : Nat) (e : Elem) : Prop :=
  e.idx ≠ 0 → ∃ p, h.posted e.idx = some p ∧ i < p.items.length ∧ e = elemOf cfg e.idx p i ∧
    slot = (e.idx - 1) % maxRequests

def TrueSync (h : History) (slot : Nat) (e : SyncElem) : Prop :=
  e.idx ≠ 0 → ∃ y, h.syncs[e.idx - 1]? = some y ∧ e = y.elem ∧ slot = (e.idx - 1) % maxRequests

def TrueWrite (cfg : Config) (h : History) : Write → Prop
  | .cts slot first elems => ∀ k e, elems[k]? = some e → TrueElem cfg h slot (first + k) e
  | .sync slot e => TrueSync h slot e

structure Contents (cfg : Config) (s : State) : Prop where
  fifo : ∀ slot i, TrueElem cfg s.history slot i (s.send.fifo slot i)
  elems : ∀ slot i, TrueElem cfg s.history slot i (s.recv.elems slot i)
  syncFifo : ∀ slot, TrueSync s.history slot (s.send.syncFifo slot)
  syncElems : ∀ slot, TrueSync s.history slot (s.recv.syncElems slot)
  wires : ∀ qp, ∀ w ∈ s.wires qp, TrueWrite cfg s.history w

structure Grows (h h' : History) : Prop where
  posted : ∀ idx p, h.posted idx = some p → h'.posted idx = some p
  syncs : ∀ (j : Nat) y, h.syncs[j]? = some y → h'.syncs[j]? = some y

variable {h h' : History} {slot i : Nat}

theorem TrueElem.grows {e : Elem} (t : TrueElem cfg h slot i e) (g : Grows h h') : TrueElem cfg h' slot i e := by
  intro hn
  obtain ⟨p, hf, hfa⟩ := t hn
  exact ⟨p, g.posted _ p hf, hfa⟩

theorem TrueSync.grows {e : SyncElem} (t : TrueSync h slot e) (g : Grows h h') : TrueSync h' slot e := by
  intro hn
  obtain ⟨y, hf, hfa⟩ := t hn
  exact ⟨y, g.syncs _ y hf, hfa⟩

variable {w : Write}

theorem TrueWrite.grows (t : TrueWrite cfg h w) (g : Grows h h') :
    TrueWrite cfg h' w := by
  cases w with
  | cts slot first elems => exact fun k e hf => (t k e hf).grows g
  | sync slot e => exact TrueSync.grows t g

theorem trueElem_zero (h : History) (slot i : Nat) : TrueElem cfg h slot i .zero := by
  intro hn
  exact absurd rfl hn

theorem trueSync_zero (h : History) (slot : Nat) : TrueSync h slot .zero := by
  intro hn
  exact absurd rfl hn

variable {idx : Nat} {p : Posted}

@[simp] theorem elemOf_idx (inside : i < p.items.length) :
    (elemOf cfg idx p i).idx = idx := by
  simp [elemOf, getElem?_eq_getElem inside]

variable {wires : Qp → List Write} {rest : List Write}

theorem wires_update (qp : Qp) (old : ∀ q, ∀ v ∈ wires q, TrueWrite cfg h v)
    (part : ∀ v ∈ rest, TrueWrite cfg h v) :
    ∀ q, ∀ v ∈ update wires qp rest q, TrueWrite cfg h v := by
  intro q v mem
  by_cases here : q = qp
  · subst here
    rw [update_self] at mem
    exact part v mem
  · rw [update_of_ne here] at mem
    exact old q v mem

theorem wires_append (qp : Qp) (old : ∀ q, ∀ v ∈ wires q, TrueWrite cfg h v) (new : TrueWrite cfg h w) :
    ∀ q, ∀ v ∈ update wires qp (wires qp ++ [w]) q, TrueWrite cfg h v := by
  apply wires_update qp old
  exact forall_mem_append.mpr ⟨old qp, fun v last => mem_singleton.mp last ▸ new⟩

/-- Every sync entry takes the indices on by 1000, so entries before and after it are apart. -/
structure Posts (h : History) (fifoTail syncFifoTail : Nat) : Prop where
  sorted : h.log.Pairwise (· < ·)
  logged : ∀ idx, idx ∈ h.log ↔ ∃ p, h.posted idx = some p
  inside : ∀ idx p, h.posted idx = some p → 0 < idx ∧ idx ≤ fifoTail ∧ p.syncs ≤ h.syncs.length
  before : ∀ idx p (j : Nat) y, h.posted idx = some p → h.syncs[j]? = some y → p.syncs ≤ j →
    idx + 1000 ≤ y.elem.recvFifoTail
  after : ∀ idx p (j : Nat) y, h.posted idx = some p → h.syncs[j]? = some y → j < p.syncs →
    y.elem.recvFifoTail < idx
  tails : ∀ (j : Nat) y, h.syncs[j]? = some y → y.elem.idx = j + 1 ∧ y.elem.recvFifoTail ≤ fifoTail
  apart : ∀ (j : Nat) y z, h.syncs[j]? = some y → h.syncs[j + 1]? = some z →
    y.elem.recvFifoTail + 1000 ≤ z.elem.recvFifoTail
  count : syncFifoTail = h.syncs.length
  rollbacks : ∀ r ∈ h.rollbacks, 0 < r.1 ∧ ∃ y, h.syncs[r.1 - 1]? = some y ∧ y.elem.recvFifoTail = r.2

structure Position (h : History) (fifoTail fifoHead syncFifoHead : Nat) : Prop where
  head : fifoHead ≤ fifoTail
  synced : syncFifoHead ≤ h.syncs.length
  ahead : ∀ (j : Nat) y, h.syncs[j]? = some y → j < syncFifoHead → y.elem.recvFifoTail ≤ fifoHead
  behind : ∀ y, h.syncs[syncFifoHead]? = some y → fifoHead + 1000 ≤ y.elem.recvFifoTail
  consumed : (h.consumed.map Consumed.idx).Sublist (h.log.filter (· ≤ fifoHead))
  fresh : ∀ c ∈ h.consumed, ∃ p, h.posted c.idx = some p ∧ c.syncs ≤ p.syncs

structure Inv (cfg : Config) (s : State) : Prop extends Contents cfg s,
  Posts s.history s.recv.fifoTail s.recv.syncFifoTail,
  Position s.history s.recv.fifoTail s.send.fifoHead s.send.syncFifoHead

theorem initial_inv : Inv cfg initial where
  fifo _ _ := trueElem_zero _ _ _
  elems _ _ := trueElem_zero _ _ _
  syncFifo _ := trueSync_zero _ _
  syncElems _ := trueSync_zero _ _
  wires := by simp [initial]
  toPosts := by
    constructor <;> simp [initial]
  toPosition := by
    constructor <;> simp [initial]

variable {fifoTail syncFifoTail fifoHead syncFifoHead : Nat}

theorem Position.epoch (at' : Position h fifoTail fifoHead syncFifoHead) (posts : Posts h fifoTail syncFifoTail)
    (here : h.posted (fifoHead + 1) = some p) : p.syncs = syncFifoHead := by
  obtain ⟨-, -, _⟩ := posts.inside _ p here
  apply Nat.le_antisymm
  · by_contra later
    have bound : syncFifoHead < h.syncs.length := by omega
    have found := getElem?_eq_getElem bound
    have := posts.after _ p _ _ here found (by omega)
    have := at'.behind _ found
    omega
  · by_contra earlier
    have bound : p.syncs < h.syncs.length := by
      have := at'.synced
      omega
    have found := getElem?_eq_getElem bound
    have := posts.before _ p _ _ here found (le_refl _)
    have := at'.ahead _ _ found (by omega)
    omega

theorem filter_le_of_last {log : List Nat} {n : Nat} (sorted : log.Pairwise (· < ·)) (mem : n + 1 ∈ log) :
    log.filter (· ≤ n + 1) = log.filter (· ≤ n) ++ [n + 1] := by
  induction log with
  | nil => simp at mem
  | cons x rest ih =>
    obtain ⟨hl, tail⟩ := pairwise_cons.mp sorted
    rcases mem_cons.mp mem with rfl | hi
    · have none' : rest.filter (· ≤ n) = [] ∧ rest.filter (· ≤ n + 1) = [] := by
        constructor <;> rw [filter_eq_nil_iff] <;> intro y ht <;> have := hl y ht <;>
          simp <;> omega
      simp [none'.1, none'.2]
    · have := hl _ hi
      rw [filter_cons_of_pos (by simp; omega), filter_cons_of_pos (by simp; omega), ih tail hi]
      rfl

variable {requests : List WorkRequest}

theorem Position.consume {qps : List Qp} (at' : Position h fifoTail fifoHead syncFifoHead)
    (posts : Posts h fifoTail syncFifoTail) (here : h.posted (fifoHead + 1) = some p) :
    Position { h with consumed := h.consumed ++ [⟨fifoHead + 1, qps, syncFifoHead⟩], requests } fifoTail
      (fifoHead + 1) syncFifoHead := by
  have epoch := at'.epoch posts here
  constructor
  · exact (posts.inside _ p here).2.1
  · exact at'.synced
  · intro j y hf earlier
    exact le_trans (at'.ahead j y hf earlier) (Nat.le_succ _)
  · intro y hf
    exact posts.before _ p _ y here hf (le_of_eq epoch)
  · simp only [map_append]
    rw [filter_le_of_last posts.sorted ((posts.logged _).mpr ⟨p, here⟩)]
    exact at'.consumed.append (Sublist.refl _)
  · exact forall_mem_append.mpr ⟨at'.fresh, forall_mem_singleton.mpr ⟨p, here, le_of_eq epoch.symm⟩⟩

variable {y : SyncPosted}

theorem Position.sync (at' : Position h fifoTail fifoHead syncFifoHead) (posts : Posts h fifoTail syncFifoTail)
    (here : h.syncs[syncFifoHead]? = some y) :
    Position h fifoTail y.elem.recvFifoTail (syncFifoHead + 1) := by
  have forward := at'.behind y here
  constructor
  · exact (posts.tails _ y here).2
  · exact (List.getElem?_eq_some_iff.mp here).1
  · intro j z hf earlier
    rcases Nat.lt_succ_iff_lt_or_eq.mp earlier with hb | rfl
    · have := at'.ahead j z hf hb
      omega
    · rw [here] at hf
      exact le_of_eq (congrArg (·.elem.recvFifoTail) (some.inj hf)).symm
  · intro z hf
    exact posts.apart _ y z here hf
  · apply at'.consumed.trans
    apply monotone_filter_right
    intro idx hbe
    simp only [decide_eq_true_eq] at hbe ⊢
    omega
  · exact at'.fresh

theorem Posts.fresh_idx (posts : Posts h fifoTail syncFifoTail) :
    h.posted (fifoTail + 1) = none := by
  cases hf : h.posted (fifoTail + 1) with
  | none => rfl
  | some p =>
    have := (posts.inside _ p hf).2.1
    omega

theorem Posts.grows_post (posts : Posts h fifoTail syncFifoTail) (p : Posted) (requests : List WorkRequest) :
    Grows h (h.post (fifoTail + 1) p requests) where
  posted := by
    intro idx q hf
    have other : idx ≠ fifoTail + 1 := by
      rintro rfl
      simp [posts.fresh_idx] at hf
    simpa [History.post, other] using hf
  syncs := fun _ _ hf => hf

theorem grows_sync (h : History) (y : SyncPosted) (requests : List WorkRequest) :
    Grows h (h.sync y requests) where
  posted := fun _ _ hf => hf
  syncs := by
    intro j z hf
    exact List.getElem?_append_left (List.getElem?_eq_some_iff.mp hf).1 ▸ hf

theorem posted_post {q : Posted} (found : (h.post idx p requests).posted i = some q) :
    (i = idx ∧ q = p) ∨ h.posted i = some q := by
  by_cases here : i = idx
  · subst here
    simp only [History.post, update_self, some.injEq] at found
    exact .inl ⟨rfl, found.symm⟩
  · exact .inr (by simpa [History.post, here] using found)

theorem syncs_sync {z : SyncPosted} {j : Nat} (found : (h.sync y requests).syncs[j]? = some z) :
    (j = h.syncs.length ∧ z = y) ∨ h.syncs[j]? = some z := by
  rcases Nat.lt_trichotomy j h.syncs.length with hi | rfl | _
  · exact .inr (by simpa [History.sync, getElem?_append_left hi] using found)
  · exact .inl ⟨rfl, by simpa [History.sync] using found.symm⟩
  · rw [History.sync, getElem?_eq_none (by simp; omega)] at found
    contradiction

theorem Posts.post (posts : Posts h fifoTail syncFifoTail) (now : p.syncs = h.syncs.length)
    (requests : List WorkRequest) :
    Posts (h.post (fifoTail + 1) p requests) (fifoTail + 1) syncFifoTail where
  sorted := by
    rw [History.post, pairwise_append]
    refine ⟨posts.sorted, by simp, ?_⟩
    intro a old b new
    obtain ⟨q, hf⟩ := (posts.logged a).mp old
    have := (posts.inside a q hf).2.1
    rw [mem_singleton.mp new]
    omega
  logged := by
    intro idx
    by_cases here : idx = fifoTail + 1
    · simp [History.post, here]
    · simpa [History.post, here] using posts.logged idx
  inside := by
    intro idx q hf
    rcases posted_post hf with ⟨rfl, rfl⟩ | old
    · exact ⟨by omega, le_refl _, le_of_eq now⟩
    · obtain ⟨pos, hb, few⟩ := posts.inside idx q old
      exact ⟨pos, by omega, few⟩
  before := by
    intro idx q j y hf ht later
    rcases posted_post hf with ⟨rfl, rfl⟩ | old
    · have := (List.getElem?_eq_some_iff.mp ht).1
      simp only [History.post] at this
      omega
    · exact posts.before idx q j y old ht later
  after := by
    intro idx q j y hf ht earlier
    rcases posted_post hf with ⟨rfl, rfl⟩ | old
    · have := (posts.tails j y ht).2
      omega
    · exact posts.after idx q j y old ht earlier
  tails := by
    intro j y hf
    obtain ⟨hn, hb⟩ := posts.tails j y hf
    exact ⟨hn, by omega⟩
  apart := posts.apart
  count := posts.count
  rollbacks := posts.rollbacks

theorem Posts.sync (posts : Posts h fifoTail syncFifoTail) (named : y.elem.idx = syncFifoTail + 1)
    (tail : y.elem.recvFifoTail = fifoTail + 1000) (requests : List WorkRequest) :
    Posts (h.sync y requests) (fifoTail + 1000) (syncFifoTail + 1) where
  sorted := posts.sorted
  logged := posts.logged
  inside := by
    intro idx p hf
    obtain ⟨pos, hb, _⟩ := posts.inside idx p hf
    refine ⟨pos, by omega, ?_⟩
    simp only [History.sync, length_append]
    omega
  before := by
    intro idx p j z hf ht later
    rcases syncs_sync ht with ⟨rfl, rfl⟩ | old
    · have := (posts.inside idx p hf).2.1
      omega
    · exact posts.before idx p j z hf old later
  after := by
    intro idx p j z hf ht earlier
    rcases syncs_sync ht with ⟨rfl, rfl⟩ | old
    · have := (posts.inside idx p hf).2.2
      omega
    · exact posts.after idx p j z hf old earlier
  tails := by
    intro j z hf
    rcases syncs_sync hf with ⟨rfl, rfl⟩ | old
    · exact ⟨by rw [named, posts.count], le_of_eq tail⟩
    · obtain ⟨named, hb⟩ := posts.tails j z old
      exact ⟨named, by omega⟩
  apart := by
    intro j z z' hf next
    rcases syncs_sync hf with ⟨rfl, rfl⟩ | old
    · have := (List.getElem?_eq_some_iff.mp next).1
      simp [History.sync] at this
    · rcases syncs_sync next with ⟨-, rfl⟩ | old'
      · have := (posts.tails j z old).2
        omega
      · exact posts.apart j z z' old old'
  count := by simp [History.sync, posts.count]
  rollbacks := by
    intro r mem
    obtain ⟨pos, z, hf, last⟩ := posts.rollbacks r mem
    exact ⟨pos, z, (grows_sync h y requests).syncs _ z hf, last⟩

theorem Position.post (at' : Position h fifoTail fifoHead syncFifoHead) (posts : Posts h fifoTail syncFifoTail)
    (p : Posted) (requests : List WorkRequest) :
    Position (h.post (fifoTail + 1) p requests) (fifoTail + 1) fifoHead syncFifoHead where
  head := Nat.le_succ_of_le at'.head
  synced := at'.synced
  ahead := at'.ahead
  behind := at'.behind
  consumed := by
    have := at'.head
    simpa [History.post, show ¬ fifoTail + 1 ≤ fifoHead by omega] using at'.consumed
  fresh := by
    intro c mem
    obtain ⟨q, hf, later⟩ := at'.fresh c mem
    exact ⟨q, (posts.grows_post p requests).posted _ q hf, later⟩

theorem Position.syncPosted (at' : Position h fifoTail fifoHead syncFifoHead)
    (tail : y.elem.recvFifoTail = fifoTail + 1000) (requests : List WorkRequest) :
    Position (h.sync y requests) (fifoTail + 1000) fifoHead syncFifoHead where
  head := le_trans at'.head (Nat.le_add_right _ _)
  synced := by
    have := at'.synced
    simp only [History.sync, length_append]
    omega
  ahead := by
    intro j z hf earlier
    rcases syncs_sync hf with ⟨rfl, -⟩ | old
    · have := at'.synced
      omega
    · exact at'.ahead j z old earlier
  behind := by
    intro z hf
    rcases syncs_sync hf with ⟨-, rfl⟩ | old
    · have := at'.head
      omega
    · exact at'.behind z old
  consumed := at'.consumed
  fresh := at'.fresh

theorem trueElem_post (requests : List WorkRequest) (inside : i < p.items.length) :
    TrueElem cfg (h.post (idx + 1) p requests) (idx % maxRequests) i (elemOf cfg (idx + 1) p i) := by
  intro hn
  rw [elemOf_idx inside]
  exact ⟨p, update_self _ _ _, inside, rfl, rfl⟩

theorem trueSync_sync (requests : List WorkRequest) (named : y.elem.idx = h.syncs.length + 1) :
    TrueSync (h.sync y requests) (h.syncs.length % maxRequests) y.elem := by
  intro _
  rw [named]
  exact ⟨y, by simp [History.sync], rfl, rfl⟩

variable {s s' : State}

theorem Contents.grows (c : Contents cfg s) (g : Grows s.history h) : Contents cfg { s with history := h } where
  fifo slot i := (c.fifo slot i).grows g
  elems slot i := (c.elems slot i).grows g
  syncFifo slot := (c.syncFifo slot).grows g
  syncElems slot := (c.syncElems slot).grows g
  wires qp w mem := (c.wires qp w mem).grows g

theorem irecv_inv {items : List Item} (h : Inv cfg s) (next : irecv cfg items s = some s') : Inv cfg s' := by
  obtain ⟨-, ⟨⟩⟩ := ite_none_left_eq_some.mp next
  have c := h.grows (h.grows_post (s.recv.toPost cfg items s.history.syncs.length)
    [fifoRequest cfg .cts (s.recv.ctsQp cfg)])
  refine ⟨{ c with elems := ?_, wires := ?_ }, h.toPosts.post rfl _, h.toPosition.post h.toPosts _ _⟩
  · intro slot i
    simp only
    split
    next here =>
      obtain ⟨rfl, hi⟩ := here
      exact trueElem_post _ hi
    · exact c.elems slot i
  · apply wires_append _ c.wires
    intro k e hf
    obtain ⟨hb, rfl⟩ := List.getElem?_eq_some_iff.mp hf
    rw [length_map, length_range] at hb
    simp only [getElem_map, getElem_range, Nat.zero_add]
    exact trueElem_post _ hb

variable {errPortIdx : Nat}

theorem postSyncFifo_inv {restartPos : Nat} (h : Inv cfg s) :
    Inv cfg (postSyncFifo cfg errPortIdx s restartPos) := by
  let y : SyncPosted :=
    ⟨⟨s.recv.syncFifoTail + 1, s.recv.fifoTail + 1000, restartPos, errPortIdx⟩, s.recv.warn⟩
  have c := h.grows (grows_sync s.history y [fifoRequest cfg .sync ⟨true, s.recv.backupDevIndex⟩])
  have new := trueSync_sync (h := s.history) (y := y) [fifoRequest cfg .sync ⟨true, s.recv.backupDevIndex⟩]
    (by rw [← h.count])
  rw [← h.count] at new
  refine ⟨{ c with syncElems := ?_, wires := wires_append _ c.wires new }, h.toPosts.sync rfl rfl _,
    h.syncPosted rfl _⟩
  intro slot
  simp only [postSyncFifo, update_apply]
  split
  next here =>
    exact here ▸ new
  · exact c.syncElems slot

theorem postSyncFifos_inv (positions : List Nat) (h : Inv cfg s) :
    Inv cfg (positions.foldl (postSyncFifo cfg errPortIdx) s) := by
  induction positions generalizing s with
  | nil => exact h
  | cons restartPos rest ih => exact ih (postSyncFifo_inv h)

variable {positions : List Nat}

theorem postSyncFifos_last (cfg : Config) (some' : positions ≠ []) (s : State) :
    0 < (positions.foldl (postSyncFifo cfg errPortIdx) s).history.syncs.length ∧
      ∃ y, (positions.foldl (postSyncFifo cfg errPortIdx) s).history.syncs[
          (positions.foldl (postSyncFifo cfg errPortIdx) s).history.syncs.length - 1]? = some y ∧
        y.elem.recvFifoTail = (positions.foldl (postSyncFifo cfg errPortIdx) s).recv.fifoTail := by
  rcases eq_nil_or_concat positions with rfl | ⟨_, _, rfl⟩
  · contradiction
  · simp [postSyncFifo, History.sync]

variable {k : Nat}

theorem recvRollBack_some (next : recvRollBack cfg k i positions s = some s') :
    ∃ devBases t, s.recv.inUse[k]? = some ⟨devBases, some t⟩ ∧ cfg.faultTolerance = true ∧
      positions ≠ [] ∧ devBases i = true ∧
      s' = endRollBack (positions.foldl (postSyncFifo cfg (errorPortIdx (flag devBases i s.recv.warn)))
        (startRollBack devBases i s)) := by
  unfold recvRollBack at next
  split at next
  next devBases t hf =>
    split at next
    · contradiction
    next hg =>
      simp only [not_or, Bool.not_eq_false] at hg
      cases next
      exact ⟨devBases, t, hf, hg.1, hg.2.1, hg.2.2, rfl⟩
  · contradiction

theorem endRollBack_inv (h : Inv cfg s) (some' : 0 < s.history.syncs.length)
    (last : ∃ y, s.history.syncs[s.history.syncs.length - 1]? = some y ∧
      y.elem.recvFifoTail = s.recv.fifoTail) : Inv cfg (endRollBack s) := by
  refine { h with rollbacks := ?_ }
  exact forall_mem_append.mpr ⟨h.rollbacks, forall_mem_singleton.mpr ⟨some', last⟩⟩

theorem recvRollBack_inv (h : Inv cfg s) (next : recvRollBack cfg k i positions s = some s') : Inv cfg s' := by
  obtain ⟨devBases, t, -, -, some', -, rfl⟩ := recvRollBack_some next
  have start : Inv cfg (startRollBack devBases i s) := { h with }
  obtain ⟨pos, last⟩ := postSyncFifos_last cfg some' (startRollBack devBases i s)
  exact endRollBack_inv (postSyncFifos_inv positions start) pos last

theorem Contents.entry (h : Contents cfg s) (found : (s.send.fifo slot i).idx = idx + 1) :
    ∃ p, s.history.posted (idx + 1) = some p ∧
      i < p.items.length ∧ s.send.fifo slot i = elemOf cfg (idx + 1) p i := by
  obtain ⟨p, posted, hi, same, -⟩ := h.fifo slot i (by omega)
  rw [found] at posted same
  exact ⟨p, posted, hi, same⟩

variable {stale : Nat → Bool} {result : Option Nat}

theorem isend_some {tag size : Nat} (next : isend cfg tag size stale s = some (s', result)) :
    (s' = s ∧ result = none) ∨ ∃ r, result = some r ∧
      (s.send.fifo (s.send.fifoHead % maxRequests) 0).idx = s.send.fifoHead + 1 ∧
      s.send.arrived = true ∧ r < s.send.nreqs ∧
      s.send.fifoReqs (s.send.fifoHead % maxRequests) r = none ∧
      ((matchSend cfg size stale r s).send.allMatched = false ∧ s' = matchSend cfg size stale r s ∨
        (matchSend cfg size stale r s).send.allMatched = true ∧
          s' = multiSend cfg (matchSend cfg size stale r s)) := by
  unfold isend at next
  split at next
  · cases next
    exact .inl ⟨rfl, rfl⟩
  rename_i here
  obtain ⟨arrived, next⟩ := ite_none_right_eq_some.mp next
  split at next
  · cases next
    exact .inl ⟨rfl, rfl⟩
  rename_i r hf
  have place := mem_of_find?_eq_some hf
  have free := find?_some hf
  simp only [Bool.and_eq_true, isNone_iff_eq_none] at free
  simp only at next
  split at next
  next all =>
    cases next
    exact .inr ⟨r, rfl, not_not.mp here, arrived, mem_range.mp place, free.1, .inr ⟨all, rfl⟩⟩
  next some' =>
    cases next
    exact .inr ⟨r, rfl, not_not.mp here, arrived, mem_range.mp place, free.1,
      .inl ⟨by simpa using some', rfl⟩⟩

theorem multiSend_inv (h : Inv cfg s)
    (here : (s.send.fifo (s.send.fifoHead % maxRequests) 0).idx = s.send.fifoHead + 1) :
    Inv cfg (multiSend cfg s) := by
  obtain ⟨p, hp, -⟩ := h.entry here
  refine ⟨{ h with fifo := ?_ }, { h with }, h.consume h.toPosts hp⟩
  intro slot i
  simp only [multiSend]
  split
  · exact trueElem_zero _ _ _
  · exact h.fifo slot i

theorem isend_inv {tag size : Nat} (h : Inv cfg s) (next : isend cfg tag size stale s = some (s', result)) :
    Inv cfg s' := by
  have matched : ∀ r, Inv cfg (matchSend cfg size stale r s) := fun r =>
    { h with }
  rcases isend_some next with ⟨rfl, -⟩ | ⟨r, -, here, -, -, -, ⟨-, rfl⟩ | ⟨-, rfl⟩⟩
  · exact h
  · exact matched r
  · exact multiSend_inv (matched r) here

theorem checkSyncFifo_inv {send : Sender} (h : Inv cfg s) (next : checkSyncFifo cfg s.send = some send) :
    Inv cfg { s with send } ∧
      ∃ y, s.history.syncs[send.syncFifoHead - 1]? = some y ∧ send.fifoHead = y.elem.recvFifoTail ∧
        0 < send.syncFifoHead := by
  unfold checkSyncFifo at next
  obtain ⟨hn, ⟨⟩⟩ := ite_none_right_eq_some.mp next
  obtain ⟨y, hf, same, -⟩ := h.syncFifo (s.send.syncFifoHead % maxRequests) (by omega)
  rw [hn] at hf
  refine ⟨⟨{ h with }, h.toPosts, ?_⟩, y, hf, by rw [same], Nat.succ_pos _⟩
  simp only [same]
  exact h.toPosition.sync h.toPosts hf

theorem checkSyncFifos_inv (count : Nat) {send : Sender} (h : Inv cfg s)
    (next : checkSyncFifos cfg count s.send = some send) : Inv cfg { s with send } ∧
      (0 < count → ∃ y, s.history.syncs[send.syncFifoHead - 1]? = some y ∧
        send.fifoHead = y.elem.recvFifoTail ∧ 0 < send.syncFifoHead) := by
  induction count generalizing s with
  | zero =>
    cases next
    exact ⟨h, by simp⟩
  | succ count ih =>
    obtain ⟨_, one, rest⟩ := bind_eq_some_iff.mp next
    obtain ⟨kept, read⟩ := checkSyncFifo_inv h one
    obtain ⟨inv, later⟩ := ih kept rest
    refine ⟨inv, fun _ => ?_⟩
    cases count with
    | zero =>
      cases rest
      exact read
    | succ count => exact later (Nat.succ_pos _)

theorem sendRollBack_some {count : Nat} (next : sendRollBack cfg count s = some s') :
    0 < count ∧ cfg.faultTolerance = true ∧
      ∃ send, checkSyncFifos cfg count { s.send with qpIndex := 0 } = some send ∧ s' = { s with send } := by
  obtain ⟨hg, next⟩ := ite_none_left_eq_some.mp next
  simp only [not_or, Bool.not_eq_false] at hg
  obtain ⟨send, ran, rfl⟩ := map_eq_some_iff.mp next
  exact ⟨Nat.pos_of_ne_zero hg.1, hg.2, send, ran, rfl⟩

theorem land_inv {qp : Qp} (h : Inv cfg s) (first : s.wires qp = w :: rest) :
    Inv cfg { s with send := land w s.send, wires := update s.wires qp rest } := by
  have true' : TrueWrite cfg s.history w := h.wires qp w (first ▸ mem_cons_self)
  have others := wires_update qp h.wires fun v mem =>
    h.wires qp v (first ▸ mem_cons_of_mem w mem)
  cases w with
  | cts slot start elems =>
    refine { h with fifo := ?_, wires := others }
    intro slot' i
    simp only [land]
    split
    next here =>
      obtain ⟨rfl, _⟩ := here
      cases hf : elems[i - start]? with
      | none => exact h.fifo slot' i
      | some e =>
        have := true' (i - start) e hf
        rwa [show start + (i - start) = i by omega] at this
    · exact h.fifo slot' i
  | sync slot e =>
    refine { h with syncFifo := ?_, wires := others }
    intro slot'
    simp only [land, update_apply]
    split
    next here =>
      exact here ▸ true'
    · exact h.syncFifo slot'

theorem reread_true (h : Contents cfg s) (true' : TrueWrite cfg s.history w) (j : Nat) :
    TrueWrite cfg s.history (reread s.recv j w) := by
  cases w with
  | cts slot first elems =>
    intro k e hf
    rw [getElem?_set] at hf
    split at hf
    next here =>
      subst here
      obtain ⟨-, ⟨⟩⟩ := ite_none_right_eq_some.mp hf
      exact h.elems slot (first + j)
    · exact true' k e hf
  | sync slot e => exact h.syncElems slot

theorem rePostFifo_some (next : rePostFifo cfg k s = some s') :
    ∃ devBases t, s.recv.inUse[k]? = some ⟨devBases, some t⟩ ∧ cfg.faultTolerance = true ∧
      t.timedOut = false ∧
      s' =
        { s with
          recv := { s.recv with inUse := s.recv.inUse.set k ⟨devBases, some
            { t with devIndex := (t.devIndex + 1) % cfg.recv.ndevs, timedOut := true }⟩ }
          wires := update s.wires ⟨false, t.devIndex⟩ (s.wires ⟨false, t.devIndex⟩ ++
            [.cts t.slot t.position [s.recv.elems t.slot t.position]])
          history :=
            { s.history with
              requests := s.history.requests ++ [⟨.retransmission, .data .recv ⟨false, t.devIndex⟩,
                some t.lkey, cfg.key ⟨.send, false, t.devIndex⟩⟩] } } := by
  unfold rePostFifo at next
  split at next
  next devBases t hf =>
    split at next
    · contradiction
    next hg =>
      simp only [not_or, Bool.not_eq_false, Bool.not_eq_true] at hg
      cases next
      exact ⟨devBases, t, hf, hg.1, hg.2.1, rfl⟩
  · contradiction

theorem rePostFifo_inv (h : Inv cfg s) (next : rePostFifo cfg k s = some s') :
    Inv cfg s' := by
  obtain ⟨_, t, -, -, -, rfl⟩ := rePostFifo_some next
  refine { h with wires := ?_ }
  apply wires_append _ h.wires
  intro k e hf
  cases k with
  | zero =>
    cases hf
    exact h.elems t.slot t.position
  | succ k => simp at hf

theorem Inv.reset (h : Inv cfg s) : Inv cfg { s with send := { s.send with qpIndex := 0 } } :=
  { h with }

theorem step_inv (a : Action) (h : Inv cfg s) (next : step cfg s a = some s') :
    Inv cfg s' := by
  cases a with
  | irecv items => exact irecv_inv h next
  | rePost k => exact rePostFifo_inv h next
  | recvRollBack k i positions => exact recvRollBack_inv h next
  | iflush stale =>
    obtain ⟨-, ⟨⟩⟩ := ite_none_right_eq_some.mp next
    exact { h with }
  | flushError k i =>
    obtain ⟨devBases, -, -, rfl⟩ := flushError_some next
    exact { h with }
  | freeRecv k =>
    cases next
    exact { h with }
  | refresh =>
    cases next
    exact { h with }
  | isend tag size stale =>
    obtain ⟨⟨_, _⟩, ran, rfl⟩ := map_eq_some_iff.mp next
    exact isend_inv h ran
  | sendError k i =>
    obtain ⟨devBases, -, -, rfl⟩ := sendError_some next
    exact { h with }
  | freeSend k =>
    cases next
    exact { h with }
  | sendRollBack count =>
    obtain ⟨-, -, send, ran, rfl⟩ := sendRollBack_some next
    exact (checkSyncFifos_inv count h.reset ran).1
  | land qp =>
    obtain ⟨w, _, first, rfl⟩ := land_some next
    exact land_inv h first
  | lose qp k =>
    cases next
    refine { h with wires := ?_ }
    exact wires_update qp h.wires fun v mem =>
      h.wires qp v (mem_of_mem_eraseIdx mem)
  | reread qp k j =>
    obtain ⟨w, hf, rfl⟩ := reread_some next
    refine { h with wires := ?_ }
    apply wires_update qp h.wires
    intro v mem
    rcases mem_or_eq_of_mem_set mem with old | rfl
    · exact h.wires qp v old
    · exact reread_true h.toContents (h.wires qp w (mem_of_getElem? hf)) j

theorem reachable_inv (reached : Reachable (step cfg) initial s) : Inv cfg s :=
  reachable_invariant (Inv cfg) initial_inv (fun _ a _ kept next => step_inv a kept next) reached

/-- The entries the sender has used up are among those posted, in that order and none twice, and
each was posted after every sync entry the sender had read by then. -/
structure InOrder (s : State) : Prop where
  once : s.history.log.Nodup
  order : (s.history.consumed.map Consumed.idx).Sublist s.history.log
  fresh : ∀ c ∈ s.history.consumed, ∃ p, s.history.posted c.idx = some p ∧ c.syncs ≤ p.syncs

/-- In every run the sender uses the entries in order, and a rollback of which it has read all sync
entries has brought its head to the receiver's tail at the end of that rollback. -/
theorem fifo_consumed_in_order {s : State} (reached : Reachable (step cfg) initial s) :
    InOrder s ∧ ∀ count s', step cfg s (.sendRollBack count) = some s' →
      ∀ r ∈ s'.history.rollbacks, r.1 = s'.send.syncFifoHead → s'.send.fifoHead = r.2 := by
  have h := reachable_inv reached
  refine ⟨⟨h.sorted.imp (fun hb => Nat.ne_of_lt hb),
    h.consumed.trans filter_sublist, h.fresh⟩, ?_⟩
  intro count s' next r mem ends
  obtain ⟨pos, -, send, ran, rfl⟩ := sendRollBack_some next
  obtain ⟨y, hf, head, -⟩ := (checkSyncFifos_inv count h.reset ran).2 pos
  obtain ⟨-, z, ht, tail⟩ := h.rollbacks r mem
  rw [ends] at ht
  rw [hf] at ht
  cases ht
  exact head.trans tail

def single : Config where
  faultTolerance := true
  splitDataOnQps := false
  qpsPerConn := 1
  send := ⟨1, 1, Nat.one_pos, Ib.maxDevsPerNic_pos, Nat.one_pos, Ib.maxDevsPerNic_pos⟩
  recv := ⟨1, 1, Nat.one_pos, Ib.maxDevsPerNic_pos, Nat.one_pos, Ib.maxDevsPerNic_pos⟩
  flushEnabled := true
  backupFlushEnabled := true
  oneQp := Nat.one_pos

def message : Item := ⟨4096, 64, 7⟩

def failedOver : List Action :=
  [.irecv [message], .land ⟨false, 0⟩, .isend 7 64 fun _ => false,
    .irecv [message], .recvRollBack 0 0 [1], .land ⟨true, 0⟩, .sendRollBack 1,
    .irecv [message], .land ⟨true, 0⟩, .isend 7 64 fun _ => false]

theorem failed_over_in_order : ∃ s, Reachable (step single) initial s ∧
    s.history.log = [1, 2, 1003] ∧ s.history.consumed.map Consumed.idx = [1, 1003] ∧ InOrder s := by
  obtain ⟨s, ran, hf⟩ := run_reaches (step single) initial failedOver
    (fun s => s.history.log = [1, 2, 1003] ∧ s.history.consumed.map Consumed.idx = [1, 1003])
    (by decide +kernel)
  obtain ⟨log, used⟩ := hf
  exact ⟨s, ⟨_, ran⟩, log, used, (fifo_consumed_in_order ⟨_, ran⟩).1⟩

end Vccl.Failover
