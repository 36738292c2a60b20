import Vccl.Bitops

/-! The merge of a received list of dead peers into `rasDeadPeers`, in a new array or in place. -/
namespace Vccl.Ras

open List
open Function (update)

variable {α : Type} [LinearOrder α]

/-- `rasDeadPeers`, `nRasDeadPeers` and `rasDeadPeersSize`. -/
structure DeadPeers (α : Type) where
  peers : Nat → α
  n : Nat
  size : Nat

def DeadPeers.list (s : DeadPeers α) : List α := (range s.n).map s.peers

/-- The loop from `oldPeersIdx`, the updates to come and `newPeersIdx` on; the old peers may be in the same array. -/
def mergeLoop (old : (Nat → α) → Nat → α) (n : Nat) : Nat → Nat → List α → Nat → (Nat → α) → (Nat → α) × Nat
  | 0, _, _, new, peers => (peers, new)
  | turns + 1, i, [], new, peers =>
    if i < n then mergeLoop old n turns (i + 1) [] (new + 1) (update peers new (old peers i)) else (peers, new)
  | turns + 1, i, u :: rest, new, peers =>
    match if i < n then cmp (old peers i) u else .gt with
    | .lt => mergeLoop old n turns (i + 1) (u :: rest) (new + 1) (update peers new (old peers i))
    | .eq => mergeLoop old n turns (i + 1) rest (new + 1) (update peers new (old peers i))
    | .gt => mergeLoop old n turns i rest (new + 1) (update peers new u)

/-- With `updatePeers` and `nUpdatePeers` as the caller finds them. -/
def rasDeadPeersUpdate (zero : α) (s : DeadPeers α) (updatePeers : List α) : DeadPeers α × List α × Nat :=
  if updatePeers = [] then (s, [], 0)
  else
    let nNewPeers := s.n + updatePeers.length
    let shift := s.size - s.n
    let (peers, size) := if s.size < nNewPeers then
        (mergeLoop (fun _ => s.peers) s.n nNewPeers 0 updatePeers 0 fun _ => zero, alignUp nNewPeers 4)
      else
        (mergeLoop (fun peers i => peers (shift + i)) s.n nNewPeers 0 updatePeers 0
          fun i => if shift ≤ i then s.peers (i - shift) else s.peers i, s.size)
    (⟨peers.1, peers.2, size⟩, updatePeers, peers.2 - s.n)

def union : List α → List α → List α
  | [], us => us
  | xs, [] => xs
  | x :: xs, u :: us =>
    match cmp x u with
    | .lt => x :: union xs (u :: us)
    | .eq => x :: union xs us
    | .gt => u :: union (x :: xs) us

@[simp] theorem union_nil (xs : List α) : union xs [] = xs := by
  cases xs <;> simp [union]

theorem mem_union {x : α} (xs us : List α) : x ∈ union xs us ↔ x ∈ xs ∨ x ∈ us := by
  fun_induction union xs us <;> simp_all [or_assoc, or_left_comm]

theorem union_sorted (xs us : List α) (sorted : xs.Pairwise (· < ·)) (sorted' : us.Pairwise (· < ·)) :
    (union xs us).Pairwise (· < ·) := by
  fun_induction union xs us with
  | case1 => exact sorted'
  | case2 => exact sorted
  | case3 | case4 | case5 =>
    simp only [cmp_eq_lt_iff, cmp_eq_eq_iff, cmp_eq_gt_iff, pairwise_cons, mem_union, mem_cons] at *
    grind

omit [LinearOrder α] in
theorem map_update (peers : Nat → α) (n : Nat) (v : α) :
    (range (n + 1)).map (update peers n v) = (range n).map peers ++ [v] := by
  rw [range_succ, map_append, map_singleton, Function.update_self]
  congr 1
  apply map_congr_left
  intro k mem
  exact Function.update_of_ne (mem_range.mp mem).ne _ _

/-- The places written are behind those of the old peers that are still to be read. -/
theorem mergeLoop_eq {old : (Nat → α) → Nat → α} {n s : Nat}
    (frame : ∀ peers v k i, k < s + i → old (update peers k v) i = old peers i) {turns i new : Nat} {rest : List α}
    {peers : Nat → α} (enough : n - i + rest.length ≤ turns) (room : new + rest.length ≤ s + i) :
    (range (mergeLoop old n turns i rest new peers).2).map (mergeLoop old n turns i rest new peers).1 =
      (range new).map peers ++ union ((range' i (n - i)).map (old peers)) rest := by
  induction turns generalizing i rest new peers with
  | zero =>
    obtain rfl : rest = [] := length_eq_zero_iff.mp (by omega)
    rw [show n - i = 0 by omega]
    simp [mergeLoop]
  | succ turns ih =>
    have later (a : Nat) (v : α) (ahead : new < s + a) :
        (range' a (n - a)).map (old (update peers new v)) = (range' a (n - a)).map (old peers) := by
      apply map_congr_left
      intro k mem
      have := (mem_range'_1.mp mem).1
      exact frame peers v new k (by omega)
    by_cases more : i < n
    · have first : range' i (n - i) = i :: range' (i + 1) (n - (i + 1)) := by
        rw [← range'_succ]
        congr 1
        omega
      cases rest with
      | nil =>
        simp only [length_nil] at room
        rw [mergeLoop, if_pos more, ih (by grind) (by grind), map_update, later _ _ (by omega), first]
        simp
      | cons u us =>
        simp only [length_cons] at enough room
        rw [mergeLoop, if_pos more, first, map_cons, union]
        cases cmp (old peers i) u
        all_goals
          simp only
          rw [ih (by grind) (by grind), map_update, later _ _ (by omega), append_assoc]
        · rfl
        · rfl
        · rw [first]
          rfl
    · have none : n - i = 0 := by omega
      cases rest with
      | nil => simp [mergeLoop, more, none]
      | cons u us =>
        simp only [length_cons] at enough room
        rw [mergeLoop, if_neg more, ih (by omega) (by omega), map_update]
        simp [none, union]

theorem rasDeadPeersUpdate_list (zero : α) (s : DeadPeers α) (updatePeers : List α) :
    (rasDeadPeersUpdate zero s updatePeers).1.list = union s.list updatePeers := by
  unfold rasDeadPeersUpdate
  split
  next none =>
    subst none
    simp
  next some' =>
    simp only [DeadPeers.list]
    split
    · rw [mergeLoop_eq (s := updatePeers.length) (fun _ _ _ _ _ => rfl) (by omega) (by omega)]
      simp [range_eq_range']
    · have shifted : ∀ (peers : Nat → α) v k i, k < s.size - s.n + i →
          update peers k v (s.size - s.n + i) = peers (s.size - s.n + i) :=
        fun _ _ _ _ before => Function.update_of_ne before.ne' _ _
      rw [mergeLoop_eq shifted (by omega) (by omega)]
      simp [range_eq_range']

theorem length_union {xs us : List α} (sorted : xs.Pairwise (· < ·)) (sorted' : us.Pairwise (· < ·)) :
    (union xs us).length = xs.length + (us.filter (· ∉ xs)).length := by
  rw [← length_append]
  apply Perm.length_eq
  rw [perm_ext_iff_of_nodup ((union_sorted xs us sorted sorted').imp ne_of_lt)]
  · grind [mem_union]
  · apply Nodup.append (sorted.imp ne_of_lt) (Nodup.filter _ (sorted'.imp ne_of_lt))
    intro x inX inU
    simp [inX] at inU

/-- The received list is not changed; of the entries that were new only the number is returned. -/
theorem deadPeers_merged (zero : α) {s : DeadPeers α} {updatePeers : List α} (sorted : s.list.Pairwise (· < ·))
    (received : updatePeers.Pairwise (· < ·)) :
    (rasDeadPeersUpdate zero s updatePeers).1.list.Pairwise (· < ·) ∧
      (∀ x, x ∈ (rasDeadPeersUpdate zero s updatePeers).1.list ↔ x ∈ s.list ∨ x ∈ updatePeers) ∧
      (rasDeadPeersUpdate zero s updatePeers).2 = (updatePeers, (updatePeers.filter (· ∉ s.list)).length) := by
  have merged := rasDeadPeersUpdate_list zero s updatePeers
  have count : (rasDeadPeersUpdate zero s updatePeers).2 =
      (updatePeers, (rasDeadPeersUpdate zero s updatePeers).1.list.length - s.list.length) := by
    simp only [rasDeadPeersUpdate, DeadPeers.list, length_map, length_range]
    split
    next none => simp [none]
    · rfl
  rw [count, merged, length_union sorted received, Nat.add_sub_cancel_left]
  exact ⟨union_sorted _ _ sorted received, fun x => mem_union _ _, rfl⟩

theorem deadPeers_merged_in_place :
    (rasDeadPeersUpdate 0 ⟨fun i => i + 1, 1, 4⟩ [1, 2]).2 = ([1, 2], ([1, 2].filter (· ∉ [1])).length) :=
  (deadPeers_merged 0 (s := ⟨fun i => i + 1, 1, 4⟩) (by decide) (by decide)).2.2

/-- Peer 1 is known and peer 2 is new; peer 1 stands where the entries that were new would be. -/
theorem known_peer_returned :
    (rasDeadPeersUpdate 0 ⟨fun i => i + 1, 1, 4⟩ [1, 2]).2 = ([1, 2], 1) ∧ [1, 2].take 1 ≠ [2] := by
  decide

end Vccl.Ras
