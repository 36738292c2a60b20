import Vccl.Ras.DeadPeers

/-! The exchange of the dead peers over one RAS connection. -/
namespace Vccl.Ras

/-- A process, with `lastSentDeadPeersHash` and `lastRecvDeadPeersHash` of the connection. -/
structure End (α H : Type) where
  dead : DeadPeers α
  lastSent : H
  lastRecv : H

/-- `deadPeersHash` and, in a `RAS_MSG_PEERSUPDATE` only, the dead peers. -/
structure Msg (α H : Type) where
  hash : H
  dead : List α

variable {α H : Type} [LinearOrder α] [DecidableEq H] (hash : List α → H) (zero : α)

/-- `peers`: there are entries of `rasPeers` to send. -/
def rasConnSendPeersUpdate (e : End α H) (peers : Bool) : End α H × List (Msg α H) :=
  let h := hash e.dead.list
  let dead := if e.lastSent = h ∨ e.lastRecv = h then [] else e.dead.list
  if !peers ∧ dead = [] then (e, [])
  else ({ e with lastSent := if dead = [] then e.lastSent else h }, [⟨h, dead⟩])

/-- The reply is that of `rasConnSendPeersUpdate` after the merge. -/
def rasMsgHandlePeersUpdate (e : End α H) (msg : Msg α H) (peers : Bool) : End α H × List (Msg α H) :=
  let dead := if msg.hash = hash e.dead.list then e.dead else (rasDeadPeersUpdate zero e.dead msg.dead).1
  rasConnSendPeersUpdate hash { e with dead, lastRecv := msg.hash } peers

/-- Two ends, with the messages on the way from each. A keep-alive is an update without dead peers;
`learn` is what comes from elsewhere. -/
inductive Reach : End α H → End α H → List (Msg α H) → List (Msg α H) → Prop
  | start d d' : d.list.Pairwise (· < ·) → d'.list.Pairwise (· < ·) →
    Reach ⟨d, hash [], hash []⟩ ⟨d', hash [], hash []⟩ [] []
  | swap : Reach e o out back → Reach o e back out
  | learn : Reach e o out back → us.Pairwise (· < ·) →
    Reach { e with dead := (rasDeadPeersUpdate zero e.dead us).1 } o out back
  | send peers : Reach e o out back → rasConnSendPeersUpdate hash e peers = (e', msgs) → Reach e' o (out ++ msgs) back
  | keepAlive : Reach e o out back → Reach e o (out ++ [⟨hash e.dead.list, []⟩]) back
  | handle peers : Reach e o out (m :: back) → rasMsgHandlePeersUpdate hash zero e m peers = (e', msgs) →
    Reach e' o (out ++ msgs) back

/-- What `e` has told `o`, with `msgs` on the way there, and what it has been told. -/
structure Good (e o : End α H) (msgs : List (Msg α H)) : Prop where
  sorted : e.dead.list.Pairwise (· < ·)
  sent : ∃ l, l.Pairwise (· < ·) ∧ hash l = e.lastSent ∧ ∀ x ∈ l, x ∈ o.dead.list ∨ ∃ m ∈ msgs, x ∈ m.dead
  recv : ∃ l, l.Pairwise (· < ·) ∧ hash l = e.lastRecv ∧ l ⊆ o.dead.list
  queued : ∀ m ∈ msgs, ∃ l, l.Pairwise (· < ·) ∧ hash l = m.hash ∧ (m.dead = [] ∨ m.dead = l) ∧ l ⊆ e.dead.list

variable {hash} {zero} {e e' o : End α H} {out back msgs : List (Msg α H)}

theorem Good.send {peers : Bool} (sends : rasConnSendPeersUpdate hash e peers = (e', msgs))
    (good : Good hash e o out) : Good hash e' o (out ++ msgs) ∧ e'.dead = e.dead := by
  obtain ⟨sorted, sent, recv, queued⟩ := good
  unfold rasConnSendPeersUpdate at sends
  extract_lets h dead at sends
  have full : dead = [] ∨ dead = e.dead.list := ite_eq_or_eq ..
  clear_value dead
  split at sends <;> obtain ⟨rfl, rfl⟩ := sends
  · simpa using ⟨sorted, sent, recv, queued⟩
  · refine ⟨⟨sorted, ?_, recv, by grind⟩, rfl⟩
    split
    · grind
    · exact ⟨e.dead.list, sorted, rfl, fun x mem => .inr ⟨_, List.mem_concat_self, by grind⟩⟩

section

variable (injective : Set.InjOn hash {l | l.Pairwise (· < ·)})
include injective

theorem Reach.good (reach : Reach hash zero e o out back) :
    Good hash e o out ∧ Good hash o e back := by
  induction reach with
  | start =>
    constructor
    all_goals exact ⟨by assumption, ⟨[], by simp⟩, ⟨[], by simp⟩, by simp⟩
  | swap _ ih => exact ih.symm
  | @learn e _ _ _ us _ sorted ih =>
    obtain ⟨near, far⟩ := ih
    have list := rasDeadPeersUpdate_list zero e.dead us
    have more x := mem_union (x := x) e.dead.list us
    exact ⟨⟨list ▸ union_sorted _ _ near.sorted sorted, near.sent, near.recv, by grind [near.queued]⟩,
      far.sorted, by grind [far.sent], by grind [far.recv], far.queued⟩
  | send _ _ sends ih =>
    obtain ⟨near, same⟩ := ih.1.send sends
    exact ⟨near, ih.2.sorted, same ▸ ih.2.sent, same ▸ ih.2.recv, ih.2.queued⟩
  | keepAlive _ ih =>
    obtain ⟨near, far⟩ := ih
    exact ⟨⟨near.sorted, by grind [near.sent], near.recv, by grind [near.queued, near.sorted]⟩, far⟩
  | @handle e _ _ m _ _ _ _ _ sends ih =>
    obtain ⟨near, far⟩ := ih
    unfold rasMsgHandlePeersUpdate at sends
    extract_lets dead at sends
    obtain ⟨l, sorted, same, carried, known⟩ := far.queued m List.mem_cons_self
    -- Equal hashes mean equal lists: nothing is lost by not merging.
    have more : ∀ x, x ∈ dead.list ↔ x ∈ e.dead.list ∨ x ∈ m.dead := by
      grind [rasDeadPeersUpdate_list, mem_union, Set.InjOn, near.sorted]
    have sorted' : dead.list.Pairwise (· < ·) := by
      grind [rasDeadPeersUpdate_list, union_sorted, near.sorted]
    clear_value dead
    obtain ⟨near, kept⟩ := Good.send sends ⟨sorted', near.sent, ⟨l, sorted, same, known⟩, by grind [near.queued]⟩
    exact ⟨near, far.sorted, by grind [far.sent], by grind [far.recv], by grind [far.queued]⟩

theorem Good.known (good : Good hash e o [])
    (idle : (rasConnSendPeersUpdate hash e false).2 = []) : e.dead.list ⊆ o.dead.list := by
  obtain ⟨l, sorted, sent, known⟩ := good.sent
  obtain ⟨l', sorted', recv, known'⟩ := good.recv
  have : e.dead.list = [] ∨ e.dead.list = l ∨ e.dead.list = l' := by
    simp only [rasConnSendPeersUpdate] at idle
    grind [Set.InjOn, good.sorted]
  grind

/-- With nothing on the way and nothing to send, both ends hold the same dead peers. -/
theorem quiet_agree (reach : Reach hash zero e o [] [])
    (idle : (rasConnSendPeersUpdate hash e false).2 = []) (idle' : (rasConnSendPeersUpdate hash o false).2 = []) :
    e.dead.list = o.dead.list := by
  obtain ⟨near, far⟩ := reach.good injective
  apply near.sorted.eq_of_mem_iff far.sorted
  intro x
  exact ⟨(near.known injective idle ·), (far.known injective idle' ·)⟩

end

theorem quiet_agree_handled :
    (rasMsgHandlePeersUpdate id 0 ⟨⟨fun _ => 0, 0, 0⟩, [], []⟩ ⟨[3], [3]⟩ false).1.dead.list = [3] := by
  have sent : Reach id 0 _ _ _ _ :=
    .send false (.start ⟨fun _ => 3, 1, 1⟩ ⟨fun _ => 0, 0, 0⟩ (by decide) (by decide)) rfl
  exact quiet_agree (Set.injOn_id _) (sent.swap.handle false rfl) rfl rfl

end Vccl.Ras
