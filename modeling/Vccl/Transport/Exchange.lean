import Vccl.Transport.Passes

/-! What a rank sends in a round and what it finds in its buffer after it. The two ends compute the places of the records
independently of each other, from masks that agree. -/
namespace Vccl.Transport

open Packed List Function

variable {R : Type} {job : Job R}

section

variable {a j : Nat}

theorem sendPeer_eq (below : a < job.nRanks) (round : j < job.nRanks) :
    job.sendPeer a j = if a + j < job.nRanks then a + j else a + j - job.nRanks := by
  unfold Job.sendPeer
  split
  next hs => exact Nat.mod_eq_of_lt hs
  · rw [Nat.mod_eq_sub_mod (by omega), Nat.mod_eq_of_lt (by omega)]

theorem recvPeer_eq (below : a < job.nRanks) (round : j < job.nRanks) :
    job.recvPeer a j = if j ≤ a then a - j else a + job.nRanks - j := by
  unfold Job.recvPeer
  split
  next hs =>
    rw [show a + job.nRanks - j = a - j + job.nRanks by omega, Nat.add_mod_right, Nat.mod_eq_of_lt (by omega)]
  · exact Nat.mod_eq_of_lt (by omega)

theorem peer_lt (round : j < job.nRanks) (dir : Dir) : job.peer a j dir < job.nRanks := by
  cases dir with
  | send => exact Nat.mod_lt _ (by omega)
  | recv => exact Nat.mod_lt _ (by omega)

theorem peer_ne (below : a < job.nRanks) (from_one : 1 ≤ j) (round : j < job.nRanks) (dir : Dir) :
    job.peer a j dir ≠ a := by
  cases dir with
  | send =>
    rw [Job.peer, sendPeer_eq below round]
    split <;> omega
  | recv =>
    rw [Job.peer, recvPeer_eq below round]
    split <;> omega

theorem peer_opposite (below : a < job.nRanks) (round : j < job.nRanks) (dir : Dir) :
    job.peer (job.peer a j dir) j dir.opposite = a := by
  cases dir with
  | send =>
    show job.recvPeer (job.sendPeer a j) j = a
    have inside : job.sendPeer a j < job.nRanks := peer_lt round .send
    rw [recvPeer_eq inside round, sendPeer_eq below round]
    split <;> split <;> omega
  | recv =>
    show job.sendPeer (job.recvPeer a j) j = a
    have inside : job.recvPeer a j < job.nRanks := peer_lt round .recv
    rw [sendPeer_eq inside round, recvPeer_eq below round]
    split <;> split <;> omega

theorem same_peer_iff (below : a < job.nRanks) (from_one : 1 ≤ j) (round : j < job.nRanks) :
    job.sendPeer a j = job.recvPeer a j ↔ j + j = job.nRanks := by
  rw [sendPeer_eq below round, recvPeer_eq below round]
  split <;> split <;> omega

end

namespace Job

variable (job)

def mine (a j : Nat) (dir : Dir) : List R :=
  (channels (job.mask a dir (job.peer a j dir))).map (job.setup a dir (job.peer a j dir))

def theirs (a j : Nat) (dir : Dir) : List R :=
  (channels (job.mask a dir (job.peer a j dir))).map (job.setup (job.peer a j dir) dir.opposite a)

def outgoing (a j : Nat) : List (Nat × List R) :=
  if job.sendPeer a j = job.recvPeer a j then
    if (job.mine a j .recv).length + (job.mine a j .send).length ≠ 0 then
      [(job.recvPeer a j, job.mine a j .recv ++ job.mine a j .send)]
    else []
  else
    (if (job.mine a j .recv).length ≠ 0 then [(job.recvPeer a j, job.mine a j .recv)] else []) ++
      if (job.mine a j .send).length ≠ 0 then [(job.sendPeer a j, job.mine a j .send)] else []

def content (b j a : Nat) : List (List R) := ((job.outgoing b j).filter fun m => m.1 = a).map Prod.snd

end Job

section

variable {a b j : Nat}

theorem length_mine (dir : Dir) : (job.mine a j dir).length = (job.theirs a j dir).length := by
  simp [Job.mine, Job.theirs]

theorem mask_opposite (left : a < job.nRanks) (right : b < job.nRanks) (other : a ≠ b) (dir : Dir) (c : Nat) :
    (job.mask a dir b).getLsbD c = (job.mask b dir.opposite a).getLsbD c := by
  cases dir with
  | send => exact job.consistent a b left right other c
  | recv => exact (job.consistent b a right left other.symm c).symm

theorem theirs_eq (below : a < job.nRanks) (from_one : 1 ≤ j) (round : j < job.nRanks) (dir : Dir) :
    job.theirs a j dir = job.mine (job.peer a j dir) j dir.opposite := by
  have other := peer_ne below from_one round dir
  unfold Job.theirs Job.mine
  rw [peer_opposite below round]
  refine congrArg (map _) (positions_congr fun c _ => ?_)
  exact mask_opposite below (peer_lt round dir) other.symm dir c

theorem theirs_get {dir : Dir} {c : Nat} (small : c < MAXCHANNELS)
    (set : (job.mask a dir (job.peer a j dir)).getLsbD c = true) :
    (job.theirs a j dir)[(positions (job.mask a dir (job.peer a j dir)).getLsbD c).length]? =
      some (job.setup (job.peer a j dir) dir.opposite a c) := by
  rw [Job.theirs, getElem?_map, channels, positions_get small set, Option.map_some]

theorem content_same (below : a < job.nRanks) (from_one : 1 ≤ j) (round : j < job.nRanks)
    (same : job.sendPeer a j = job.recvPeer a j) :
    job.content (job.recvPeer a j) j a =
      if (job.theirs a j .send).length + (job.theirs a j .recv).length ≠ 0 then
        [job.theirs a j .send ++ job.theirs a j .recv] else [] := by
  have peer : job.recvPeer a j < job.nRanks := peer_lt round .recv
  have same' : job.sendPeer (job.recvPeer a j) j = job.recvPeer (job.recvPeer a j) j :=
    (same_peer_iff peer from_one round).mpr ((same_peer_iff below from_one round).mp same)
  have back : job.recvPeer (job.recvPeer a j) j = a := by
    rw [← same']
    exact peer_opposite below round .recv
  have sends := theirs_eq below from_one round .send
  have recvs := theirs_eq below from_one round .recv
  simp only [Job.peer, Dir.opposite, same] at sends recvs
  rw [Job.content, Job.outgoing, if_pos same', sends, recvs, back]
  split <;> simp

theorem content_peer (below : a < job.nRanks) (from_one : 1 ≤ j) (round : j < job.nRanks)
    (different : job.sendPeer a j ≠ job.recvPeer a j) (dir : Dir) :
    job.content (job.peer a j dir) j a =
      if (job.theirs a j dir).length ≠ 0 then [job.theirs a j dir] else [] := by
  have peer : job.peer a j dir < job.nRanks := peer_lt round dir
  have different' : job.sendPeer (job.peer a j dir) j ≠ job.recvPeer (job.peer a j dir) j := fun same =>
    different ((same_peer_iff below from_one round).mpr ((same_peer_iff peer from_one round).mp same))
  have back := peer_opposite below round dir
  rw [Job.content, Job.outgoing, if_neg different', theirs_eq below from_one round]
  by_cases hso : (job.mine (job.peer a j dir) j .recv).length ≠ 0 <;>
    by_cases hs : (job.mine (job.peer a j dir) j .send).length ≠ 0
  all_goals
    cases dir with
    | send =>
      change job.recvPeer (job.peer a j .send) j = a at back
      rw [back] at different'
      simp [back, different', Dir.opposite, hso]
    | recv =>
      change job.sendPeer (job.peer a j .recv) j = a at back
      rw [back] at different'
      simp [back, different'.symm, Dir.opposite, hs]

theorem content_other (left : a < job.nRanks) (right : b < job.nRanks) (round : j < job.nRanks)
    (other : ¬ ∃ dir, b = job.peer a j dir) : job.content b j a = [] := by
  have no_send : job.sendPeer b j ≠ a := by
    rintro rfl
    exact other ⟨_, (peer_opposite right round .send).symm⟩
  have no_recv : job.recvPeer b j ≠ a := by
    rintro rfl
    exact other ⟨_, (peer_opposite right round .recv).symm⟩
  rw [Job.content, Job.outgoing]
  split <;> split <;> (try split) <;> simp [no_send, no_recv]

end

section

variable {rank : Nat} {st st' : Rank R} {mail mail' : Mail R}

theorem setupRound_eq (rank : Nat) (st : Rank R) :
    ∃ buf, setupRound job rank st =
      ({ st with
          stage := .exchange
          recvChannels := (job.mine rank st.i .recv).length, sendChannels := (job.mine rank st.i .send).length
          data := update st.data st.p buf
          recvData := update st.recvData st.p 0
          sendData := update st.sendData st.p (job.mine rank st.i .recv).length },
        job.outgoing rank st.i) := by
  have recv : (channels (job.connectRecv rank (job.recvPeer rank st.i))).map
      (job.setup rank .recv (job.recvPeer rank st.i)) = job.mine rank st.i .recv := rfl
  have send : (channels (job.connectSend rank (job.sendPeer rank st.i))).map
      (job.setup rank .send (job.sendPeer rank st.i)) = job.mine rank st.i .send := rfl
  have recv_length : (channels (job.connectRecv rank (job.recvPeer rank st.i))).length =
      (job.mine rank st.i .recv).length := by rw [← recv, length_map]
  have send_length : (channels (job.connectSend rank (job.sendPeer rank st.i))).length =
      (job.mine rank st.i .send).length := by rw [← send, length_map]
  refine ⟨write (if job.connectRecv rank (job.recvPeer rank st.i) ≠ 0 ∨ job.connectSend rank (job.sendPeer rank st.i) ≠ 0
    then fun _ => job.zero else st.data st.p) 0 (job.mine rank st.i .recv ++ job.mine rank st.i .send), ?_⟩
  -- What is sent are the two halves of the buffer, or the whole.
  simp [setupRound, setupChannels_eq, recv, send, recv_length, send_length, write_write, slice_first,
    slice_second, slice_both, Job.outgoing]

variable {src count base tag : Nat} {message : List R}

def taken (mail : Mail R) (src rank tag : Nat) : Mail R :=
  update mail src (update (mail src) rank (update (mail src rank) tag []))

theorem taken_self : taken mail src rank tag src rank tag = [] := by
  simp [taken]

theorem taken_of_ne {b a t : Nat} (elsewhere : ¬ (b = src ∧ a = rank ∧ t = tag)) :
    taken mail src rank tag b a t = mail b a t := by
  unfold taken
  by_cases hsa : b = src
  · subst hsa
    rw [update_self]
    by_cases hs : a = rank
    · subst hs
      rw [update_self, update_of_ne fun same => elsewhere ⟨rfl, rfl, same⟩]
    · rw [update_of_ne hs]
  · rw [update_of_ne hsa]

def Rank.fill (st : Rank R) (base : Nat) (message : List R) : Rank R :=
  { st with data := update st.data st.p (write (st.data st.p) base message) }

@[simp]
theorem Rank.fill_i (st : Rank R) (base : Nat) (message : List R) : (st.fill base message).i = st.i := rfl

def fetch (job : Job R) (rank src count base : Nat) (st : Rank R) (mail : Mail R) : Option (Rank R × Mail R) :=
  if count ≠ 0 then receiveInto job rank src count base st mail else some (st, mail)

theorem fetch_iff (base : Nat) (size : message.length = count) (slot : mail src rank (job.bootstrapTag st.i) = [] ∨
      mail src rank (job.bootstrapTag st.i) = if count ≠ 0 then [message] else []) {out : Rank R × Mail R} :
    fetch job rank src count base st mail = some out ↔ (count ≠ 0 → mail src rank (job.bootstrapTag st.i) ≠ []) ∧
      (st.fill base message, taken mail src rank (job.bootstrapTag st.i)) = out := by
  unfold fetch
  by_cases hs : count ≠ 0
  · rw [if_pos hs] at slot ⊢
    rcases slot with empty | ht
    · simp [receiveInto, empty, hs]
    · simp only [receiveInto, ht]
      rw [if_neg (by omega)]
      simp [Rank.fill, taken]
  · rw [if_neg hs] at slot ⊢
    have none : message = [] := by
      rw [← length_eq_zero_iff, size]
      exact Classical.not_not.mp hs
    have empty : mail src rank (job.bootstrapTag st.i) = [] := by
      rcases slot with empty | empty <;> exact empty
    have untouched : taken mail src rank (job.bootstrapTag st.i) = mail := by
      rw [taken, ← empty]
      simp
    rw [none, Rank.fill, write_nil, untouched]
    simp [hs]

structure Own (job : Job R) (rank : Nat) (st : Rank R) : Prop where
  stage : st.stage = .exchange
  recvData : st.recvData st.p = 0
  sendData : st.sendData st.p = (job.theirs rank st.i .recv).length
  recvChannels : st.recvChannels = (job.theirs rank st.i .recv).length
  sendChannels : st.sendChannels = (job.theirs rank st.i .send).length

structure Swapped (job : Job R) (rank : Nat) (st : Rank R) (mail : Mail R) (st' : Rank R) (mail' : Mail R) : Prop where
  frame : st' = { st with
    data := update st.data st.p (st'.data st.p)
    recvData := update st.recvData st.p (st'.recvData st.p)
    sendData := update st.sendData st.p (st'.sendData st.p) }
  filled : Filled job rank st' st.i st.p
  emptied : ∀ dir, mail' (job.peer rank st.i dir) rank (job.bootstrapTag st.i) = []
  elsewhere : ∀ b a t, (a = rank → t = job.bootstrapTag st.i → ∀ dir, b ≠ job.peer rank st.i dir) →
    mail' b a t = mail b a t
  needed : ∀ dir, job.content (job.peer rank st.i dir) st.i rank ≠ [] →
    mail (job.peer rank st.i dir) rank (job.bootstrapTag st.i) ≠ []

theorem receiveRound_different (different : job.sendPeer rank st.i ≠ job.recvPeer rank st.i) :
    receiveRound job rank st mail =
      (fetch job rank (job.sendPeer rank st.i) st.sendChannels (st.sendData st.p) st mail).bind fun out =>
        if out.1.recvChannels ≠ 0 ∧ out.1.stage ≠ .failed then
          receiveInto job rank (job.recvPeer rank st.i) out.1.recvChannels (out.1.recvData out.1.p) out.1 out.2
        else some out := by
  simp only [receiveRound, if_neg different, fetch]
  split <;> rfl

variable (own : Own job rank st) (below : rank < job.nRanks) (from_one : 1 ≤ st.i) (round : st.i < job.nRanks)
  (slots : ∀ dir, mail (job.peer rank st.i dir) rank (job.bootstrapTag st.i) = [] ∨
    mail (job.peer rank st.i dir) rank (job.bootstrapTag st.i) = job.content (job.peer rank st.i dir) st.i rank)
include own below from_one round slots

theorem receive_different (different : job.sendPeer rank st.i ≠ job.recvPeer rank st.i) {out : Rank R × Mail R} :
    receiveRound job rank st mail = some out ↔
      ((job.content (job.sendPeer rank st.i) st.i rank ≠ [] →
          mail (job.sendPeer rank st.i) rank (job.bootstrapTag st.i) ≠ []) ∧
        (job.content (job.recvPeer rank st.i) st.i rank ≠ [] →
          mail (job.recvPeer rank st.i) rank (job.bootstrapTag st.i) ≠ [])) ∧
      ((st.fill (job.theirs rank st.i .recv).length (job.theirs rank st.i .send)).fill 0 (job.theirs rank st.i .recv),
        taken (taken mail (job.sendPeer rank st.i) rank (job.bootstrapTag st.i)) (job.recvPeer rank st.i) rank
          (job.bootstrapTag st.i)) = out := by
  have sends := slots .send
  have recvs := slots .recv
  have send_content := content_peer below from_one round different .send
  have recv_content := content_peer below from_one round different .recv
  simp only [Job.peer] at sends recvs send_content recv_content
  rw [send_content, ← own.sendChannels] at sends
  rw [recv_content, ← own.recvChannels] at recvs
  have untouched : taken mail (job.sendPeer rank st.i) rank (job.bootstrapTag st.i) (job.recvPeer rank st.i) rank
      (job.bootstrapTag st.i) = mail (job.recvPeer rank st.i) rank (job.bootstrapTag st.i) :=
    taken_of_ne fun same => different same.1.symm
  have alive : st.stage ≠ .failed := by
    rw [own.stage]
    decide
  rw [← untouched] at recvs
  have second := @fetch_iff R job rank (st.fill (job.theirs rank st.i .recv).length (job.theirs rank st.i .send))
    (taken mail (job.sendPeer rank st.i) rank (job.bootstrapTag st.i)) (job.recvPeer rank st.i) st.recvChannels
    _ 0 own.recvChannels.symm recvs out
  rw [fetch, st.fill_i, untouched] at second
  simp only [receiveRound_different different, Option.bind_eq_some_iff, own.sendData,
    fetch_iff _ own.sendChannels.symm sends, and_assoc, exists_and_left, exists_eq_left']
  change (_ ∧ (if st.recvChannels ≠ 0 ∧ st.stage ≠ .failed then
    receiveInto job rank _ st.recvChannels (st.recvData st.p) _ _ else _) = _) ↔ _
  rw [own.recvData, if_congr (and_iff_left alive) rfl rfl, second, send_content, recv_content]
  simp [own.sendChannels, own.recvChannels]

theorem receive_same (same : job.sendPeer rank st.i = job.recvPeer rank st.i) {out : Rank R × Mail R} :
    receiveRound job rank st mail = some out ↔
      (job.content (job.recvPeer rank st.i) st.i rank ≠ [] →
        mail (job.recvPeer rank st.i) rank (job.bootstrapTag st.i) ≠ []) ∧
      ({ st.fill 0 (job.theirs rank st.i .send ++ job.theirs rank st.i .recv) with
          recvData := update st.recvData st.p (job.theirs rank st.i .send).length
          sendData := update st.sendData st.p 0 },
        taken mail (job.recvPeer rank st.i) rank (job.bootstrapTag st.i)) = out := by
  have content := content_same below from_one round same
  have slot := slots .recv
  rw [Job.peer, content] at slot
  have fetched := @fetch_iff R job rank st mail _ _ _ 0 length_append slot
  have round_eq : receiveRound job rank st mail = (fetch job rank (job.recvPeer rank st.i)
      ((job.theirs rank st.i .send).length + (job.theirs rank st.i .recv).length) 0 st mail).map fun out =>
        ({ out.1 with
            sendData := update out.1.sendData out.1.p 0
            recvData := update out.1.recvData out.1.p out.1.sendChannels }, out.2) := by
    simp only [receiveRound, if_pos same, fetch, ← own.sendChannels, ← own.recvChannels, Nat.add_comm]
    split
    · rfl
    rename_i none
    have send : update st.sendData st.p 0 = st.sendData := by
      rw [update_eq_self_iff, own.sendData, ← own.recvChannels]
      omega
    have recv : update st.recvData st.p st.sendChannels = st.recvData := by
      rw [update_eq_self_iff, own.recvData]
      omega
    rw [Option.map_some, send, recv]
  simp only [round_eq, Option.map_eq_some_iff, fetched, and_assoc, exists_and_left, exists_eq_left', content]
  change (_ ∧ ({ st.fill _ _ with
    sendData := update st.sendData st.p 0
    recvData := update st.recvData st.p st.sendChannels }, _) = _) ↔ _
  rw [own.sendChannels]
  simp

theorem swapped (got : receiveRound job rank st mail = some (st', mail')) : Swapped job rank st mail st' mail' := by
  by_cases same : job.sendPeer rank st.i = job.recvPeer rank st.i
  · obtain ⟨hn, ⟨⟩⟩ := (receive_same own below from_one round slots same).mp got
    have one_peer : ∀ dir, job.peer rank st.i dir = job.recvPeer rank st.i := by
      intro dir
      cases dir with
      | send => exact same
      | recv => rfl
    refine ⟨?_, ?_, ?_, ?_, ?_⟩
    · simp [Rank.fill]
    · intro dir c hs set
      have there := theirs_get hs set
      cases dir
      all_goals simp only [Rank.fill, Rank.ptr, update_self]
      case send =>
        obtain ⟨hi, -⟩ := List.getElem?_eq_some_iff.mp there
        exact write_get (by rw [List.getElem?_append_left hi, there])
      case recv =>
        rw [← Nat.zero_add (_ + _)]
        exact write_get (by rw [List.getElem?_append_right (Nat.le_add_right _ _), Nat.add_sub_cancel_left, there])
    · intro dir
      rw [one_peer, taken_self]
    · intro b a t ho
      exact taken_of_ne fun there => ho there.2.1 there.2.2 .recv there.1
    · intro dir
      rw [one_peer]
      exact hn
  · obtain ⟨hn, ⟨⟩⟩ := (receive_different own below from_one round slots same).mp got
    refine ⟨?_, ?_, ?_, ?_, ?_⟩
    · simp [Rank.fill, Rank.p]
    · intro dir c hs set
      have there := theirs_get hs set
      have sendData := own.sendData
      have recvData := own.recvData
      simp only [Rank.p] at sendData recvData
      cases dir
      all_goals simp only [Rank.fill, Rank.ptr, Rank.p, update_self]
      case send => rw [sendData, write_after (by omega), write_get there]
      case recv => rw [recvData, write_get there]
    · intro dir
      cases dir with
      | send => exact (taken_of_ne fun there => same there.1).trans taken_self
      | recv => exact taken_self
    · intro b a t ho
      exact (taken_of_ne fun there => ho there.2.1 there.2.2 .recv there.1).trans
        (taken_of_ne fun there => ho there.2.1 there.2.2 .send there.1)
    · intro dir
      cases dir with
      | send => exact hn.1
      | recv => exact hn.2

omit slots in
theorem receiveRound_enabled
    (there : ∀ dir, mail (job.peer rank st.i dir) rank (job.bootstrapTag st.i) =
      job.content (job.peer rank st.i dir) st.i rank) :
    ∃ out, receiveRound job rank st mail = some out := by
  have needed : ∀ dir, job.content (job.peer rank st.i dir) st.i rank ≠ [] →
      mail (job.peer rank st.i dir) rank (job.bootstrapTag st.i) ≠ [] := fun dir hs => there dir ▸ hs
  by_cases same : job.sendPeer rank st.i = job.recvPeer rank st.i
  · exact ⟨_, (receive_same own below from_one round (fun dir => .inr (there dir)) same).mpr ⟨needed .recv, rfl⟩⟩
  · exact ⟨_, (receive_different own below from_one round (fun dir => .inr (there dir)) same).mpr
      ⟨⟨needed .send, needed .recv⟩, rfl⟩⟩

end

end Vccl.Transport
