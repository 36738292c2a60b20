import Vccl.Lib.Totals
import Vccl.Transport.Exchange

/-! All ranks in `ncclTransportP2pSetup`, in any order. A rank may be ahead of its peers by as many rounds as need no
message from them; what is on its way is determined by how far the two ends are. -/
namespace Vccl.Transport

open Packed Transition List Function Option

variable {R : Type} (job : Job R)

def Sent (st : Rank R) (j : Nat) : Prop :=
  j < st.i ∨ (j = st.i ∧ (st.stage = .exchange ∨ st.stage = .connect))

def Got (st : Rank R) (j : Nat) : Prop := j < st.i ∨ (j = st.i ∧ st.stage = .connect)

structure RankInv (rank : Nat) (st : Rank R) : Prop where
  order : st.done < st.i
  inside : st.stage = .setup ∨ st.stage = .exchange ∨ st.stage = .connect → st.i < job.nRanks
  finished : st.stage = .finished → st.i = job.nRanks ∧ st.done + 1 = job.nRanks
  failed : st.stage = .failed → job.maxPeers < 0
  alive : st.stage ≠ .failed → 0 ≤ job.maxPeers
  outOfBounds : st.stage = .outOfBounds → job.maxPeers = 0 ∧ 1 < job.nRanks
  batch : 0 < job.maxPeers → st.stage ≠ .finished → (st.i : Int) - st.done ≤ job.maxPeers
  moved : st.stage = .exchange ∨ st.stage = .connect ∨ 1 < st.i → 0 < job.maxPeers
  filled : ∀ j, st.done < j → j < st.i ∨ (j = st.i ∧ st.stage = .connect) →
    Filled job rank st j (j - (st.done + 1))
  own : st.stage = .exchange → Own job rank st
  calls : ∀ call ∈ st.calls, Good job rank call
  tally : ∀ d q c, successes st.calls d q c + (job.connected rank d q c).toNat = (st.connected d q c).toNat
  made : ∀ j, 1 ≤ j → j ≤ st.done → Made job rank st j

structure Inv (s : Net R) : Prop where
  ranks : ∀ a < job.nRanks, RankInv job a (s.ranks a)
  mail_sent : ∀ a < job.nRanks, ∀ b < job.nRanks, ∀ j, 1 ≤ j → j < job.nRanks → Sent (s.ranks b) j →
    ¬ Got (s.ranks a) j → s.mail b a (job.bootstrapTag j) = job.content b j a
  mail_empty : ∀ a < job.nRanks, ∀ b < job.nRanks, ∀ j, 1 ≤ j → j < job.nRanks →
    ¬ Sent (s.ranks b) j ∨ Got (s.ranks a) j → s.mail b a (job.bootstrapTag j) = []
  heard : ∀ a < job.nRanks, ∀ b < job.nRanks, ∀ j, 1 ≤ j → j < job.nRanks → Got (s.ranks a) j →
    ¬ Sent (s.ranks b) j → job.content b j a = []

section

variable {job} {s t : Net R} {rank : Nat} {st st' : Rank R}

theorem Filled.congr {j p : Nat} (h : Filled job rank st j p) (data : st'.data p = st.data p)
    (sendData : st'.sendData p = st.sendData p) (recvData : st'.recvData p = st.recvData p) :
    Filled job rank st' j p := by
  intro dir c hs set
  have here := h dir c hs set
  cases dir with
  | send => rw [data, Rank.ptr, sendData]; exact here
  | recv => rw [data, Rank.ptr, recvData]; exact here

theorem bootstrapTag_injective {i j : Nat} (same : job.bootstrapTag i = job.bootstrapTag j) : i = j := by
  simp only [Job.bootstrapTag] at same
  omega

theorem initial_stage (rank : Nat) :
    (((Net.initial job).ranks rank).stage = .failed ∧ job.maxPeers < 0) ∨
    (((Net.initial job).ranks rank).stage = .setup ∧ 0 ≤ job.maxPeers ∧ 1 < job.nRanks) ∨
    (((Net.initial job).ranks rank).stage = .finished ∧ 0 ≤ job.maxPeers ∧ job.nRanks = 1) := by
  have ranks := job.some_rank
  simp only [Net.initial]
  split
  next negative => exact .inl ⟨rfl, negative⟩
  · split
    · exact .inr (.inl ⟨rfl, by omega, by omega⟩)
    · exact .inr (.inr ⟨rfl, by omega, by omega⟩)

theorem initial_rankInv (rank : Nat) : RankInv job rank ((Net.initial job).ranks rank) := by
  have i : ((Net.initial job).ranks rank).i = 1 := rfl
  have done : ((Net.initial job).ranks rank).done = 0 := rfl
  have calls : ((Net.initial job).ranks rank).calls = [] := rfl
  have connected : ((Net.initial job).ranks rank).connected = job.connected rank := rfl
  have stage := @initial_stage R job rank
  constructor
  case tally => simp [calls, connected, successes]
  all_goals grind

theorem not_sent_initial {rank j : Nat} (from_one : 1 ≤ j) : ¬ Sent ((Net.initial job).ranks rank) j := by
  rintro (hb | ⟨-, here⟩)
  · exact absurd hb (Nat.not_lt.mpr from_one)
  · rcases @initial_stage R job rank with ⟨at_, -⟩ | ⟨at_, -⟩ | ⟨at_, -⟩ <;> simp [at_] at here

theorem not_got_initial {rank j : Nat} (from_one : 1 ≤ j) : ¬ Got ((Net.initial job).ranks rank) j := by
  rintro (hb | ⟨ha, here⟩)
  · exact absurd hb (Nat.not_lt.mpr from_one)
  · exact not_sent_initial from_one (.inr ⟨ha, .inr here⟩)

theorem initial_inv : Inv job (Net.initial job) :=
  ⟨fun a _ => initial_rankInv a, fun _ _ _ _ _ from_one _ sent => absurd sent (not_sent_initial from_one),
    fun _ _ _ _ _ _ _ _ => rfl, fun _ _ _ _ _ from_one _ got => absurd got (not_got_initial from_one)⟩

theorem RankInv.outOfBounds_step (h : RankInv job rank st) (stage : st.stage = .setup) (small : job.maxPeers ≤ st.p) :
    RankInv job rank { st with stage := .outOfBounds } := by
  have inside := h.inside (.inl stage)
  have nonneg := h.alive (by simp [stage])
  have zero : job.maxPeers = 0 := by
    by_contra pos
    have := h.batch (by omega) (by simp [stage])
    unfold Rank.p at small
    omega
  obtain ⟨ho, -, -, -, -, -, -, _, filled, -, calls, ht, made⟩ := h
  refine ⟨ho, by simp, by simp, by simp, fun _ => nonneg, fun _ => ⟨zero, by omega⟩, by omega, by grind, ?_, by simp,
    calls, ht, made⟩
  rintro j after (hb | ⟨-, here⟩)
  · exact (filled j after (.inl hb)).congr rfl rfl rfl
  · cases here

theorem RankInv.setup_step (h : RankInv job rank st) (stage : st.stage = .setup) (enough : st.p < job.maxPeers)
    (next : st' = (setupRound job rank st).1) :
    RankInv job rank st' ∧ st'.i = st.i ∧ st'.stage = .exchange := by
  obtain ⟨_, hp⟩ := @setupRound_eq R job rank st
  rw [hp] at next
  have i' : st'.i = st.i := by rw [next]
  have done' : st'.done = st.done := by rw [next]
  have stage' : st'.stage = .exchange := by rw [next]
  have p' : st'.p = st.p := by rw [Rank.p, i', done', Rank.p]
  have filled : ∀ j, st'.done < j → j < st'.i → Filled job rank st' j (j - (st'.done + 1)) := by
    intro j after before
    have other : j - (st.done + 1) ≠ st.p := by
      unfold Rank.p
      omega
    rw [done'] at after ⊢
    refine (h.filled j after (.inl (i' ▸ before))).congr ?_ ?_ ?_ <;> simp only [next, update_of_ne other]
  have own : Own job rank st' := by
    refine ⟨stage', ?_, ?_, ?_, ?_⟩
    · rw [p']
      simp only [next, update_self]
    · rw [p', ← length_mine]
      simp [next]
    all_goals rw [← length_mine, next]
  refine ⟨?_, i', stage'⟩
  have calls' : ∀ call ∈ st'.calls, Good job rank call := by rw [next]; exact h.calls
  obtain ⟨_, _, -, -, _, -, _, -, -, -, -, ht, made⟩ := h
  refine ⟨?_, ?_, ?_, ?_, ?_, ?_, ?_, ?_, ?_, fun _ => own, calls', by rw [next]; exact ht, by rw [next]; exact made⟩
  all_goals grind

theorem RankInv.receive_step (h : RankInv job rank st) {mail mail' : Mail R} (stage : st.stage = .exchange)
    (swap : Swapped job rank st mail st' mail') :
    RankInv job rank (afterReceive job st') ∧
      (∀ j, Sent (afterReceive job st') j ↔ Sent st j) ∧ ∀ j, Got (afterReceive job st') j ↔ j ≤ st.i := by
  obtain ⟨data, recvData, sendData, frame⟩ : ∃ data recvData sendData, st' = { st with
      data := update st.data st.p data
      recvData := update st.recvData st.p recvData
      sendData := update st.sendData st.p sendData } := ⟨_, _, _, swap.frame⟩
  have inside := h.inside (.inr (.inl stage))
  have order := h.order
  have pos := h.moved (.inl stage)
  have batch := h.batch pos (by simp [stage])
  -- The buffers of the rounds before this one are not touched.
  have filled : ∀ j, st.done < j → j ≤ st.i → Filled job rank st' j (j - (st.done + 1)) := by
    intro j ha upto
    by_cases last : j = st.i
    · subst last
      exact swap.filled
    · have other : j - (st.done + 1) ≠ st.p := by
        unfold Rank.p
        omega
      refine (h.filled j ha (.inl (by omega))).congr ?_ ?_ ?_ <;> simp [frame, update_of_ne other]
  have alive := h.alive (by simp [stage])
  have filled' : ∀ j, st.done < j → j ≤ st.i →
      Filled job rank { st' with i := st.i + 1, stage := .setup } j (j - (st.done + 1)) :=
    fun j ha upto => (filled j ha upto).congr rfl rfl rfl
  subst frame
  unfold afterReceive
  rw [if_neg (by simp [stage])]
  dsimp only
  split
  next past =>
    refine ⟨⟨order, fun _ => inside, by simp, by simp, fun _ => alive, by simp, fun _ _ => batch, fun _ => pos,
      ?_, by simp, h.calls, h.tally, h.made⟩, ?_, ?_⟩
    · intro j ha upto
      dsimp only at ha upto
      exact (filled j ha (by omega)).congr rfl rfl rfl
    · simp [Sent, stage]
    · grind [Got]
  next more =>
    have another : st.i + 1 < job.nRanks := by omega
    simp only [advance, if_pos another]
    refine ⟨⟨?_, ?_, ?_, ?_, ?_, ?_, ?_, ?_, ?_, ?_, h.calls, h.tally, h.made⟩, ?_, ?_⟩
    all_goals grind [Sent, Got]

theorem RankInv.filled_upto (h : RankInv job rank st) (stage : st.stage = .connect) :
    ∀ j, st.done < j → j ≤ st.i → Filled job rank st j (j - (st.done + 1)) := by
  intro j after upto
  rcases Nat.lt_or_eq_of_le upto with hb | last
  · exact h.filled j after (.inl hb)
  · exact h.filled j after (.inr ⟨last, stage⟩)

theorem RankInv.connect_step (h : RankInv job rank st) (stage : st.stage = .connect)
    (results : Dir → Nat → Nat → Bool) :
    RankInv job rank (connectPass job rank results st) ∧
      (∀ j, Sent (connectPass job rank results st) j ↔ Sent st j) ∧
      ∀ j, Got (connectPass job rank results st) j ↔ Got st j := by
  have inside := h.inside (.inr (.inr stage))
  have order := h.order
  have pos := h.moved (.inr (.inl stage))
  obtain ⟨y, hg, cases⟩ := connectPass_cases results st (h.filled_upto stage)
  have frame := hg.frame
  have i' : y.1.i = st.i := by rw [frame]
  have done' : y.1.done = st.done := by rw [frame]
  obtain ⟨_, ha, good⟩ := hg.calls
  have calls : ∀ call ∈ y.1.calls, Good job rank call := by
    intro call mem
    rw [ha] at mem
    rcases mem_append.mp mem with old | hf
    · exact h.calls call old
    · exact good call hf
  have tally : ∀ d q c, successes y.1.calls d q c + (job.connected rank d q c).toNat = (y.1.connected d q c).toNat := by
    intro d q c
    have before := h.tally d q c
    have grows := hg.tally d q c
    dsimp only at grows
    omega
  have made : ∀ j, 1 ≤ j → j ≤ st.done → Made job rank y.1 j := fun j low high => hg.made (h.made j low high)
  rcases cases with ⟨next, all⟩ | next
  · have past : ∀ j, 1 ≤ j → j ≤ st.i → Made job rank y.1 j := by
      intro j low high
      by_cases old : j ≤ st.done
      · exact made j low old
      · exact all j (by omega) high
    have last : (advance job { y.1 with done := y.1.i }).stage =
        if st.i + 1 < job.nRanks then .setup else .finished := by
      simp [advance, i']
    have i'' : (advance job { y.1 with done := y.1.i }).i = st.i + 1 := by simp [advance, i']
    have done'' : (advance job { y.1 with done := y.1.i }).done = st.i := by simp [advance, i']
    rw [next]
    refine ⟨⟨?_, ?_, ?_, ?_, ?_, ?_, ?_, ?_, ?_, ?_, calls, tally, ?_⟩, ?_, ?_⟩
    case refine_11 => exact fun j low high => past j low (done'' ▸ high)
    all_goals grind [Sent, Got]
  · rw [next]
    have kept : ∀ j, st.done < j → j ≤ st.i → Filled job rank y.1 j (j - (st.done + 1)) :=
      fun j after upto => hg.filled (h.filled_upto stage j after upto)
    have batch := h.batch pos (by simp [stage])
    refine ⟨⟨?_, ?_, ?_, ?_, ?_, ?_, ?_, ?_, ?_, ?_, calls, tally, fun j low high => made j low (done' ▸ high)⟩, ?_, ?_⟩
    all_goals grind [Sent, Got]

theorem post_get (mail : Mail R) (src tag : Nat) (message : Nat × List R) (b a t : Nat) :
    post mail src tag message b a t = mail b a t ++ if b = src ∧ message.1 = a ∧ t = tag then [message.2] else [] := by
  unfold post
  by_cases hsam : b = src
  · subst hsam
    by_cases hs : a = message.1
    · subst hs
      by_cases hsa : t = tag
      · subst hsa
        simp
      · simp [hsa]
    · simp [update_of_ne hs, Ne.symm hs]
  · simp [hsam]

theorem posts_get (messages : List (Nat × List R)) (mail : Mail R) (src tag b a t : Nat) :
    messages.foldl (fun mail message => post mail src tag message) mail b a t =
      mail b a t ++ if b = src ∧ t = tag then (messages.filter fun m => m.1 = a).map Prod.snd else [] := by
  induction messages generalizing mail with
  | nil => simp
  | cons message rest ih =>
    rw [foldl_cons, ih, post_get]
    by_cases here : b = src ∧ t = tag
    · obtain ⟨rfl, rfl⟩ := here
      by_cases ha : message.1 = a <;> simp [ha]
    · have elsewhere : ¬ (b = src ∧ message.1 = a ∧ t = tag) := fun all => here ⟨all.1, all.2.2⟩
      simp [here, elsewhere]

theorem Inv.ranks_update (h : Inv job s) (next : RankInv job rank st') (a : Nat) (below : a < job.nRanks) :
    RankInv job a (update s.ranks rank st' a) := by
  by_cases same : a = rank
  · subst same
    rwa [update_self]
  · rw [update_of_ne same]
    exact h.ranks a below

theorem Inv.quiet (h : Inv job s) (next : RankInv job rank st')
    (sent : ∀ j, Sent st' j ↔ Sent (s.ranks rank) j) (got : ∀ j, Got st' j ↔ Got (s.ranks rank) j) :
    Inv job { s with ranks := update s.ranks rank st' } := by
  have ranks := h.ranks_update next
  obtain ⟨-, _, _, _⟩ := h
  refine ⟨ranks, ?_, ?_, ?_⟩ <;> grind

theorem Inv.setup (h : Inv job s) (below : rank < job.nRanks) (stage : (s.ranks rank).stage = .setup)
    (enough : (s.ranks rank).p < job.maxPeers) :
    Inv job ⟨update s.ranks rank (setupRound job rank (s.ranks rank)).1,
      (setupRound job rank (s.ranks rank)).2.foldl
        (fun mail message => post mail rank (job.bootstrapTag (s.ranks rank).i) message) s.mail⟩ := by
  have old := h.ranks rank below
  have inside := old.inside (.inl stage)
  have order := old.order
  obtain ⟨next, i', stage'⟩ := old.setup_step stage enough rfl
  obtain ⟨_, _⟩ := @setupRound_eq R job rank (s.ranks rank)
  generalize (setupRound job rank (s.ranks rank)).1 = st' at next i' stage'
  generalize round : (s.ranks rank).i = i at inside order i'
  have sent_old : ∀ j, Sent (s.ranks rank) j ↔ j < i := by
    intro j
    simp [Sent, stage, round]
  have sent_new : ∀ j, Sent st' j ↔ j < i ∨ j = i := by
    intro j
    simp [Sent, stage', i']
  have got_new : ∀ j, Got st' j ↔ Got (s.ranks rank) j := by
    intro j
    simp [Got, stage, stage', i', round]
  have mail_new : ∀ b a j, (job.outgoing rank i).foldl
      (fun mail message => post mail rank (job.bootstrapTag i) message) s.mail b a (job.bootstrapTag j) =
        s.mail b a (job.bootstrapTag j) ++ if b = rank ∧ j = i then job.content b j a else [] := by
    intro b a j
    rw [posts_get]
    by_cases here : b = rank ∧ j = i
    · obtain ⟨rfl, rfl⟩ := here
      simp [Job.content]
    · have elsewhere : ¬ (b = rank ∧ job.bootstrapTag j = job.bootstrapTag i) := fun all =>
        here ⟨all.1, bootstrapTag_injective all.2⟩
      rw [if_neg here, if_neg elsewhere]
  have ranks := h.ranks_update next
  obtain ⟨-, _, _, _⟩ := h
  refine ⟨ranks, ?_, ?_, ?_⟩ <;> dsimp only <;> grind

theorem Inv.swapped (h : Inv job s) (below : rank < job.nRanks) (stage : (s.ranks rank).stage = .exchange)
    {mail' : Mail R} (got : receiveRound job rank (s.ranks rank) s.mail = some (st', mail')) :
    Swapped job rank (s.ranks rank) s.mail st' mail' := by
  have old := h.ranks rank below
  have inside := old.inside (.inr (.inl stage))
  have from_one : 1 ≤ (s.ranks rank).i := Nat.one_le_of_lt old.order
  refine Transport.swapped (old.own stage) below from_one inside (fun dir => ?_) got
  have peer : job.peer rank (s.ranks rank).i dir < job.nRanks := peer_lt inside dir
  by_cases sent : Sent (s.ranks (job.peer rank (s.ranks rank).i dir)) (s.ranks rank).i
  · exact .inr (h.mail_sent rank below _ peer _ from_one inside sent (by simp [Got, stage]))
  · exact .inl (h.mail_empty rank below _ peer _ from_one inside (.inl sent))

theorem Inv.receive (h : Inv job s) (below : rank < job.nRanks) (stage : (s.ranks rank).stage = .exchange)
    {mail' : Mail R} (got : receiveRound job rank (s.ranks rank) s.mail = some (st', mail')) :
    Inv job ⟨update s.ranks rank (afterReceive job st'), mail'⟩ := by
  have old := h.ranks rank below
  have inside := old.inside (.inr (.inl stage))
  have from_one : 1 ≤ (s.ranks rank).i := Nat.one_le_of_lt old.order
  have got_old : ∀ j, Got (s.ranks rank) j ↔ j < (s.ranks rank).i := by
    intro j
    simp [Got, stage]
  have not_yet : ¬ Got (s.ranks rank) (s.ranks rank).i := by
    rw [got_old]
    omega
  have swap := h.swapped below stage got
  obtain ⟨next, _, _⟩ := old.receive_step stage swap
  have elsewhere : ∀ a b j, ¬ (a = rank ∧ j = (s.ranks rank).i) →
      mail' b a (job.bootstrapTag j) = s.mail b a (job.bootstrapTag j) := fun a b j other =>
    swap.elsewhere _ _ _ fun same tag => absurd ⟨same, bootstrapTag_injective tag⟩ other
  have received : ∀ b, b < job.nRanks → mail' b rank (job.bootstrapTag (s.ranks rank).i) = [] := by
    intro b right
    by_cases peer : ∃ dir, b = job.peer rank (s.ranks rank).i dir
    · obtain ⟨dir, rfl⟩ := peer
      exact swap.emptied dir
    · rw [swap.elsewhere _ _ _ fun _ _ => not_exists.mp peer]
      by_cases sent : Sent (s.ranks b) (s.ranks rank).i
      · exact (h.mail_sent rank below b right _ from_one inside sent not_yet).trans (content_other below right inside peer)
      · exact h.mail_empty rank below b right _ from_one inside (.inl sent)
  -- A rank that has received without waiting was sent nothing.
  have silent : ∀ b, b < job.nRanks → ¬ Sent (s.ranks b) (s.ranks rank).i → job.content b (s.ranks rank).i rank = [] := by
    intro b right hn
    have silent := h.mail_empty rank below b right _ from_one inside (.inl hn)
    by_contra hs
    by_cases peer : ∃ dir, b = job.peer rank (s.ranks rank).i dir
    · obtain ⟨dir, rfl⟩ := peer
      exact swap.needed dir hs silent
    · exact hs (content_other below right inside peer)
  have ranks := h.ranks_update next
  obtain ⟨-, mail_sent, mail_empty, _⟩ := h
  refine ⟨ranks, ?_, ?_, ?_⟩ <;> dsimp only <;> grind [update_apply]

theorem step_inv {a : Action} (h : Inv job s) (taken : step job s a = some t) : Inv job t := by
  cases a with
  | setup rank =>
    obtain ⟨hr, next⟩ := ite_none_right_eq_some.mp taken
    split at next <;> cases next
    next hs =>
      refine h.quiet ((h.ranks rank hr.1).outOfBounds_step hr.2 hs) ?_ ?_
      · intro j
        simp [Sent, hr.2]
      · intro j
        simp [Got, hr.2]
    · exact h.setup hr.1 hr.2 (by omega)
  | receive rank =>
    obtain ⟨hr, next⟩ := ite_none_right_eq_some.mp taken
    obtain ⟨⟨_, _⟩, got, rfl⟩ := map_eq_some_iff.mp next
    exact h.receive hr.1 hr.2 got
  | connect rank results =>
    obtain ⟨hr, ⟨⟩⟩ := ite_none_right_eq_some.mp taken
    obtain ⟨next, sent, got⟩ := (h.ranks rank hr.1).connect_step hr.2 results
    exact h.quiet next sent got

end

def Terminal (s : Net R) : Prop := ∀ a, step job s a = none

/-- Every connection of the masks was made once, and no connect function was called with another record than the one the
peer wrote for the other end. -/
structure Served (rank : Nat) (st : Rank R) : Prop where
  finished : st.stage = .finished
  records : ∀ call ∈ st.calls, call.record = job.setup call.peer call.dir.opposite rank call.channel
  once : ∀ peer < job.nRanks, peer ≠ rank → ∀ dir, ∀ c < MAXCHANNELS, (job.mask rank dir peer).getLsbD c = true →
    successes st.calls dir peer c = 1

/-- The size of a batch allows a round at all, and no connection of the masks exists already. -/
structure Sound : Prop where
  allocated : 0 ≤ job.maxPeers
  room : 1 < job.nRanks → 0 < job.maxPeers
  fresh : ∀ rank < job.nRanks, ∀ peer < job.nRanks, peer ≠ rank → ∀ dir, ∀ c < MAXCHANNELS,
    (job.mask rank dir peer).getLsbD c = true → job.connected rank dir peer c = false

section

variable {job} {s : Net R} {rank : Nat} {st : Rank R}

theorem exists_round {peer : Nat} (left : rank < job.nRanks) (right : peer < job.nRanks) (other : peer ≠ rank)
    (dir : Dir) : ∃ j, 1 ≤ j ∧ j < job.nRanks ∧ job.peer rank j dir = peer := by
  cases dir with
  | send =>
    refine ⟨if rank < peer then peer - rank else peer + job.nRanks - rank, ?_, ?_, ?_⟩
    · split <;> omega
    · split <;> omega
    · rw [Job.peer, sendPeer_eq left (by split <;> omega)]
      split <;> split <;> omega
  | recv =>
    refine ⟨if peer < rank then rank - peer else rank + job.nRanks - peer, ?_, ?_, ?_⟩
    · split <;> omega
    · split <;> omega
    · rw [Job.peer, recvPeer_eq left (by split <;> omega)]
      split <;> split <;> omega

theorem RankInv.served (h : RankInv job rank st) (below : rank < job.nRanks) (sound : Sound job)
    (finished : st.stage = .finished) : Served job rank st := by
  obtain ⟨-, _⟩ := h.finished finished
  refine ⟨finished, h.calls, ?_⟩
  intro peer right other dir c hs set
  obtain ⟨j, low, _, rfl⟩ := exists_round below right other dir
  have made := h.made j low (by omega) dir c hs set
  have tally := h.tally dir (job.peer rank j dir) c
  rw [made, sound.fresh rank below _ right other dir c hs set] at tally
  exact tally

theorem Served.fresh (served : Served job rank st) (h : RankInv job rank st) {peer : Nat} (right : peer < job.nRanks)
    (other : peer ≠ rank) {dir : Dir} {c : Nat} (small : c < MAXCHANNELS)
    (set : (job.mask rank dir peer).getLsbD c = true) : job.connected rank dir peer c = false := by
  have tally := h.tally dir peer c
  rw [served.once peer right other dir c small set] at tally
  have bound := Bool.toNat_le (st.connected dir peer c)
  cases hb : job.connected rank dir peer c with
  | false => rfl
  | true =>
    rw [hb, Bool.toNat_true] at tally
    omega

theorem Inv.not_stuck (h : Inv job s) (room : 1 < job.nRanks → 0 < job.maxPeers) (allocated : 0 ≤ job.maxPeers)
    (terminal : Terminal job s) : ∀ a < job.nRanks, (s.ranks a).stage = .finished := by
  have stages : ∀ a < job.nRanks, (s.ranks a).stage = .exchange ∨ (s.ranks a).stage = .finished := by
    intro a below
    have rank := h.ranks a below
    cases stage : (s.ranks a).stage with
    | setup =>
      have none := terminal (.setup a)
      simp only [step, if_pos (And.intro below stage)] at none
      split at none <;> cases none
    | exchange => exact .inl rfl
    | connect =>
      have none := terminal (.connect a fun _ _ _ => true)
      simp only [step, if_pos (And.intro below stage)] at none
      cases none
    | finished => exact .inr rfl
    | failed =>
      have := rank.failed stage
      omega
    | outOfBounds =>
      have := rank.outOfBounds stage
      omega
  have no_exchange : ∀ i, ∀ a < job.nRanks, (s.ranks a).i = i → (s.ranks a).stage ≠ .exchange := by
    intro i
    induction i using Nat.strongRecOn with
    | ind i ih =>
      intro a below round stage
      subst round
      have rank := h.ranks a below
      have inside := rank.inside (.inr (.inl stage))
      have from_one : 1 ≤ (s.ranks a).i := Nat.one_le_of_lt rank.order
      have there : ∀ dir, s.mail (job.peer a (s.ranks a).i dir) a (job.bootstrapTag (s.ranks a).i) =
          job.content (job.peer a (s.ranks a).i dir) (s.ranks a).i a := by
        intro dir
        have peer : job.peer a (s.ranks a).i dir < job.nRanks := peer_lt inside dir
        refine h.mail_sent a below _ peer _ from_one inside ?_ (by simp [Got, stage])
        rcases stages _ peer with exchange | finished
        · have not_behind : ¬ (s.ranks (job.peer a (s.ranks a).i dir)).i < (s.ranks a).i := fun behind =>
            ih _ behind _ peer rfl exchange
          rcases Nat.lt_or_eq_of_le (Nat.not_lt.mp not_behind) with ahead | same
          · exact .inl ahead
          · exact .inr ⟨same, .inl exchange⟩
        · refine .inl ?_
          rw [((h.ranks _ peer).finished finished).1]
          exact inside
      obtain ⟨_, enabled⟩ := receiveRound_enabled (rank.own stage) below from_one inside there
      have none := terminal (.receive a)
      simp only [step, if_pos (And.intro below stage), enabled] at none
      cases none
  intro a below
  rcases stages a below with exchange | finished
  · exact absurd exchange (no_exchange _ a below rfl)
  · exact finished

end

def weight (st : Rank R) : Nat :=
  match st.stage with
  | .setup => 3 * (job.nRanks - st.i) + 3
  | .exchange => 3 * (job.nRanks - st.i) + 2
  | .connect => 3 * (job.nRanks - st.i) + 1
  | _ => 0

section

variable {job} {s t : Net R} {rank : Nat} {st st' : Rank R}

theorem weight_advance : weight job (advance job st) < 3 * (job.nRanks - st.i) + 1 := by
  unfold advance
  by_cases more : st.i + 1 < job.nRanks
  · simp only [weight, if_pos more]
    omega
  · simp only [if_neg more]
    exact Nat.succ_pos _

theorem weight_receive {mail mail' : Mail R} (stage : st.stage = .exchange)
    (swap : Swapped job rank st mail st' mail') : weight job (afterReceive job st') < weight job st := by
  have i' : st'.i = st.i := by rw [swap.frame]
  have stage' : st'.stage = .exchange := by rw [swap.frame, stage]
  have before : weight job st = 3 * (job.nRanks - st.i) + 2 := by simp [weight, stage]
  unfold afterReceive
  rw [if_neg (by simp [stage'])]
  split
  · simp only [weight, stage]
    omega
  · have := @weight_advance R job st'
    omega

theorem weight_connect (h : RankInv job rank st) (stage : st.stage = .connect) :
    weight job (connectPass job rank (fun _ _ _ => true) st) < weight job st := by
  have before : weight job st = 3 * (job.nRanks - st.i) + 1 := by simp [weight, stage]
  obtain ⟨y, hg, ⟨next, -⟩ | next⟩ := connectPass_cases (fun _ _ _ => true) st (h.filled_upto stage)
  · have i' : y.1.i = st.i := by rw [hg.frame]
    have less := @weight_advance R job { y.1 with done := y.1.i }
    rw [next, before, ← i']
    exact less
  · -- The pass cannot have left anything undone.
    obtain ⟨z, last⟩ := @connectPass_advances R job rank st
    have stage' : y.1.stage = .connect := by
      rw [hg.frame]
      exact stage
    rw [← next, last] at stage'
    simp only [advance] at stage'
    split at stage' <;> cases stage'

theorem terminal_of_idle (idle : ∀ k < job.nRanks, (s.ranks k).stage ∈ [.finished, .failed, .outOfBounds]) :
    Terminal job s := by
  have stopped : ∀ k stage, (stage = .setup ∨ stage = .exchange ∨ stage = .connect) →
      ¬(k < job.nRanks ∧ (s.ranks k).stage = stage) := by
    rintro k _ (rfl | rfl | rfl) ⟨hb, here⟩ <;> simpa [here] using idle k hb
  intro a
  cases a with
  | setup k => simp only [step, if_neg (stopped k _ (.inl rfl))]
  | receive k => simp only [step, if_neg (stopped k _ (.inr (.inl rfl)))]
  | connect k results => simp only [step, if_neg (stopped k _ (.inr (.inr rfl)))]

theorem weight_update {k : Nat} (less : weight job st' < weight job (s.ranks k)) :
    weight job (update s.ranks k st' k) < weight job (s.ranks k) ∧
      ∀ j, j ≠ k → weight job (update s.ranks k st' j) = weight job (s.ranks j) := by
  refine ⟨?_, fun j other => ?_⟩
  · rw [update_self]
    exact less
  · rw [update_of_ne other]

theorem Inv.terminates (h : Inv job s) : ∃ t, Reachable (step job) s t ∧ Inv job t ∧ Terminal job t := by
  refine reaches_goal_of_parts (Inv job) (Terminal job) job.nRanks (fun s k => weight job (s.ranks k)) ?_ h
  intro s inv moving
  unfold Terminal at moving
  push Not at moving
  obtain ⟨a, he⟩ := moving
  obtain ⟨t, taken⟩ := ne_none_iff_exists'.mp he
  cases a with
  | setup k =>
    obtain ⟨hr, next⟩ := ite_none_right_eq_some.mp taken
    refine ⟨_, t, k, taken, step_inv inv taken, hr.1, ?_⟩
    split at next <;> cases next <;> apply weight_update
    · simp [weight, hr.2]
    · simp [weight, hr.2]
  | receive k =>
    obtain ⟨hr, next⟩ := ite_none_right_eq_some.mp taken
    obtain ⟨⟨_, _⟩, got, rfl⟩ := map_eq_some_iff.mp next
    exact ⟨_, _, k, taken, step_inv inv taken, hr.1,
      weight_update (weight_receive hr.2 (inv.swapped hr.1 hr.2 got))⟩
  | connect k results =>
    obtain ⟨hr, -⟩ := ite_none_right_eq_some.mp taken
    have taken : step job s (.connect k fun _ _ _ => true) = some _ := if_pos hr
    exact ⟨_, _, k, taken, step_inv inv taken, hr.1, weight_update (weight_connect (inv.ranks k hr.1) hr.2)⟩

end

/-- From every state the ranks can go on until none of them has anything to do. Then every connection was made once, with
the record of its other end, exactly if the batches have room and none of the connections existed before. -/
theorem served_iff_sound {s : Net R} (reached : Reachable (step job) (Net.initial job) s) :
    (∃ t, Reachable (step job) s t ∧ Terminal job t) ∧
    (Terminal job s → ((∀ rank < job.nRanks, Served job rank (s.ranks rank)) ↔ Sound job)) := by
  have h := reachable_invariant (Inv job) initial_inv (fun _ _ _ => step_inv) reached
  obtain ⟨t, hr, -, last⟩ := h.terminates
  refine ⟨⟨t, hr, last⟩, fun ht => ?_⟩
  constructor
  · intro hse
    have first := h.ranks 0 job.some_rank
    have finished := (hse 0 job.some_rank).finished
    refine ⟨first.alive (by simp [finished]), ?_, ?_⟩
    · intro hsev
      refine first.moved (.inr (.inr ?_))
      rw [(first.finished finished).1]
      exact hsev
    · intro rank left peer right other dir c hsm set
      exact (hse rank left).fresh (h.ranks rank left) right other hsm set
  · intro hs rank hb
    exact (h.ranks rank hb).served hb hs (h.not_stuck hs.room hs.allocated ht rank hb)

/-- Two ranks that connect channel 0 in both directions; a record names its writer. -/
def pair (maxPeers : Int) : Job Nat where
  nRanks := 2
  maxPeers := maxPeers
  graphTag := 0
  connectSend _ _ := 1
  connectRecv _ _ := 1
  connected _ _ _ _ := false
  zero := 7
  setup rank _ _ _ := rank
  some_rank := Nat.two_pos
  consistent _ _ _ _ _ _ := rfl

theorem pair_served : ∃ s, Reachable (step (pair 1)) (Net.initial (pair 1)) s ∧ Terminal (pair 1) s ∧
    ∀ rank < 2, Served (pair 1) rank (s.ranks rank) := by
  let always : Dir → Nat → Nat → Bool := fun _ _ _ => true
  obtain ⟨s, hr, idle⟩ := run_reaches (step (pair 1)) (Net.initial (pair 1))
    [.setup 0, .setup 1, .receive 0, .receive 1, .connect 0 always, .connect 1 always]
    (fun s => ∀ k ∈ range 2, (s.ranks k).stage = .finished) (by decide +kernel)
  have terminal : Terminal (pair 1) s := terminal_of_idle fun k hb => by
    simp [idle k (mem_range.mpr hb)]
  have sound : Sound (pair 1) := ⟨by decide, fun _ => by decide, fun _ _ _ _ _ _ _ _ _ => rfl⟩
  exact ⟨s, ⟨_, hr⟩, terminal, ((served_iff_sound (pair 1) ⟨_, hr⟩).2 terminal).mpr sound⟩

/-- With `NCCL_CONNECT_ROUND_MAX_PEERS=0` the first round already writes behind the arrays, and nothing is connected. -/
theorem no_room_for_a_round : ∃ s, Reachable (step (pair 0)) (Net.initial (pair 0)) s ∧ Terminal (pair 0) s ∧
    (s.ranks 0).stage = .outOfBounds ∧ successes (s.ranks 0).calls .send 1 0 = 0 := by
  obtain ⟨s, hr, out⟩ := run_reaches (step (pair 0)) (Net.initial (pair 0)) [.setup 0, .setup 1]
    (fun s => (∀ k ∈ range 2, (s.ranks k).stage = .outOfBounds) ∧ successes (s.ranks 0).calls .send 1 0 = 0)
    (by decide +kernel)
  obtain ⟨hs, none_made⟩ := out
  have terminal : Terminal (pair 0) s := terminal_of_idle fun k hb => by
    simp [hs k (mem_range.mpr hb)]
  exact ⟨s, ⟨_, hr⟩, terminal, hs 0 (by decide), none_made⟩

end Vccl.Transport
