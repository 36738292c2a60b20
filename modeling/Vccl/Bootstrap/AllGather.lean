import Vccl.Bootstrap.Ring

/-! Every connection carries a beginning of one ideal stream: the frames of all gathers in order. So what a rank has read
of it is determined by how far it has come, and an all-gather that succeeds has filled its table. This needs that no
rank goes on after an error. -/
namespace Vccl.Bootstrap.Ring

open Transition List Function

namespace Job

variable (job : Job)

def frame (g i q : Nat) : List Token := job.header g ++ job.body i (job.contribution g q)

def steps (rank g i : Nat) : List Token := (range i).flatMap fun j => job.frame g j (job.sslice rank j)

def ideal (rank g i : Nat) : List Token :=
  ((range g).flatMap fun g' => job.steps rank g' (job.nranks - 1)) ++ job.steps rank g i

variable {job}

theorem ideal_step (rank g i : Nat) :
    job.ideal rank g (i + 1) = job.ideal rank g i ++ job.frame g i (job.sslice rank i) := by
  simp [ideal, steps, range_succ]

theorem ideal_gather (rank g : Nat) : job.ideal rank g (job.nranks - 1) = job.ideal rank (g + 1) 0 := by
  simp only [ideal, range_succ (n := g)]
  simp [steps]

theorem ideal_prefix_step {rank g i i' : Nat} (le : i ≤ i') : job.ideal rank g i <+: job.ideal rank g i' := by
  induction le with
  | refl => exact prefix_rfl
  | step _ ih =>
    rw [ideal_step]
    exact ih.trans (prefix_append _ _)

theorem ideal_prefix_gather {rank g g' : Nat} (le : g ≤ g') : job.ideal rank g 0 <+: job.ideal rank g' 0 := by
  induction le with
  | refl => exact prefix_rfl
  | step _ ih =>
    rw [← ideal_gather]
    exact ih.trans (ideal_prefix_step (Nat.zero_le _))

theorem ideal_prefix {rank g g' i : Nat} (inside : i ≤ job.nranks - 1) (less : g < g') :
    job.ideal rank g i <+: job.ideal rank g' 0 := by
  have whole : job.ideal rank g i <+: job.ideal rank g (job.nranks - 1) := ideal_prefix_step inside
  rw [ideal_gather] at whole
  exact whole.trans (ideal_prefix_gather less)

theorem sslice_eq {rank j : Nat} (below : rank < job.nranks) (small : j < job.nranks) :
    job.sslice rank j = if j ≤ rank then rank - j else rank + job.nranks - j := by
  unfold sslice
  split
  next le =>
    rw [show rank + job.nranks - j = rank - j + job.nranks by omega, Nat.add_mod_right, Nat.mod_eq_of_lt (by omega)]
  · rw [Nat.mod_eq_of_lt (by omega)]

theorem sslice_succ (rank i : Nat) : job.sslice rank (i + 1) = job.rslice rank i := by
  rw [sslice, rslice, Nat.sub_sub]

theorem pred_eq {rank : Nat} (below : rank < job.nranks) :
    job.pred rank = if rank = 0 then job.nranks - 1 else rank - 1 := by
  unfold pred
  split
  next zero => rw [zero, Nat.zero_add, Nat.mod_eq_of_lt (by omega)]
  · rw [show rank + job.nranks - 1 = rank - 1 + job.nranks by omega, Nat.add_mod_right, Nat.mod_eq_of_lt (by omega)]

theorem pred_lt {rank : Nat} (below : rank < job.nranks) : job.pred rank < job.nranks := by
  rw [pred_eq below]
  split <;> omega

theorem pred_injective {a b : Nat} (left : a < job.nranks) (right : b < job.nranks) (same : job.pred a = job.pred b) :
    a = b := by
  rw [pred_eq left, pred_eq right] at same
  split at same <;> split at same <;> omega

theorem sslice_pred {rank i : Nat} (below : rank < job.nranks) (small : i < job.nranks - 1) :
    job.sslice (job.pred rank) i = job.rslice rank i := by
  rw [← sslice_succ, sslice_eq (pred_lt below) (by omega), sslice_eq below (by omega), pred_eq below]
  split <;> split <;> split <;> omega

theorem sslice_injective {rank j k : Nat} (below : rank < job.nranks) (left : j < job.nranks) (right : k < job.nranks)
    (same : job.sslice rank j = job.sslice rank k) : j = k := by
  rw [sslice_eq below left, sslice_eq below right] at same
  split at same <;> split at same <;> omega

theorem exists_sslice {rank q : Nat} (below : rank < job.nranks) (inside : q < job.nranks) :
    ∃ j ≤ job.nranks - 1, job.sslice rank j = q := by
  by_cases le : q ≤ rank
  · refine ⟨rank - q, by omega, ?_⟩
    rw [sslice_eq below (by omega)]
    split <;> omega
  · refine ⟨rank + job.nranks - q, by omega, ?_⟩
    rw [sslice_eq below (by omega)]
    split <;> omega

end Job

section

variable (job : Job) (rank : Nat) (st : Rank)

def passed : List Token :=
  match st.phase with
  | .size => []
  | .data => job.header st.gather

def incoming : List Token :=
  match st.phase with
  | .size => job.header st.gather
  | .data => job.body st.i (job.contribution st.gather (job.rslice rank st.i))

structure Running (sent heard : List Token) : Prop where
  step : st.i < job.nranks - 1
  phase : job.mode = .net → st.phase = .data
  known : ∀ j ≤ st.i, st.data (job.sslice rank j) = job.contribution st.gather (job.sslice rank j)
  sizes : ∀ q, (st.data q).length = job.size st.gather
  sent : sent = job.ideal rank st.gather st.i ++ passed job st ++ (job.out rank st).take st.sendOffset
  heard : heard = job.ideal (job.pred rank) st.gather st.i ++ passed job st ++ st.inbox
  size : st.phase = .data → job.mode = .socket → st.senderRecvSize = job.size st.gather

def Stands (sent heard : List Token) : Prop :=
  match st.status with
  | .idle g failed => failed = false ∧ sent = job.ideal rank g 0 ∧ heard = job.ideal (job.pred rank) g 0
  | .running => Running job rank st sent heard
  | .stopped => True

def Logged (log : List (Nat × Option Table)) : Prop :=
  ∀ entry ∈ log, (entry.2 = none → job.caller entry.1 = .propagated) ∧
    ∀ table, entry.2 = some table → ∀ q < job.nranks, table q = job.contribution entry.1 q

end

section

variable {job : Job} {rank : Nat} {st : Rank} {sent heard : List Token}

section

variable (h : Running job rank st sent heard)
include h

theorem Running.stands (running : st.status = .running) :
    Stands job rank st sent heard := by
  simp only [Stands, running]
  exact h

theorem Running.socket (phase : st.phase = .size) : job.mode = .socket := by
  cases mode : job.mode with
  | socket => rfl
  | net =>
    rw [h.phase mode] at phase
    cases phase

theorem Running.out_eq :
    passed job st ++ job.out rank st <+: job.frame st.gather st.i (job.sslice rank st.i) := by
  unfold passed Job.out Job.frame
  cases st.phase with
  | size => exact prefix_append _ _
  | data =>
    rw [h.known st.i le_rfl]

theorem Running.incoming_eq (below : rank < job.nranks) :
    passed job st ++ incoming job rank st <+: job.frame st.gather st.i (job.sslice (job.pred rank) st.i) := by
  rw [Job.sslice_pred below h.step]
  unfold passed incoming Job.frame
  cases st.phase with
  | size => exact prefix_append _ _
  | data => exact prefix_rfl

theorem Running.needed_eq : job.needed st = (incoming job rank st).length := by
  cases hp : st.phase with
  | size => simp [Job.needed, incoming, hp, Job.header, h.socket hp, encodeInt]
  | data =>
    cases mode : job.mode with
    | socket => simp [Job.needed, incoming, hp, mode, Job.body, h.size hp mode, job.whole]
    | net => simp [Job.needed, incoming, hp, mode, Job.body]

theorem Running.sent_prefix : sent <+: job.ideal rank (st.gather + 1) 0 := by
  have frame : sent <+: job.ideal rank st.gather (st.i + 1) := by
    rw [h.sent, Job.ideal_step, append_assoc, prefix_append_right_inj]
    exact ((prefix_append_right_inj _).mpr (List.take_prefix _ _)).trans h.out_eq
  exact frame.trans (Job.ideal_prefix h.step (Nat.lt_succ_self _))

theorem Running.inbox_eq (below : rank < job.nranks) {g : Nat}
    (ideal : heard <+: job.ideal (job.pred rank) g 0) (full : st.inbox.length = job.needed st) :
    st.inbox = incoming job rank st := by
  have next : job.ideal (job.pred rank) st.gather st.i ++ (passed job st ++ incoming job rank st) <+:
      job.ideal (job.pred rank) (st.gather + 1 + g) 0 := by
    refine IsPrefix.trans ?_ (Job.ideal_prefix h.step (by omega : st.gather < st.gather + 1 + g))
    rw [Job.ideal_step, prefix_append_right_inj]
    exact h.incoming_eq below
  have read := ideal.trans (Job.ideal_prefix_gather (by omega : g ≤ st.gather + 1 + g))
  rw [h.heard, append_assoc] at read
  rw [h.needed_eq] at full
  have same := (prefix_of_prefix_length_le read next (by simp [full])).eq_of_length (by simp [full])
  exact append_cancel_left (append_cancel_left same)

end

theorem stands_beginStep {i : Nat} (inside : i < job.nranks - 1)
    (known : ∀ j ≤ i, st.data (job.sslice rank j) = job.contribution st.gather (job.sslice rank j))
    (sizes : ∀ q, (st.data q).length = job.size st.gather) (sent_eq : sent = job.ideal rank st.gather i)
    (heard_eq : heard = job.ideal (job.pred rank) st.gather i) :
    Stands job rank (job.beginStep st i) sent heard := by
  have nothing : passed job (job.beginStep st i) = [] := by
    cases mode : job.mode <;> simp [passed, Job.beginStep, Job.header, mode]
  refine ⟨inside, ?_, known, sizes, ?_, ?_, ?_⟩
  · intro mode
    simp [Job.beginStep, mode]
  · rw [nothing, sent_eq]
    simp [Job.beginStep]
  · rw [nothing, heard_eq]
    simp [Job.beginStep]
  · intro hp mode
    simp [Job.beginStep, mode] at hp

theorem stands_finish_some {table : Table} (sent_eq : sent = job.ideal rank st.gather (job.nranks - 1))
    (heard_eq : heard = job.ideal (job.pred rank) st.gather (job.nranks - 1)) :
    Stands job rank (job.finish st (some table)) sent heard := by
  refine ⟨rfl, ?_, ?_⟩
  · rw [sent_eq, Job.ideal_gather]
  · rw [heard_eq, Job.ideal_gather]

theorem logged_finish (h : Logged job st.log) {result : Option Table}
    (failed : result = none → job.caller st.gather = .propagated)
    (filled : ∀ table, result = some table → ∀ q < job.nranks, table q = job.contribution st.gather q) :
    Logged job (job.finish st result).log := by
  exact forall_mem_append.mpr ⟨h, forall_mem_singleton.mpr ⟨failed, filled⟩⟩

theorem beginGather_ok {g : Nat} (below : rank < job.nranks) (logged : Logged job st.log)
    (sent_eq : sent = job.ideal rank g 0) (heard_eq : heard = job.ideal (job.pred rank) g 0) :
    Stands job rank (job.beginGather rank g st) sent heard ∧ Logged job (job.beginGather rank g st).log := by
  simp only [Job.beginGather]
  split
  next hs =>
    refine ⟨stands_beginStep hs ?_ ?_ sent_eq heard_eq, logged⟩
    · intro j zero
      have self : job.sslice rank j = rank := by
        rw [Nat.le_zero.mp zero, Job.sslice, Nat.sub_zero, Nat.add_mod_right, Nat.mod_eq_of_lt below]
      simp [self]
    · intro q
      by_cases own : q = rank
      · simp [own, job.whole]
      · simp [own]
  next hsi =>
    have zero : job.nranks - 1 = 0 := by omega
    refine ⟨stands_finish_some ?_ ?_, logged_finish ?_ (by simp) ?_⟩
    · rw [zero]
      exact sent_eq
    · rw [zero]
      exact heard_eq
    · exact logged
    · intro table hf q hi
      have own : q = rank := by omega
      cases hf
      simp [own]

theorem payload_body (i : Nat) (payload : List UInt8) : (job.body i payload).flatMap Token.payload = payload := by
  cases mode : job.mode with
  | socket =>
    simp only [Job.body, mode, flatMap_map]
    exact flatMap_singleton' payload
  | net => simp [Job.body, mode, Token.payload]

theorem store_eq (h : Running job rank st sent heard) (phase : st.phase = .data)
    (arrived : st.inbox = incoming job rank st) :
    job.store rank st =
      update st.data (job.rslice rank st.i) (job.contribution st.gather (job.rslice rank st.i)) := by
  have payload : st.inbox.flatMap Token.payload = job.contribution st.gather (job.rslice rank st.i) := by
    rw [arrived, incoming, phase]
    exact payload_body _ _
  simp only [Job.store, payload]
  rw [drop_eq_nil_of_le (by rw [h.sizes, job.whole]), append_nil]

theorem nextPhase_ok (h : Running job rank st sent heard) (below : rank < job.nranks) (logged : Logged job st.log)
    (all_sent : st.sendOffset = (job.out rank st).length) (arrived : st.inbox = incoming job rank st)
    (running : st.status = .running) :
    Stands job rank (job.nextPhase rank st) sent heard ∧ Logged job (job.nextPhase rank st).log := by
  have sent_eq := h.sent
  have heard_eq := h.heard
  rw [all_sent, take_length] at sent_eq
  rw [arrived] at heard_eq
  cases hp : st.phase with
  | size =>
    have mode := h.socket hp
    have header : incoming job rank st = (encodeInt (job.size st.gather)).map .byte := by
      rw [incoming, hp]
      simp [Job.header, mode]
    have value : decodeInt (st.inbox.flatMap Token.payload) = job.size st.gather := by
      rw [arrived, header, flatMap_map]
      exact (congrArg decodeInt (flatMap_singleton' _)).trans (decodeInt_encodeInt (job.fits _))
    simp only [Job.nextPhase, hp, value]
    rw [if_neg (by omega)]
    refine ⟨?_, logged⟩
    simp only [passed, hp, Job.out, incoming] at sent_eq heard_eq
    simp only [running]
    refine ⟨h.step, fun _ => rfl, h.known, h.sizes, ?_, ?_, fun _ _ => rfl⟩
    · simpa [passed] using sent_eq
    · simpa [passed] using heard_eq
  | data =>
    have stored := store_eq h hp arrived
    simp only [passed, hp, Job.out, incoming, h.known st.i le_rfl, append_assoc] at sent_eq heard_eq
    have sent_next : sent = job.ideal rank st.gather (st.i + 1) := sent_eq.trans (Job.ideal_step ..).symm
    have heard_next : heard = job.ideal (job.pred rank) st.gather (st.i + 1) := by
      rw [Job.ideal_step, Job.sslice_pred below h.step]
      exact heard_eq
    have known : ∀ j ≤ st.i + 1,
        job.store rank st (job.sslice rank j) = job.contribution st.gather (job.sslice rank j) := by
      intro j le
      rw [stored]
      by_cases last : j = st.i + 1
      · rw [last, Job.sslice_succ, update_self]
      · have step := h.step
        have other : job.sslice rank j ≠ job.rslice rank st.i := by
          exact fun same => last (Job.sslice_injective below (by omega) (by omega) same)
        rw [update_of_ne other]
        exact h.known j (by omega)
    have sizes : ∀ q, (job.store rank st q).length = job.size st.gather := by
      intro q
      rw [stored]
      by_cases here : q = job.rslice rank st.i
      · rw [here, update_self, job.whole]
      · rw [update_of_ne here, h.sizes]
    simp only [Job.nextPhase, hp]
    split
    next more => exact ⟨stands_beginStep more known sizes sent_next heard_next, logged⟩
    rename_i last
    have step := h.step
    have whole : st.i + 1 = job.nranks - 1 := by omega
    rw [whole] at sent_next heard_next known
    refine ⟨stands_finish_some sent_next heard_next, logged_finish ?_ (by simp) ?_⟩
    · exact logged
    · intro table hf q hi
      cases hf
      obtain ⟨j, hs, rfl⟩ := Job.exists_sslice below hi
      exact known j hs

end

def heard (job : Job) (s : Net) (rank : Nat) : List Token := (s.sent (job.pred rank)).take (s.taken (job.pred rank))

structure Inv (job : Job) (s : Net) : Prop where
  streams : ∀ rank < job.nranks, ∃ g, s.sent rank <+: job.ideal rank g 0
  taken : ∀ rank < job.nranks, s.taken rank ≤ (s.sent rank).length
  ranks : ∀ rank < job.nranks,
    Stands job rank (s.ranks rank) (s.sent rank) (heard job s rank) ∧ Logged job (s.ranks rank).log

section

variable {job : Job} {s t : Net} {rank k : Nat} {st : Rank}

theorem initial_inv : Inv job Net.initial :=
  ⟨fun _ _ => ⟨0, nil_prefix⟩, fun _ _ => Nat.zero_le _, fun _ _ => ⟨⟨rfl, rfl, rfl⟩, nofun⟩⟩

theorem Inv.setRank (h : Inv job s)
    (ok : Stands job rank st (s.sent rank) (heard job s rank) ∧ Logged job st.log) : Inv job (s.setRank rank st) := by
  refine { h with ranks := fun other hb => ?_ }
  change Stands job other (update s.ranks rank st other) (s.sent other) (heard job s other) ∧
    Logged job (update s.ranks rank st other).log
  grind [h.ranks other hb]

theorem Inv.send (h : Inv job s) (below : rank < job.nranks) (running : (s.ranks rank).status = .running) :
    Inv job { s.setRank rank { s.ranks rank with sendOffset := (s.ranks rank).sendOffset + k } with
      sent := update s.sent rank
        (s.sent rank ++ ((job.out rank (s.ranks rank)).drop (s.ranks rank).sendOffset).take k) } := by
  obtain ⟨stands, logged⟩ := h.ranks rank below
  simp only [Stands, running] at stands
  have next : Running job rank { s.ranks rank with sendOffset := (s.ranks rank).sendOffset + k }
      (s.sent rank ++ ((job.out rank (s.ranks rank)).drop (s.ranks rank).sendOffset).take k) (heard job s rank) := by
    refine { stands with sent := ?_ }
    show _ = job.ideal rank _ _ ++ passed job (s.ranks rank) ++ (job.out rank (s.ranks rank)).take _
    rw [take_add, ← append_assoc, ← stands.sent]
  have stands' := next.stands running
  have stream : ∃ g, _ <+: job.ideal rank g 0 := ⟨_, next.sent_prefix⟩
  generalize ((job.out rank (s.ranks rank)).drop (s.ranks rank).sendOffset).take k = new at stands' stream
  have logged' : Logged job { s.ranks rank with sendOffset := (s.ranks rank).sendOffset + k }.log := logged
  generalize { s.ranks rank with sendOffset := (s.ranks rank).sendOffset + k } = st at stands' logged'
  -- What the next rank has read is behind the end of what is written now.
  have unread : ∀ other, other < job.nranks → (update s.sent rank (s.sent rank ++ new) (job.pred other)).take
      (s.taken (job.pred other)) = heard job s other := by
    intro other hb'
    unfold heard
    by_cases same : job.pred other = rank
    · have enough := h.taken _ (Job.pred_lt hb')
      rw [same] at enough ⊢
      rw [update_self, take_append_of_le_length enough]
    · rw [update_of_ne same]
  obtain ⟨_, taken, ranks⟩ := h
  refine ⟨?_, ?_, ?_⟩
  · grind [update_apply]
  · simp only [Net.setRank]
    grind [update_apply]
  · intro other hb'
    simp only [heard, Net.setRank]
    grind [update_apply]

theorem Inv.recv (h : Inv job s) (below : rank < job.nranks) (running : (s.ranks rank).status = .running)
    (there : s.taken (job.pred rank) + k ≤ (s.sent (job.pred rank)).length) :
    Inv job { s.setRank rank { s.ranks rank with
        inbox := (s.ranks rank).inbox ++ ((s.sent (job.pred rank)).drop (s.taken (job.pred rank))).take k } with
      taken := update s.taken (job.pred rank) (s.taken (job.pred rank) + k) } := by
  obtain ⟨stands, logged⟩ := h.ranks rank below
  simp only [Stands, running] at stands
  refine { h with taken := ?_, ranks := fun other hb' => ?_ }
  · intro other hb'
    simp only [update_apply]
    split
    next same => rwa [same]
    · exact h.taken other hb'
  · by_cases same : other = rank
    · subst same
      simp only [heard, Net.setRank, update_self, running]
      refine ⟨{ stands with heard := ?_ }, logged⟩
      show _ = job.ideal (job.pred other) _ _ ++ passed job (s.ranks other) ++ _
      rw [take_add, ← append_assoc, ← stands.heard]
      rfl
    · have elsewhere : job.pred other ≠ job.pred rank := fun he => same (Job.pred_injective hb' below he)
      simp only [heard, Net.setRank, update_of_ne same, update_of_ne elsewhere]
      exact h.ranks other hb'

/-- No exchange fails in an all-gather whose error the caller does not return. -/
def Reported (job : Job) (s : Net) : Action → Prop
  | .fail rank => job.caller (s.ranks rank).gather = .propagated
  | _ => True

instance (job : Job) (s : Net) (a : Action) : Decidable (Reported job s a) := by
  cases a <;> unfold Reported <;> infer_instance

theorem step_inv {a : Action} (h : Inv job s) (reported : Reported job s a) (taken : step job s a = some t) :
    Inv job t := by
  simp only [step] at taken
  split at taken
  · cases taken
  rename_i hi
  have below : a.rank < job.nranks := Nat.lt_of_not_le hi
  obtain ⟨stands, logged⟩ := h.ranks a.rank below
  split at taken
  next idle =>
    cases taken
    simp only [Stands, idle] at stands
    exact h.setRank (beginGather_ok below logged stands.2.1 stands.2.2)
  next idle =>
    simp only [Stands, idle] at stands
    cases stands.1
  next running =>
    split at taken
    · cases taken
      exact h.send below running
    · cases taken
  next running =>
    split at taken
    next ht =>
      cases taken
      exact h.recv below running ht.2
    · cases taken
  next running =>
    split at taken
    next hc =>
      cases taken
      simp only [Stands, running] at stands
      obtain ⟨g, ideal⟩ := h.streams _ (Job.pred_lt below)
      have arrived := stands.inbox_eq below ((List.take_prefix _ _).trans ideal) hc.2
      exact h.setRank (nextPhase_ok stands below logged hc.1 arrived running)
    · cases taken
  next failing running =>
    cases taken
    have caller : job.caller (s.ranks failing).gather = .propagated := reported
    refine h.setRank ⟨?_, logged_finish logged (fun _ => caller) (by simp)⟩
    simp [Stands, Job.finish, Action.rank, caller]
  · cases taken

end

def Fits (w : Widths) (t : Tables) : Prop := ∀ f entries, t f = some entries → ∀ rank, (entries rank).length = w.width f

theorem length_entry {w : Widths} {t : Tables} (fits : Fits w t) (rank : Nat) (f : Field) :
    (entry w t rank f).length = w.width f := by
  unfold entry
  split
  next entries table => exact fits f entries table rank
  · exact length_replicate

theorem slice_pack {w : Widths} {t : Tables} (fits : Fits w t) (rank : Nat) (f : Field) :
    ((pack w t rank).drop (w.offset f)).take (w.width f) = entry w t rank f := by
  have one := length_entry fits rank .peerAddress
  have two := length_entry fits rank .peerProxy
  have three := length_entry fits rank .peerUDS
  have four := length_entry fits rank .rasRank
  simp only [Widths.width] at one two three four
  unfold pack
  cases f with
  | peerAddress => simp only [Widths.offset, Widths.width, drop_zero, append_assoc, take_left' one]
  | peerProxy => simp only [Widths.offset, Widths.width, append_assoc, drop_left' one, take_left' two]
  | peerUDS =>
    have before : (entry w t rank .peerAddress ++ entry w t rank .peerProxy).length = w.address + w.address := by
      rw [length_append, one, two]
    rw [Widths.offset, Widths.width, append_assoc, drop_left' before, take_left' three]
  | rasRank =>
    have before : (entry w t rank .peerAddress ++ entry w t rank .peerProxy ++ entry w t rank .peerUDS).length =
        w.address + w.address + 8 := by
      rw [length_append, length_append, one, two, three]
    rw [Widths.offset, Widths.width, drop_left' before, take_of_length_le (by omega)]

/-- If no exchange fails in an all-gather whose error is not returned, every all-gather that returns success has filled
its table, and so has `ringAllInfo`, which always returns success. -/
theorem filled_of_reported (job : Job) (w : Widths) (tables : Nat → Tables) (fits : ∀ rank, Fits w (tables rank))
    (first : ∀ rank, job.contribution 0 rank = pack w (tables rank) rank) {actions : List Action} {s : Net}
    (reported : Meets (step job) (Reported job) Net.initial actions)
    (ran : run (step job) Net.initial actions = some s) {rank : Nat} (below : rank < job.nranks) :
    (∀ g table, (g, some table) ∈ (s.ranks rank).log → ∀ q < job.nranks, table q = job.contribution g q) ∧
    ∀ gathered, (0, gathered) ∈ (s.ranks rank).log → ∀ q < job.nranks, ∀ f entries,
      (ringAllInfo w (tables rank) gathered).1 f = some entries → entries q = entry w (tables q) q f := by
  have h := run_invariant (Inv job) (fun _ _ _ => step_inv) actions initial_inv reported ran
  have logged := (h.ranks rank below).2
  refine ⟨fun g table mem => (logged _ mem).2 table rfl, ?_⟩
  intro gathered mem q hi f entries unpacked
  obtain ⟨hf, filled⟩ := logged _ mem
  cases gathered with
  | none =>
    have propagated := hf rfl
    simp [Job.caller] at propagated
  | some ringData =>
    simp only [ringAllInfo, unpack, Option.map_eq_some_iff] at unpacked
    obtain ⟨-, -, rfl⟩ := unpacked
    show ((ringData q).drop (w.offset f)).take (w.width f) = _
    rw [filled ringData rfl q hi, first]
    exact slice_pack (fits q) q f

/-! Two ranks that exchange one table of addresses and then one more value. -/

def oneByte : Widths := ⟨1, 1⟩

def ownAddress (rank : Nat) : Tables
  | .peerAddress => some fun q => if q = rank then [UInt8.ofNat (rank + 1)] else [0]
  | _ => none

theorem fits_ownAddress (rank : Nat) : Fits oneByte (ownAddress rank) := by
  intro f entries ht q
  cases f <;> cases ht
  dsimp only
  split <;> rfl

def twoRanks : Job where
  nranks := 2
  mode := .socket
  size _ := 11
  contribution g rank := if g = 0 then pack oneByte (ownAddress rank) rank else replicate 11 (UInt8.ofNat (100 + rank))
  ignored _ := false
  some_rank := Nat.two_pos
  fits _ := by decide
  whole g rank := by
    split
    · simp [pack, entry, ownAddress, oneByte, Widths.width]
    · exact length_replicate

def bothSucceed : List Action :=
  [.call 0, .call 1, .send 0 4, .send 1 2, .send 1 2, .recv 0 4, .next 0, .recv 1 3, .recv 1 1, .next 1, .send 0 11,
    .send 1 11, .recv 1 11, .recv 0 11, .next 0, .next 1]

theorem two_ranks_filled :
    ∃ s table, run (step twoRanks) Net.initial bothSucceed = some s ∧ (0, some table) ∈ (s.ranks 0).log ∧
      ∀ q < 2, table q = twoRanks.contribution 0 q := by
  obtain ⟨s, ran, ⟨_, _⟩, mem, rfl, hd⟩ := run_reaches (step twoRanks) Net.initial bothSucceed
    (fun s => ∃ x ∈ (s.ranks 0).log, x.1 = 0 ∧ x.2.isSome) (by decide)
  obtain ⟨table, rfl⟩ := Option.isSome_iff_exists.mp hd
  have filled := filled_of_reported twoRanks oneByte ownAddress fits_ownAddress (fun _ => rfl)
    (by decide : Meets (step twoRanks) (Reported twoRanks) Net.initial bothSucceed) ran
    (by decide : 0 < twoRanks.nranks)
  exact ⟨s, table, ran, mem, filled.1 0 table mem⟩

/-- Rank 0 fails in the first exchange, goes on with the next all-gather, and rank 1 takes what it sends there for what
it waits for. -/
def oneGoesOn : List Action :=
  [.call 0, .fail 0, .call 1, .send 1 4, .call 0, .send 0 4, .recv 0 4, .next 0, .send 0 11, .recv 1 4, .next 1,
    .send 1 11, .recv 1 11, .next 1]

/-- Both ranks report success, and neither has the address of the other. -/
theorem swallowed_error_leaves_tables_wrong :
    ∃ s table, run (step twoRanks) Net.initial oneGoesOn = some s ∧
      (0, none) ∈ (s.ranks 0).log ∧ (ringAllInfo oneByte (ownAddress 0) none).2 = true ∧
      ((ringAllInfo oneByte (ownAddress 0) none).1 .peerAddress).map (· 1) = some [0] ∧
      entry oneByte (ownAddress 1) 1 .peerAddress = [2] ∧
      (0, some table) ∈ (s.ranks 1).log ∧ table 0 ≠ twoRanks.contribution 0 0 := by
  obtain ⟨s, ran, ⟨⟨_, _⟩, hf, rfl, undefined⟩, ⟨_, _⟩, mem, rfl, hw⟩ :=
    run_reaches (step twoRanks) Net.initial oneGoesOn (fun s => (∃ x ∈ (s.ranks 0).log, x.1 = 0 ∧ x.2.isNone) ∧
      ∃ x ∈ (s.ranks 1).log, x.1 = 0 ∧ x.2.any (· 0 ≠ twoRanks.contribution 0 0)) (by decide)
  obtain rfl := Option.isNone_iff_eq_none.mp undefined
  obtain ⟨table, rfl, hw⟩ := (Option.any_eq_true _ _).mp hw
  exact ⟨s, table, ran, hf, rfl, rfl, rfl, mem, of_decide_eq_true hw⟩

end Vccl.Bootstrap.Ring
