import Vccl.Psm.NetCopy

/-! Pairs over `psm_net` end: every change brings them nearer to the end, and until both ops are
finished there is one to make. -/
namespace Vccl.Psm.NetPair

open Function Transition
open P2p (Comm Transfer Direction planDirection ncclMaxNetSize)

def unmarked (marks : Nat → Bool) : Nat → Nat
  | 0 => 0
  | n + 1 => unmarked marks n + if marks n then 0 else 1

theorem unmarked_congr {marks marks' : Nat → Bool} {n : Nat} (same : ∀ k < n, marks' k = marks k) :
    unmarked marks' n = unmarked marks n := by
  induction n with
  | zero => rfl
  | succ n ih =>
    rw [unmarked, unmarked, ih fun k hb => same k (by omega), same n (by omega)]

theorem unmarked_update {marks : Nat → Bool} {n k : Nat} (below : k < n) (fresh : marks k = false) :
    unmarked (update marks k true) n < unmarked marks n := by
  induction n with
  | zero => omega
  | succ n ih =>
    simp only [unmarked]
    by_cases last : k = n
    · subst last
      have before : unmarked (update marks k true) k = unmarked marks k := by
        apply unmarked_congr
        intro j earlier
        exact update_of_ne (by omega) _ _
      simp only [update_self, fresh, if_true, Bool.false_eq_true, if_false]
      omega
    · rw [update_of_ne (Ne.symm last)]
      omega

variable {β : Type} {cfg : Config} {src dst : Nat → β} {s s' : State β}

def toDo (cfg : Config) (s : State β) : Nat :=
  (cfg.nsteps cfg.send - s.send.posted) + (cfg.nsteps cfg.send - s.send.transmitted) +
    (cfg.nsteps cfg.send - s.send.done) + unmarked s.send.copied (cfg.nsteps cfg.send) +
    unmarked s.delivered (cfg.nsteps cfg.send) +
    ((cfg.rounds - s.recv.posted) + (cfg.rounds - s.recv.received) + (cfg.rounds - s.recv.transmitted) +
    (cfg.nsteps cfg.recv - s.recv.done) + unmarked s.recv.copied (cfg.nsteps cfg.recv))

theorem post_lowers (can : s.send.canPost cfg = true) (next : post cfg s = some s') : toDo cfg s' < toDo cfg s := by
  simp only [Sender.canPost, decide_eq_true_eq] at can
  obtain ⟨-, ⟨⟩⟩ := Option.ite_none_left_eq_some.mp next
  simp only [toDo]
  omega

theorem isend_lowers {size : Nat} (h : Inv cfg src dst s) (can : s.send.canSend = true) :
    toDo cfg (isend size s) < toDo cfg s := by
  have posted := h.send.posted
  simp only [Sender.canSend, decide_eq_true_eq] at can
  simp only [toDo, isend]
  omega

theorem test_lowers (h : Inv cfg src dst s) (can : s.send.done < s.send.transmitted) :
    toDo cfg (test cfg s) < toDo cfg s := by
  have posted := h.send.posted
  have order := h.send.order
  simp only [toDo, test]
  omega

theorem trySendTest_lowers (h : Inv cfg src dst s) :
    trySendTest cfg s = s ∨ toDo cfg (trySendTest cfg s) < toDo cfg s := by
  unfold trySendTest
  split
  next can =>
    exact .inr (test_lowers h can.1)
  · exact .inl rfl

variable {accepted : Bool}

theorem sendTurn_lowers (h : Inv cfg src dst s) (next : sendTurn cfg accepted s = some s') :
    s' = s ∨ toDo cfg s' < toDo cfg s := by
  unfold sendTurn at next
  split at next
  · cases next
    exact .inl rfl
  split at next
  next can =>
    exact .inr (post_lowers can next)
  split at next
  next can =>
    split at next
    · contradiction
    · split at next
      · cases next
        exact .inr (isend_lowers h can)
      · cases next
        exact trySendTest_lowers h
  · cases next
    exact trySendTest_lowers h

theorem recvPost_lowers (next : recvPost cfg accepted s = .moved s') : toDo cfg s' < toDo cfg s := by
  obtain ⟨_, -, rfl⟩ := recvPost_moved next
  simp only [toDo]
  omega

theorem recvTest_lowers (h : Inv cfg src dst s) (next : recvTest cfg s = .moved s') :
    toDo cfg s' < toDo cfg s := by
  have order := h.recv.order
  obtain ⟨_, ⟨⟩⟩ := Outcome.ite_moved.mp next
  simp only [toDo]
  omega

theorem recvTransmit_lowers {flushed : Bool} (h : Inv cfg src dst s)
    (next : recvTransmit cfg flushed s = .moved s') : toDo cfg s' < toDo cfg s := by
  have order := h.recv.order
  obtain ⟨_, rfl⟩ := recvTransmit_moved next
  simp only [toDo]
  omega

theorem recvDone_lowers (h : Inv cfg src dst s) (next : recvDone cfg s = .moved s') :
    toDo cfg s' < toDo cfg s := by
  have done := h.recv.done
  obtain ⟨_, ⟨⟩⟩ := Outcome.ite_moved.mp next
  simp only [toDo]
  omega

variable {k : Nat}

theorem sendCopy_lowers (h : Inv cfg src dst s) (next : sendCopy cfg src k s = some s') :
    toDo cfg s' < toDo cfg s := by
  have posted := h.send.posted
  obtain ⟨can, ⟨⟩⟩ := Option.ite_none_right_eq_some.mp next
  have fewer := unmarked_update (show k < cfg.nsteps cfg.send by omega) can.2.2
  simp only [toDo]
  omega

theorem recvCopy_lowers (next : recvCopy cfg k s = some s') : toDo cfg s' < toDo cfg s := by
  obtain ⟨can, ⟨⟩⟩ := Option.ite_none_right_eq_some.mp next
  have fewer := unmarked_update can.2.2.1 can.2.2.2
  simp only [toDo]
  omega

theorem deliver_lowers (h : Inv cfg src dst s) (next : deliver cfg src k s = some s') :
    toDo cfg s' < toDo cfg s := by
  have posted := h.send.posted
  have order := h.send.order
  simp only [deliver] at next
  split at next
  next sent _ hf _ =>
    split at next
    · contradiction
    rename_i hfr
    cases next
    rw [Bool.not_eq_true] at hfr
    rw [h.send.sends] at hf
    have wasSent := (getElem?_map_range hf).1
    have fewer := unmarked_update (show k < cfg.nsteps cfg.send by omega) hfr
    cases hr : cfg.recv.reg with
    | true =>
      simp only [toDo, if_true]
      omega
    | false =>
      simp only [toDo, Bool.false_eq_true, if_false]
      omega
  · contradiction

theorem step_lowers {a : Action} (h : Inv cfg src dst s) (next : step cfg src s a = some s') :
    s' = s ∨ toDo cfg s' < toDo cfg s := by
  cases a with
  | sendPass accepted =>
    obtain ⟨-, next⟩ := Option.ite_none_right_eq_some.mp next
    exact sendTurn_lowers h next
  | recvPass answers =>
    obtain ⟨-, next⟩ := Option.ite_none_right_eq_some.mp next
    rcases recvPass_some next with same | post | test | ht | done
    · exact .inl same
    · exact .inr (recvPost_lowers post)
    · exact .inr (recvTest_lowers h test)
    · exact .inr (recvTransmit_lowers h ht)
    · exact .inr (recvDone_lowers h done)
  | sendCopy k => exact .inr (sendCopy_lowers h next)
  | recvCopy k => exact .inr (recvCopy_lowers next)
  | deliver k => exact .inr (deliver_lowers h next)

def willing : Answers := ⟨true, true, false, false, false⟩

theorem recvPost_no_error (suited : Suited cfg) (accepted : Bool) : recvPost cfg accepted s ≠ .error := by
  have staged := staged_of_regular suited.recv s.recv.posted
  simp only [recvPost, staged, Bool.true_eq_false, if_false]
  repeat' split
  all_goals simp

theorem recvTransmit_no_error (h : Inv cfg src dst s) (flushed : Bool) : recvTransmit cfg flushed s ≠ .error := by
  have order := h.recv.order
  have depth := depth_le cfg.recv
  simp only [recvTransmit]
  split
  next can =>
    split
    next more =>
      have window := h.recv.window s.recv.transmitted more (by omega)
      have fifo := h.recv.fifo
      rw [show min s.recv.transmitted (cfg.nsteps cfg.recv) = s.recv.transmitted by omega] at fifo
      have free := fifo.free (by omega)
      simp [free]
    · simp
  · simp

theorem Outcome.moves {outcome : Outcome (State β)} {rest : Option (State β)} (sound : outcome ≠ .error)
    (lowers : ∀ t, outcome = .moved t → toDo cfg t < toDo cfg s)
    (later : outcome = .idle → ∃ t, rest = some t ∧ toDo cfg t < toDo cfg s) :
    ∃ t, outcome.andThen false s rest = some t ∧ toDo cfg t < toDo cfg s := by
  cases outcome with
  | error => exact absurd rfl sound
  | moved t => exact ⟨t, rfl, lowers t rfl⟩
  | idle => exact later rfl

theorem receiver_moves (suited : Suited cfg) (h : Inv cfg src dst s) (open_op : s.recv.done ≠ cfg.nsteps cfg.recv)
    (arrived : ∀ k < cfg.nsteps cfg.recv, k < s.recv.posted → s.delivered k = true) :
    ∃ a t, step cfg src s a = some t ∧ toDo cfg t < toDo cfg s := by
  have order := h.recv.order
  have done := h.recv.done
  by_cases hw : recvPost cfg true s = .idle ∧ recvTest cfg s = .idle ∧ recvTransmit cfg true s = .idle ∧
    recvDone cfg s = .idle
  · -- all phases wait: only the copy of the oldest step is missing
    obtain ⟨post, test, ht, last⟩ := hw
    have tested : s.recv.received = s.recv.posted := by
      by_contra behind
      have ready : s.recv.received < s.recv.posted := by omega
      simp only [recvTest] at test
      rw [if_pos ⟨ready, fun hb => arrived _ hb ready⟩] at test
      contradiction
    have flushed : s.recv.transmitted = s.recv.received := by
      by_contra behind
      have ready : s.recv.transmitted < s.recv.received := by omega
      simp only [recvTransmit] at ht
      rw [if_pos ⟨ready, trivial⟩] at ht
      split at ht
      · split at ht <;> contradiction
      · contradiction
    have ahead : s.recv.done < s.recv.transmitted := by
      have depth := depth_pos cfg.recv
      have all : cfg.nsteps cfg.recv ≤ cfg.rounds := Nat.le_max_left _ _
      by_contra none_left
      have room : s.recv.posted < cfg.rounds := by omega
      simp only [recvPost] at post
      rw [if_pos ⟨room, trivial⟩, if_pos (by omega), if_neg (by omega)] at post
      split at post <;> contradiction
    have waiting : cfg.recv.reg = false ∧ s.recv.copied s.recv.done = false := by
      simp only [recvDone] at last
      by_contra hc
      rw [if_pos ⟨open_op, ahead, by
        cases hr : cfg.recv.reg <;> cases made : s.recv.copied s.recv.done <;>
          simp_all⟩] at last
      contradiction
    obtain ⟨t, hc⟩ : ∃ t, recvCopy cfg s.recv.done s = some t := by
      simp only [recvCopy]
      rw [if_pos ⟨waiting.1, ahead, by omega, waiting.2⟩]
      exact ⟨_, rfl⟩
    exact ⟨.recvCopy s.recv.done, t, hc, recvCopy_lowers hc⟩
  · have unfailing {c : Prop} [Decidable c] {t : State β} : (if c then Outcome.moved t else .idle) ≠ .error := by
      split <;> simp
    obtain ⟨t, next, less⟩ : ∃ t, recvPass cfg willing s = some t ∧ toDo cfg t < toDo cfg s :=
      Outcome.moves (recvPost_no_error suited true) (fun _ => recvPost_lowers) fun post =>
      Outcome.moves unfailing (fun _ => recvTest_lowers h) fun test =>
      Outcome.moves (recvTransmit_no_error h true) (fun _ => recvTransmit_lowers h) fun ht =>
      Outcome.moves unfailing (fun _ => recvDone_lowers h) fun last => absurd ⟨post, test, ht, last⟩ hw
    exact ⟨.recvPass willing, t, (if_pos suited.recv.simple).trans next, less⟩

theorem sender_moves (suited : Suited cfg) (h : Inv cfg src dst s) (open_op : s.send.done ≠ cfg.nsteps cfg.send) :
    (∃ a t, step cfg src s a = some t ∧ toDo cfg t < toDo cfg s) ∨ s.recv.posted ≤ s.send.done := by
  have order := h.send.order
  have posted := h.send.posted
  have depth := depth_le cfg.send
  have some_depth := depth_pos cfg.send
  have pass (t : State β) (moved : sendTurn cfg true s = some t) : step cfg src s (.sendPass true) = some t :=
    (if_pos suited.send.simple).trans moved
  cases can : s.send.canPost cfg with
  | true =>
    have room := of_decide_eq_true can
    obtain ⟨t, next⟩ : ∃ t, post cfg s = some t := by
      have free := h.send.fifo.free (by omega)
      have staged := staged_of_regular suited.send s.send.posted
      simp only [post, free, staged]
      exact ⟨_, rfl⟩
    refine .inl ⟨_, t, pass t ?_, post_lowers can next⟩
    rw [sendTurn, if_neg open_op, if_pos can, next]
  | false =>
    have full := of_decide_eq_false can
    by_cases hb : s.send.transmitted < s.send.posted
    · have go : s.send.canSend = true := decide_eq_true ⟨hb, by omega⟩
      have found := h.send.fifo.inside s.send.transmitted order.1 hb
      by_cases hr : cfg.send.reg = true ∨ s.send.copied s.send.transmitted = true
      · refine .inl ⟨_, _, pass (isend (cfg.size cfg.send s.send.transmitted) s) ?_, isend_lowers h go⟩
        rw [sendTurn, if_neg open_op, if_neg (by simp [can]), if_pos go, found]
        simp [if_pos hr]
      obtain ⟨t, copied⟩ : ∃ t, sendCopy cfg src s.send.transmitted s = some t := by
        rw [not_or, Bool.not_eq_true, Bool.not_eq_true] at hr
        simp only [sendCopy]
        rw [if_pos ⟨hr.1, hb, hr.2⟩]
        exact ⟨_, rfl⟩
      exact .inl ⟨.sendCopy s.send.transmitted, t, copied, sendCopy_lowers h copied⟩
    · have stop : s.send.canSend = false := decide_eq_false (by omega)
      have ahead : s.send.done < s.send.transmitted := by omega
      cases ht : s.delivered s.send.done with
      | true =>
        refine .inl ⟨_, _, pass (test cfg s) ?_, test_lowers h ahead⟩
        rw [sendTurn, if_neg open_op, if_neg (by simp [can]), if_neg (by simp [stop]), trySendTest,
          if_pos ⟨ahead, ht⟩]
      | false =>
        by_cases hw : s.recv.posted ≤ s.send.done
        · exact .inr hw
        have same := (same_pieces suited).steps
        obtain ⟨t, next⟩ : ∃ t, deliver cfg src s.send.done s = some t := by
          have sent : s.sends[s.send.done]? = some (cfg.size cfg.send s.send.done) := by
            rw [h.send.sends, List.getElem?_map, List.getElem?_range ahead, Option.map_some]
          have received : s.recvs[s.send.done]? = some (cfg.size cfg.recv s.send.done) := by
            rw [h.recv.recvs, List.getElem?_map, List.getElem?_range (by omega), Option.map_some]
          simp only [deliver, sent, received, ht]
          exact ⟨_, rfl⟩
        exact .inl ⟨.deliver s.send.done, t, next, deliver_lowers h next⟩

theorem pair_moves (suited : Suited cfg) (h : Inv cfg src dst s)
    (open_pair : ¬ (s.send.finished = true ∧ s.recv.finished = true)) :
    ∃ a t, step cfg src s a = some t ∧ toDo cfg t < toDo cfg s := by
  have same := (same_pieces suited).steps
  have order := h.send.order
  have posted := h.send.posted
  have recvOrder := h.recv.order
  by_cases sent : s.send.done = cfg.nsteps cfg.send
  · have unreceived : s.recv.done ≠ cfg.nsteps cfg.recv := by
      intro hr
      exact open_pair ⟨h.send.finished.mpr sent, h.recv.finished.mpr hr⟩
    apply receiver_moves suited h unreceived
    intro k hb _
    exact h.send.tested k (by omega)
  · rcases sender_moves suited h sent with hm | _
    · exact hm
    · apply receiver_moves suited h (by omega)
      intro k _ before
      exact h.send.tested k (by omega)

/-- The bytes are there when the receiver's op is finished, and nothing behind them has changed. -/
def Copied (cfg : Config) (src dst : Nat → β) (s : State β) : Prop :=
  (s.recv.finished = true → ∀ o < cfg.nbytes cfg.recv, s.recv.dst o = src o) ∧
    ∀ o, cfg.nbytes cfg.recv ≤ o → s.recv.dst o = dst o

theorem Inv.bytes (suited : Suited cfg) (h : Inv cfg src dst s) : Copied cfg src dst s := by
  have counted := nsteps_eq suited.recv cfg.recvPart (same_nbytes suited ▸ suited.nonempty)
  have order := h.recv.order
  refine ⟨?_, h.recv.rest⟩
  intro hf o hi
  have done := h.recv.finished.mp hf
  obtain ⟨k, hb, i, hs, rfl⟩ := covered counted hi
  apply h.recv.out k _ i hs
  cases hr : cfg.recv.reg with
  | true => exact h.recv.received k hb (by omega)
  | false =>
    rcases h.recv.ready k (by omega) with hw | hc
    · simp [hr] at hw
    · exact hc

/-- A suited pair is cut alike at both ends, its bytes are copied as they are, it can always be
finished, and in every fair run both ops finish. -/
theorem suited_pair_copied (cfg : Config) (suited : Suited cfg) :
    cfg.pieces cfg.send = cfg.pieces cfg.recv ∧
    ∀ (β : Type) (src dst : Nat → β) (sendBuff recvBuff : Nat → Nat → β),
      (∀ s, Reachable (step cfg src) (initial sendBuff recvBuff dst) s → Copied cfg src dst s ∧
        ∃ t, Reachable (step cfg src) s t ∧ t.send.finished = true ∧ t.recv.finished = true) ∧
      ∀ (states : Nat → State β) (actions : Nat → Action), FairRun (step cfg src) states actions →
        states 0 = initial sendBuff recvBuff dst →
          ∃ n, (states n).send.finished = true ∧ (states n).recv.finished = true ∧
            ∀ o < cfg.nbytes cfg.recv, (states n).recv.dst o = src o := by
  refine ⟨(same_pieces suited).pieces, ?_⟩
  intro β src dst sendBuff recvBuff
  have start : Inv cfg src dst (initial sendBuff recvBuff dst) := inv_initial suited sendBuff recvBuff
  constructor
  · intro s reached
    have h := reachable_invariant (Inv cfg src dst) start (fun _ _ _ => step_inv suited) reached
    refine ⟨h.bytes suited, ?_⟩
    obtain ⟨t, later, -, finished⟩ := reaches_goal (Inv cfg src dst)
      (fun s => s.send.finished = true ∧ s.recv.finished = true) (toDo cfg)
      (by
        intro s h open_pair
        obtain ⟨a, t, next, less⟩ := pair_moves suited h open_pair
        exact ⟨a, t, next, step_inv suited h next, less⟩) h
    exact ⟨t, later, finished⟩
  · intro states actions fair first
    have holds := fair.keeps (Inv cfg src dst) (first ▸ start) (fun _ _ _ => step_inv suited)
    obtain ⟨n, -, sent, received⟩ := fair.reaches (Inv cfg src dst)
      (fun s => s.send.finished = true ∧ s.recv.finished = true) (toDo cfg) holds
      (fun _ _ _ => step_lowers)
      (by
        intro s h open_pair
        obtain ⟨a, t, next, less⟩ := pair_moves suited h open_pair
        refine ⟨a, t, next, ?_⟩
        rintro rfl
        exact absurd less (lt_irrefl _)) 0
    exact ⟨n, sent, received, ((holds n).bytes suited).1 received⟩

/-- A sub without steps is never added to `args->done`. -/
structure Idle (s : State β) : Prop where
  sendDone : s.send.done = 0
  sendOpen : s.send.finished = false
  recvDone : s.recv.done = 0
  recvOpen : s.recv.finished = false

theorem step_idle {a : Action} (noSend : cfg.nsteps cfg.send = 0) (noRecv : cfg.nsteps cfg.recv = 0) (h : Idle s)
    (next : step cfg src s a = some s') : Idle s' := by
  cases a with
  | sendPass accepted =>
    obtain ⟨-, next⟩ := Option.ite_none_right_eq_some.mp next
    rw [sendTurn, if_pos (h.sendDone.trans noSend.symm)] at next
    cases next
    exact h
  | recvPass answers =>
    obtain ⟨-, next⟩ := Option.ite_none_right_eq_some.mp next
    rcases recvPass_some next with rfl | post | test | ht | done
    · exact h
    · obtain ⟨-, -, rfl⟩ := recvPost_moved post
      exact { h with }
    · obtain ⟨-, ⟨⟩⟩ := Outcome.ite_moved.mp test
      exact { h with }
    · obtain ⟨-, rfl⟩ := recvTransmit_moved ht
      exact { h with }
    · obtain ⟨can, -⟩ := Outcome.ite_moved.mp done
      exact absurd (h.recvDone.trans noRecv.symm) can.1
  | sendCopy k =>
    obtain ⟨-, ⟨⟩⟩ := Option.ite_none_right_eq_some.mp next
    exact { h with }
  | recvCopy k =>
    obtain ⟨-, ⟨⟩⟩ := Option.ite_none_right_eq_some.mp next
    exact { h with }
  | deliver k =>
    simp only [step, deliver] at next
    split at next
    · split at next
      · contradiction
      · cases next
        cases cfg.recv.reg <;> exact { h with }
    · contradiction

def oneChannel : Comm := P2p.singleChannel

def transferOf (bytes : Nat) (regFlag : Bool) : Transfer := ⟨bytes, true, false, true, false, regFlag, by omega⟩

def directionOf (bytes code : Nat) (netRegistered : Bool) : Direction :=
  ⟨.simple, bytes, code, netRegistered, false, 1⟩

def endOf (direction : Direction) : End := ⟨direction, true, 1, 0, 0, 0, Nat.one_pos, by decide⟩

def mixedPair : Config where
  comm := oneChannel
  sendTransfer := transferOf (2 ^ 20) true
  recvTransfer := transferOf (2 ^ 20) false
  send := endOf (directionOf (2 ^ 20) 120 true)
  recv := endOf (directionOf (2 ^ 20) 120 false)
  plannedSend := by decide +kernel
  plannedRecv := by decide +kernel
  sameBytes := rfl
  part := 0
  sendPart := by decide
  recvPart := by decide
  chunk := 2 ^ 22
  someChunk := by decide
  chunkFits := by decide
  others := 0

def stagedPair : Config where
  __ := mixedPair
  sendTransfer := transferOf (2 ^ 20) false
  send := endOf (directionOf (2 ^ 20) 120 false)
  plannedSend := by decide +kernel
  sendPart := by decide
  sameBytes := rfl

def emptyPair : Config where
  __ := mixedPair
  sendTransfer := transferOf 0 false
  recvTransfer := transferOf 0 false
  send := endOf (directionOf 0 104 false)
  recv := endOf (directionOf 0 104 false)
  plannedSend := by decide +kernel
  plannedRecv := by decide +kernel
  sameBytes := rfl
  sendPart := by decide
  recvPart := by decide

/-- With one buffer registered the sender makes two messages and the receiver waits for one; a pair
without bytes never finishes. -/
theorem pairs_not_copied :
    (mixedPair.pieces mixedPair.send = [(0, 2 ^ 19), (2 ^ 19, 2 ^ 19)] ∧
      mixedPair.pieces mixedPair.recv = [(0, 2 ^ 20)]) ∧
    ∀ (β : Type) (src dst : Nat → β) (sendBuff recvBuff : Nat → Nat → β) (s : State β),
      Reachable (step emptyPair src) (initial sendBuff recvBuff dst) s →
        s.send.finished = false ∧ s.recv.finished = false := by
  constructor
  · decide +kernel
  intro β src dst sendBuff recvBuff s hr
  have idle : Idle s := by
    apply reachable_invariant Idle _ _ hr
    · exact ⟨rfl, rfl, rfl, rfl⟩
    · intro s a s' h next
      exact step_idle (by decide +kernel) (by decide +kernel) h next
  exact ⟨idle.sendOpen, idle.recvOpen⟩

theorem staged_pair_copied : stagedPair.nbytes stagedPair.send = 2 ^ 20 ∧
    stagedPair.pieces stagedPair.send = stagedPair.pieces stagedPair.recv := by
  have regular : Regular stagedPair (endOf (directionOf (2 ^ 20) 120 false)) :=
    ⟨rfl, by decide +kernel, fun _ => by decide +kernel⟩
  have suited : Suited stagedPair := ⟨regular, regular, by decide +kernel, .inl rfl⟩
  exact ⟨by decide +kernel, (suited_pair_copied stagedPair suited).1⟩

end Vccl.Psm.NetPair
