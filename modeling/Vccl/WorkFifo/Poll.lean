import Vccl.WorkFifo.Safety

/-! One pass of the polling loop while the device is idle: 64 loads, the minimum, 64 stores
and the test for room. -/
namespace Vccl.WorkFifo

open List Transition Option

def passLength : Nat := 130

def quiescedTo (s : State) (least next : Nat) (values : Channel → Nat) (c : Channel) : Nat :=
  if c.val < next ∧ s.workConsumed c = s.channelProduced c then least else values c

def afterPass (f : Fifo) (s : State) (plan : Plan) : State :=
  let least := leastConsumed s.workFifoProduced s.channelProduced s.workConsumed
  let s' := { s with
    workFifoConsumedLeast := least
    channelProduced := quiescedTo s least maxChannels s.channelProduced
    workConsumed := quiescedTo s least maxChannels s.workConsumed }
  if hasRoom f s' plan then { s' with pc := .writing plan } else startPoll s' plan

def samples (s : State) (next : Nat) (c : Channel) : Nat :=
  if c.val < next then s.workConsumed c else 0

section Pass

variable (f : Fifo) (s : State) (plan : Plan)

theorem run_replicate_succ (t : State) (n : Nat) :
    run (step f) t (replicate (n + 1) .host) =
      (run (step f) t (replicate n .host)).bind (hostStep f) := by
  rw [replicate_succ', run_append]
  congr 1
  funext m
  simp only [run, step]
  cases hostStep f m <;> rfl

theorem run_samples (n : Nat) (inside : n ≤ maxChannels) :
    run (step f) (startPoll s plan) (replicate n .host) =
      some { s with pc := .loading plan n (samples s n) } := by
  induction n with
  | zero => rfl
  | succ n ih =>
    have below : n < maxChannels := inside
    rw [run_replicate_succ, ih below.le, bind_some]
    simp only [hostStep, dif_pos below]
    congr 3
    funext c
    by_cases here : c = ⟨n, below⟩
    · subst here
      simp [samples]
    · have other : c.val ≠ n := fun same => here (Fin.ext same)
      have turn : c.val < n + 1 ↔ c.val < n := by omega
      simp [samples, Function.update_of_ne here, turn]

theorem samples_all : samples s maxChannels = s.workConsumed := by
  funext c
  simp [samples]

def storedState (least n : Nat) : State :=
  { s with
    channelProduced := quiescedTo s least n s.channelProduced
    workConsumed := quiescedTo s least n s.workConsumed
    pc := .storing plan s.workConsumed least n }

theorem update_quiescedTo (least n : Nat) (below : n < maxChannels) (values : Channel → Nat)
    (still : s.workConsumed ⟨n, below⟩ = s.channelProduced ⟨n, below⟩) :
    Function.update (quiescedTo s least n values) ⟨n, below⟩ least =
      quiescedTo s least (n + 1) values := by
  funext c
  by_cases here : c = ⟨n, below⟩
  · subst here
    simp [quiescedTo, still]
  · have other : c.val ≠ n := fun same => here (Fin.ext same)
    have turn : c.val < n + 1 ↔ c.val < n := by omega
    simp [quiescedTo, Function.update_of_ne here, turn]

theorem quiescedTo_succ (least n : Nat) (below : n < maxChannels) (values : Channel → Nat)
    (active : s.workConsumed ⟨n, below⟩ ≠ s.channelProduced ⟨n, below⟩) :
    quiescedTo s least n values = quiescedTo s least (n + 1) values := by
  funext c
  by_cases here : c = ⟨n, below⟩
  · subst here
    simp [quiescedTo, active]
  · have other : c.val ≠ n := fun same => here (Fin.ext same)
    have turn : c.val < n + 1 ↔ c.val < n := by omega
    simp [quiescedTo, turn]

theorem hostStep_quiesced {consumed : Channel → Nat} {least next : Nat}
    (pc : s.pc = .storing plan consumed least next) (below : next < maxChannels)
    (still : consumed ⟨next, below⟩ = s.channelProduced ⟨next, below⟩) :
    hostStep f s = some { s with
      channelProduced := Function.update s.channelProduced ⟨next, below⟩ least
      workConsumed := Function.update s.workConsumed ⟨next, below⟩ least
      pc := .storing plan consumed least (next + 1) } := by
  simp [hostStep, pc, dif_pos below, if_pos still]

theorem hostStep_active {consumed : Channel → Nat} {least next : Nat}
    (pc : s.pc = .storing plan consumed least next) (below : next < maxChannels)
    (active : consumed ⟨next, below⟩ ≠ s.channelProduced ⟨next, below⟩) :
    hostStep f s = some { s with pc := .storing plan consumed least (next + 1) } := by
  simp [hostStep, pc, dif_pos below, if_neg active]

theorem hostStep_stored (least n : Nat) (below : n < maxChannels) :
    hostStep f (storedState s plan least n) = some (storedState s plan least (n + 1)) := by
  have unchanged : (storedState s plan least n).channelProduced ⟨n, below⟩ =
      s.channelProduced ⟨n, below⟩ := by simp [storedState, quiescedTo]
  by_cases hs : s.workConsumed ⟨n, below⟩ = s.channelProduced ⟨n, below⟩
  · rw [hostStep_quiesced f _ plan rfl below (hs.trans unchanged.symm)]
    simp [storedState, update_quiescedTo s least n below _ hs]
  · rw [hostStep_active f _ plan rfl below (fun same => hs (same.trans unchanged))]
    simp [storedState, quiescedTo_succ s least n below _ hs]

theorem run_stores (least n : Nat) (inside : n ≤ maxChannels) :
    run (step f) (storedState s plan least 0) (replicate n .host) =
      some (storedState s plan least n) := by
  induction n with
  | zero => rfl
  | succ n ih =>
    have below : n < maxChannels := inside
    rw [run_replicate_succ, ih below.le, bind_some, hostStep_stored f s plan least n below]

theorem hostStep_compute :
    hostStep f { s with pc := .loading plan maxChannels s.workConsumed } =
      some (storedState s plan (leastConsumed s.workFifoProduced s.channelProduced s.workConsumed) 0) := by
  have start : ∀ least values, quiescedTo s least 0 values = values := by
    intro least values
    funext c
    simp [quiescedTo]
  simp [hostStep, storedState, start]

theorem hostStep_endPass (least : Nat)
    (computed : leastConsumed s.workFifoProduced s.channelProduced s.workConsumed = least) :
    hostStep f (storedState s plan least maxChannels) = some (afterPass f s plan) := by
  simp only [afterPass, computed]
  rfl

theorem replicate_pass (n : Nat) : replicate (n + (n + 1) + 1) Action.host =
    replicate n .host ++ (.host :: (replicate n .host ++ [.host])) := by
  rw [replicate_succ', replicate_add, replicate_succ, append_assoc,
    cons_append]

theorem run_pass : run (step f) (startPoll s plan) (replicate passLength .host) =
    some (afterPass f s plan) := by
  have compute := hostStep_compute f s plan
  generalize computed : leastConsumed s.workFifoProduced s.channelProduced s.workConsumed = least
    at compute
  have stores := run_stores f s plan least maxChannels le_rfl
  have done := hostStep_endPass f s plan least computed
  have shape := replicate_pass maxChannels
  change replicate passLength Action.host = _ at shape
  rw [shape, run_append, run_samples f s plan maxChannels le_rfl, bind_some,
    samples_all, run, step, compute, bind_some, run_append, stores,
    bind_some, run, step, done]
  rfl

end Pass

def lag (s : State) (c : Channel) : Nat := Wrap.sub word s.workFifoProduced (s.workConsumed c)

theorem foldl_leastStep_lag (produced : Nat) (channelProduced consumed : Channel → Nat)
    (cs : List Channel) (n : Nat) :
    ∃ r, cs.foldl (leastStep produced channelProduced consumed) n = r ∧
      (r = n ∨ ∃ c, consumed c ≠ channelProduced c ∧ r = consumed c) ∧
      Wrap.sub word produced n ≤ Wrap.sub word produced r ∧
      ∀ c ∈ cs, consumed c ≠ channelProduced c →
        Wrap.sub word produced (consumed c) ≤ Wrap.sub word produced r := by
  induction cs generalizing n with
  | nil => exact ⟨n, rfl, .inl rfl, le_rfl, by simp⟩
  | cons c rest ih =>
    simp only [foldl_cons]
    by_cases hf : consumed c ≠ channelProduced c ∧
        Wrap.sub word produced n < Wrap.sub word produced (consumed c)
    · have move : leastStep produced channelProduced consumed n c = consumed c := if_pos hf
      rw [move]
      obtain ⟨r, fold, ho, hg, hb⟩ := ih (consumed c)
      refine ⟨r, fold, .inr ?_, le_trans hf.2.le hg, ?_⟩
      · rcases ho with same | hot
        · exact ⟨c, hf.1, same⟩
        · exact hot
      · exact forall_mem_cons.mpr ⟨fun ha => hg, hb⟩
    · have stay : leastStep produced channelProduced consumed n c = n := if_neg hf
      rw [stay]
      obtain ⟨r, fold, ho, hg, hb⟩ := ih n
      refine ⟨r, fold, ho, hg, ?_⟩
      exact forall_mem_cons.mpr ⟨fun ha => le_trans (not_lt.mp fun h => hf ⟨ha, h⟩) hg, hb⟩

theorem afterPass_writing_iff (f : Fifo) (s : State) (plan : Plan)
    (fits : plan.workBytes ≤ f.bytes) :
    (afterPass f s plan).pc = .writing plan ↔
      (∀ c, s.workConsumed c = s.channelProduced c ∨ lag s c + plan.workBytes ≤ f.bytes) ∨
        ∃ c, s.workConsumed c ≠ s.channelProduced c ∧ word ≤ lag s c + plan.workBytes := by
  have limit := f.bytes_le
  obtain ⟨r, fold, ho, -, hb⟩ := foldl_leastStep_lag s.workFifoProduced s.channelProduced
    s.workConsumed (finRange maxChannels) s.workFifoProduced
  have own : Wrap.sub word s.workFifoProduced s.workFifoProduced = 0 := Wrap.sub_self (by decide) _
  have turn : Wrap.sub word s.workFifoProduced r < word := Wrap.sub_lt (by decide)
  have least : leastConsumed s.workFifoProduced s.channelProduced s.workConsumed = r := fold
  have room : (afterPass f s plan).pc = .writing plan ↔
      (Wrap.sub word s.workFifoProduced r + plan.workBytes) % word ≤ f.bytes := by
    simp only [afterPass, hasRoom, Wrap.sub_add_mod]
    split <;> simp_all [startPoll]
  rw [room]
  have big : (2 : Nat) ^ 30 < word := by decide
  generalize farthest : Wrap.sub word s.workFifoProduced r = L at *
  constructor
  · intro hf
    by_cases hw : word ≤ L + plan.workBytes
    · rcases ho with same | ⟨c, ha, same⟩
      · rw [same] at farthest
        omega
      · exact .inr ⟨c, ha, by rw [lag, ← same, farthest]; exact hw⟩
    · rw [Nat.mod_eq_of_lt (not_le.mp hw)] at hf
      refine .inl (fun c => ?_)
      by_cases ha : s.workConsumed c = s.channelProduced c
      · exact .inl ha
      · have behind := hb c (mem_finRange c) ha
        exact .inr (le_trans (Nat.add_le_add_right behind _) hf)
  · rintro (hc | ⟨c, ha, hw⟩)
    · have total : L + plan.workBytes ≤ f.bytes := by
        rcases ho with same | ⟨c, ha, same⟩
        · rw [same] at farthest
          omega
        · rcases hc c with hs | near
          · exact absurd hs ha
          · rwa [lag, ← same, farthest] at near
      rw [Nat.mod_eq_of_lt (by omega)]
      exact total
    · have behind : lag s c ≤ L := hb c (mem_finRange c) ha
      have wrapped : word ≤ L + plan.workBytes := le_trans hw (Nat.add_le_add_right behind _)
      rw [Nat.mod_eq_sub_mod wrapped, Nat.mod_eq_of_lt (by omega)]
      omega

def Finished (s : State) : Prop := ∀ c, s.toLoad c = [] ∧ s.loaded c = none

instance : DecidablePred Finished := fun _ => inferInstanceAs (Decidable (∀ _, _))

def passLeft : Pc → Nat
  | .loading _ next _ => passLength - next
  | .storing _ _ _ next => maxChannels + 1 - next
  | _ => 0

theorem hostStep_finished {f : Fifo} {s s' : State} (finished : Finished s)
    (left : 0 < passLeft s.pc) (taken : hostStep f s = some s') :
    Finished s' ∧ passLeft s.pc ≤ passLeft s'.pc + 1 := by
  cases pc : s.pc with
  | idle => simp [passLeft, pc] at left
  | writing plan => simp [passLeft, pc] at left
  | loading plan next consumed =>
    by_cases inside : next < maxChannels
    · simp only [hostStep, pc, dif_pos inside, some.injEq] at taken
      subst taken
      refine ⟨finished, ?_⟩
      simp only [passLeft]
      omega
    · simp only [hostStep, pc, dif_neg inside, some.injEq] at taken
      subst taken
      refine ⟨finished, ?_⟩
      simp only [passLeft, passLength, maxChannels] at inside ⊢
      omega
  | storing plan consumed least next =>
    by_cases inside : next < maxChannels
    · by_cases still : consumed ⟨next, inside⟩ = s.channelProduced ⟨next, inside⟩
      · rw [hostStep_quiesced f s plan pc inside still] at taken
        cases taken
        exact ⟨finished, by simp only [passLeft]; omega⟩
      · rw [hostStep_active f s plan pc inside still] at taken
        cases taken
        exact ⟨finished, by simp only [passLeft]; omega⟩
    · simp only [hostStep, pc, dif_neg inside, some.injEq] at taken
      subst taken
      refine ⟨?_, ?_⟩
      · split <;> exact finished
      · simp only [passLeft]
        omega

theorem only_host {f : Fifo} {s s' : State} (finished : Finished s) (actions : List Action)
    (left : actions.length ≤ passLeft s.pc)
    (ran : run (step f) s actions = some s') :
    actions = replicate actions.length .host := by
  induction actions generalizing s with
  | nil => rfl
  | cons a rest ih =>
    obtain ⟨m, ht, tail⟩ := run_cons_some.mp ran
    rw [length_cons] at left ⊢
    have busy : s.pc ≠ .idle := by
      intro idle
      simp [idle, passLeft] at left
    cases a with
    | submit plan =>
      simp only [step] at ht
      cases ht
    | load c =>
      simp only [step] at ht
      split at ht
      next pending =>
        simp [(finished c).1] at pending
      · cases ht
    | publish c =>
      simp only [step, (finished c).2] at ht
      cases ht
    | host =>
      obtain ⟨hs, _⟩ := hostStep_finished finished (by omega) ht
      rw [replicate_succ, ← ih hs (by omega) tail]

/-- Once the device has finished, a pass finds room exactly when no counter that differs from its
`channels[c].workFifoProduced` is too far behind, or one is so far behind that the 32-bit
distance wraps. -/
theorem pass_finds_room_iff (f : Fifo) (s : State) (finished : Finished s) (plan : Plan)
    (fits : plan.workBytes ≤ f.bytes) (actions : List Action) (s' : State)
    (pass : actions.length = passLength)
    (ran : run (step f) (startPoll s plan) actions = some s') :
    s'.pc = .writing plan ↔
      (∀ c, s.workConsumed c = s.channelProduced c ∨ lag s c + plan.workBytes ≤ f.bytes) ∨
        ∃ c, s.workConsumed c ≠ s.channelProduced c ∧ word ≤ lag s c + plan.workBytes := by
  have hosts := only_host (s := startPoll s plan) finished actions pass.le ran
  rw [hosts, pass, run_pass, some.injEq] at ran
  rw [← ran]
  exact afterPass_writing_iff f s plan fits

/- Channel 0 is used once, then channel 1 fills the FIFO; all of it is loaded and published. -/
def usedOnce : List Action :=
  [.submit (singleWork firstChannel 16), .host, .load firstChannel, .publish firstChannel,
   .submit (singleWork secondChannel 32), .host, .load secondChannel, .publish secondChannel,
   .submit (singleWork secondChannel 16), .host, .load secondChannel, .publish secondChannel]

theorem idle_channel_holds_back_space :
    ∃ s, run (step fifo64) initial usedOnce = some s ∧ Finished s ∧
      ∃ s', run (step fifo64) (startPoll s (singleWork secondChannel 32))
        (replicate passLength .host) = some s' ∧
          s'.pc ≠ .writing (singleWork secondChannel 32) := by
  obtain ⟨s, ran, check⟩ := run_reaches (step fifo64) initial usedOnce
    (fun s => Finished s ∧
      ¬ ((∀ c, s.workConsumed c = s.channelProduced c ∨ lag s c + 32 ≤ 64) ∨
        ∃ c, s.workConsumed c ≠ s.channelProduced c ∧ word ≤ lag s c + 32)) (by decide +kernel)
  obtain ⟨hf, hb⟩ := check
  refine ⟨s, ran, hf, _, run_pass fifo64 s _, ?_⟩
  rw [ne_eq, afterPass_writing_iff _ _ _ (by decide)]
  exact hb

/- After one plan on channel 0 the counters are close enough for a plan of 32 bytes. -/
theorem pass_finds_room_after_first :
    ∃ s s', run (step fifo64) initial (usedOnce.take 4) = some s ∧
      run (step fifo64) (startPoll s (singleWork secondChannel 32))
        (replicate passLength .host) = some s' ∧
          s'.pc = .writing (singleWork secondChannel 32) := by
  obtain ⟨s, ran, check⟩ := run_reaches (step fifo64) initial (usedOnce.take 4)
    (fun s => Finished s ∧
      ∀ c, s.workConsumed c = s.channelProduced c ∨ lag s c + 32 ≤ 64) (by decide +kernel)
  obtain ⟨hf, near⟩ := check
  refine ⟨s, _, ran, run_pass fifo64 s _, ?_⟩
  exact (pass_finds_room_iff fifo64 s hf _ (by decide) _ _ (by simp) (run_pass fifo64 s _)).mpr
    (.inl near)

end Vccl.WorkFifo
