import Vccl.Psm.Groups

/-! Which args finish, and that those which can do so from every state they get into. -/
namespace Vccl.Psm

open List

def Args.slice (args : Args) : Nat :=
  match args.kind with
  | .zeroCopySend | .zeroCopyRecv => 1
  | _ => args.sliceSteps

def KindInv (args : Args) : Prop :=
  match args.kind with
  | .staged => ∀ sub ∈ args.groups.flatten, StagedInv args.slice sub
  | .zeroCopySend | .zeroCopyRecv => ∀ sub ∈ args.groups.flatten, ZeroCopyInv sub
  | .netSend => ∀ sub ∈ args.groups.flatten, NetSendInv args.slice sub
  | .netRecv => ∀ g ∈ args.groups, GroupInv args.slice g
  | .other => True

structure ArgsInv (args : Args) : Prop where
  subs : KindInv args
  count : args.done = args.groups.flatten.countP (Sub.counted args.slice)
  halted : args.supported = false → args.done = 0

variable {args : Args}

theorem passSubs_spec (psm : args.kind.isPsm = true) (h : KindInv args) (answers : Answers) :
    KindInv { args with groups := (passSubs args answers).1 } ∧
      Chunks.Tally (Sub.counted args.slice) Sub.nsteps args.groups.flatten (passSubs args answers).1.flatten
        (passSubs args answers).2 := by
  obtain ⟨kind, _, supported, sliceSteps, groups, _, _⟩ := args
  cases supported with
  | false => exact ⟨h, rfl, rfl⟩
  | true =>
    -- a loop over single subs puts its result into one group
    have flat {inv : Sub → Prop} {turn : Nat → Sub → Sub × Nat} {slice : Nat}
        (spec : TurnSpec slice inv turn) (h : ∀ sub ∈ groups.flatten, inv sub) :
        (∀ sub ∈ [(subLoop turn 0 groups.flatten).1].flatten, inv sub) ∧
          Chunks.Tally (Sub.counted slice) Sub.nsteps groups.flatten [(subLoop turn 0 groups.flatten).1].flatten
            (subLoop turn 0 groups.flatten).2 := by
      simpa only [flatten_singleton] using subLoop_spec spec groups.flatten 0 h
    cases kind with
    | staged => exact flat (stagedTurn_spec sliceSteps answers) h
    | zeroCopySend | zeroCopyRecv => exact flat (zeroCopyTurn_spec answers) h
    | netSend => exact flat (netSendTurn_spec sliceSteps _ answers) h
    | netRecv => exact netRecvPass_inv _ answers groups h
    | other => contradiction

theorem passSubs_moves (psm : args.kind.isPsm = true) (h : KindInv args) (supported : args.supported = true)
    (few : args.nsubs ≤ psmNetSharedSteps) (sound : ∀ sub ∈ args.groups.flatten, sub.sound args.slice = true)
    (waiting : ∃ sub ∈ args.groups.flatten, sub.counted args.slice = false) :
    totals args.groups.flatten < totals (passSubs args .yes).1.flatten := by
  have deep : 0 < maxDepth args.nsubs := by
    obtain ⟨sub, mem, -⟩ := waiting
    have some' : 0 < args.nsubs := length_pos_of_mem mem
    have share : 0 < psmNetSharedSteps / args.nsubs := Nat.div_pos few some'
    simp only [maxDepth, psmNetSteps]
    omega
  obtain ⟨kind, _, _, sliceSteps, groups, _, _⟩ := args
  obtain rfl : _ = true := supported
  cases kind with
  | staged =>
    simpa [passSubs, totals] using subLoop_moves (stagedTurn_moves sliceSteps) _ 0 h sound waiting
  | zeroCopySend =>
    simpa [passSubs, totals] using subLoop_moves zeroCopyTurn_moves _ 0 h sound waiting
  | zeroCopyRecv =>
    simpa [passSubs, totals] using subLoop_moves zeroCopyTurn_moves _ 0 h sound waiting
  | netSend =>
    simpa [passSubs, totals] using subLoop_moves (netSendTurn_moves sliceSteps _ deep) _ 0 h sound waiting
  | netRecv => exact netRecvPass_moves groups deep h sound waiting
  | other => contradiction

def Args.steps (args : Args) : Nat := (args.groups.flatten.map Sub.nsteps).sum

theorem nsteps_le_steps {sub : Sub} (mem : sub ∈ args.groups.flatten) :
    sub.nsteps ≤ args.steps :=
  single_le_sum (by simp) _ (mem_map_of_mem mem)

theorem total_le (psm : args.kind.isPsm = true) (h : KindInv args)
    (sound : ∀ sub ∈ args.groups.flatten, sub.sound args.slice = true) :
    ∀ sub ∈ args.groups.flatten, sub.total ≤ 4 * args.steps := by
  intro sub mem
  have whole : ∀ sub ∈ args.groups.flatten, args.slice ∣ sub.nsteps := by
    intro sub mem
    have := sound sub mem
    simp only [Sub.sound, decide_eq_true_eq] at this
    exact this.2
  have most := nsteps_le_steps mem
  unfold KindInv at h
  split at h
  · have inv := h sub mem
    have bound := inv.bound (whole sub mem)
    have := inv.unused
    have := inv.order
    simp only [Sub.total]
    omega
  · have inv := h sub mem
    have := inv.unused
    have := inv.one
    have := inv.most
    simp only [Sub.total]
    omega
  · have inv := h sub mem
    have := inv.unused
    have := inv.one
    have := inv.most
    simp only [Sub.total]
    omega
  · have inv := h sub mem
    have bound := inv.bound (whole sub mem)
    have := inv.unused
    have := inv.completed
    have := inv.sent
    simp only [Sub.total]
    omega
  · obtain ⟨g, here, ht⟩ := mem_flatten.mp mem
    obtain ⟨P, R, T, lock⟩ := h g here
    obtain ⟨⟨_, hr, sent⟩, -, _, -⟩ := lock.subs sub ht
    have := lock.received
    have := lock.flushed
    have bound : P ≤ args.steps := by
      rcases lock.bound (fun sub m => whole sub (mem_flatten.mpr ⟨g, here, m⟩)) with
        zero | ⟨longest, m, le⟩
      · omega
      · exact le_trans le (nsteps_le_steps (mem_flatten.mpr ⟨g, here, m⟩))
    simp only [Sub.total]
    omega
  next other =>
    rw [other] at psm
    contradiction

theorem totals_le (psm : args.kind.isPsm = true) (h : KindInv args)
    (sound : ∀ sub ∈ args.groups.flatten, sub.sound args.slice = true) :
    totals args.groups.flatten ≤ args.nsubs * (4 * args.steps) := by
  have each := total_le psm h sound
  have bound := sum_le_card_nsmul (args.groups.flatten.map Sub.total) (4 * args.steps) (by
    intro n mem
    obtain ⟨sub, ht, rfl⟩ := mem_map.mp mem
    exact each sub ht)
  rw [length_map] at bound
  exact bound

theorem start_flatten (env : Env) (args : Args) :
    (start env args).groups.flatten.Perm (args.groups.flatten.map (initSub env args.kind)) := by
  unfold start
  split
  · exact env.regroup_perm _
  · simp

variable {env : Env}

theorem start_sub {sub : Sub} (mem : sub ∈ (start env args).groups.flatten) :
    sub.posted = 0 ∧ sub.received = 0 ∧ sub.transmitted = 0 ∧ sub.done = 0 ∧
      ∃ old ∈ args.groups.flatten, sub.nsteps = initSteps env args.kind old := by
  obtain ⟨old, ht, rfl⟩ := mem_map.mp ((start_flatten env args).mem_iff.mp mem)
  exact ⟨rfl, rfl, rfl, rfl, old, ht, rfl⟩

theorem start_inv (env : Env) (args : Args) : ArgsInv (start env args) := by
  refine ⟨?_, ?_, fun _ => rfl⟩
  · have subs (sub : Sub) (mem : sub ∈ (start env args).groups.flatten) := start_sub mem
    unfold KindInv
    split
    · intro sub mem
      obtain ⟨hp, hr, sent, done, -⟩ := subs sub mem
      refine ⟨⟨hp, hr⟩, ?_, ?_, ?_, ?_⟩ <;> simp [sent, done]
    next kind =>
      intro sub mem
      obtain ⟨hp, hr, sent, done, old, -, steps⟩ := subs sub mem
      refine ⟨⟨hp, hr, sent⟩, ?_, by omega⟩
      simpa [show args.kind = .zeroCopySend from kind, initSteps] using steps
    next kind =>
      intro sub mem
      obtain ⟨hp, hr, sent, done, old, -, steps⟩ := subs sub mem
      refine ⟨⟨hp, hr, sent⟩, ?_, by omega⟩
      simpa [show args.kind = .zeroCopyRecv from kind, initSteps] using steps
    · intro sub mem
      obtain ⟨hp, hr, sent, done, -⟩ := subs sub mem
      refine ⟨hr, ?_, ?_, ?_, ?_, ?_, ?_⟩ <;> simp [hp, sent, done]
    · intro g here
      refine ⟨0, 0, 0, by simp, le_refl 0, le_refl 0, ?_, fun _ => .inl rfl⟩
      intro sub ht
      obtain ⟨hp, hr, sent, done, -⟩ := subs sub (mem_flatten.mpr ⟨g, here, ht⟩)
      simp [hp, hr, sent, done]
    · trivial
  · symm
    rw [show (start env args).done = 0 from rfl, countP_eq_zero]
    intro sub mem
    obtain ⟨-, -, -, done, -⟩ := start_sub mem
    simp only [Sub.counted, Sub.sound, Bool.and_eq_true, decide_eq_true_eq]
    omega

def begun (env : Env) (args : Args) : Args :=
  match args.state with
  | .ready => start env args
  | _ => args

theorem begun_fixed (env : Env) (args : Args) :
    (begun env args).kind = args.kind ∧ (begun env args).ptr = args.ptr ∧
      (begun env args).supported = args.supported ∧ (begun env args).slice = args.slice ∧
      (begun env args).nsubs = args.nsubs := by
  unfold begun
  split
  · refine ⟨rfl, rfl, rfl, rfl, ?_⟩
    have perm := (start_flatten env args).length_eq
    simpa only [Args.nsubs, length_map] using perm
  · exact ⟨rfl, rfl, rfl, rfl, rfl⟩

def Finishable (env : Env) (args : Args) : Prop :=
  args.supported = true ∧ ∀ sub ∈ (begun env args).groups.flatten, sub.sound args.slice = true

theorem pass_fixed (psm : args.kind.isPsm = true) (h : KindInv args) (answers : Answers) :
    (pass args answers).1.kind = args.kind ∧ (pass args answers).1.ptr = args.ptr ∧
      (pass args answers).1.supported = args.supported ∧ (pass args answers).1.slice = args.slice ∧
      (pass args answers).1.groups = (passSubs args answers).1 ∧
      (pass args answers).1.nsubs = args.nsubs := by
  have spec := passSubs_spec psm h answers
  have lengths := spec.2.length
  unfold pass
  simp only
  split
  all_goals exact ⟨rfl, rfl, rfl, rfl, rfl, lengths⟩

theorem sound_of_steps {slice : Nat} {xs ys : List Sub} (same : xs.map Sub.nsteps = ys.map Sub.nsteps)
    (sound : ∀ sub ∈ xs, sub.sound slice = true) : ∀ sub ∈ ys, sub.sound slice = true := by
  intro sub mem
  have there : sub.nsteps ∈ xs.map Sub.nsteps := same ▸ mem_map_of_mem mem
  obtain ⟨other, here, he⟩ := mem_map.mp there
  rw [← sound_congr he]
  exact sound other here

theorem pass_inv (psm : args.kind.isPsm = true) (h : ArgsInv args) (answers : Answers) :
    ArgsInv (pass args answers).1 := by
  have spec := passSubs_spec psm h.subs answers
  have inv : ArgsInv { args with
      groups := (passSubs args answers).1, done := args.done + (passSubs args answers).2 } := by
    refine ⟨spec.1, ?_, ?_⟩
    · exact (congrArg (· + (passSubs args answers).2) h.count).trans spec.2.count.symm
    · intro hr
      have := h.halted hr
      simp only at hr
      simp [passSubs, hr, this]
  unfold pass
  simp only
  split
  · exact ⟨inv.subs, inv.count, inv.halted⟩
  · exact inv

theorem pass_end (psm : args.kind.isPsm = true) (h : ArgsInv args) (some' : 0 < args.nsubs) (answers : Answers) :
    ((pass args answers).1.state = .none ∧ (pass args answers).2 = args.nsubs ∧
        args.supported = true ∧ ∀ sub ∈ args.groups.flatten, sub.sound args.slice = true) ∨
      ((pass args answers).1.state = args.state ∧ (pass args answers).2 = 0 ∧
        args.done ≠ args.nsubs) := by
  have spec := passSubs_spec psm h.subs answers
  have lengths := spec.2.length
  unfold pass
  simp only
  split
  next all =>
    left
    simp only [Args.nsubs, lengths] at all
    refine ⟨rfl, by simpa [Args.nsubs] using lengths, ?_, ?_⟩
    · by_contra hr
      simp only [Bool.not_eq_true] at hr
      have added : (passSubs args answers).2 = 0 := by simp [passSubs, hr]
      have none := h.halted hr
      simp only [Args.nsubs] at some'
      omega
    · apply sound_of_steps spec.2.keys
      have full : (passSubs args answers).1.flatten.countP (Sub.counted args.slice) =
          (passSubs args answers).1.flatten.length := by
        rw [spec.2.count, ← h.count, lengths]
        exact all
      intro sub mem
      have counted := countP_eq_length.mp full sub mem
      simp only [Sub.counted, Bool.and_eq_true] at counted
      exact counted.1
  next more =>
    refine .inr ⟨rfl, rfl, ?_⟩
    intro all
    have most := countP_le_length (p := Sub.counted args.slice)
      (l := (passSubs args answers).1.flatten)
    rw [spec.2.count, ← h.count] at most
    simp only [Args.nsubs] at all more
    omega

theorem waiting_of_done_lt (h : ArgsInv args) (before : args.done ≠ args.nsubs) :
    ∃ sub ∈ args.groups.flatten, sub.counted args.slice = false := by
  by_contra none
  simp only [not_exists, not_and, Bool.not_eq_false] at none
  apply before
  rw [h.count, countP_eq_length.mpr none, Args.nsubs]

structure Effect (env : Env) (args : Args) (result : Args × Nat) : Prop where
  kind : result.1.kind = args.kind
  ptr : result.1.ptr = args.ptr
  nsubs : result.1.nsubs = args.nsubs
  inv : ArgsInv (begun env result.1)
  finishable : Finishable env result.1 ↔ Finishable env args
  ends : (result.1.state = .none ∧ result.2 = args.nsubs ∧ Finishable env args) ∨
    (result.1.state ≠ .none ∧ result.2 = 0)

theorem begun_of_begun (begun' : args.state ≠ .ready) :
    begun env args = args := by
  unfold begun
  split
  · contradiction
  · rfl

theorem begun_state (env : Env) (active : args.state ≠ .none) :
    (begun env args).state = .progress := by
  unfold begun
  split
  · rfl
  · cases state : args.state <;> simp_all

theorem pass_effect (psm : args.kind.isPsm = true) (h : ArgsInv (begun env args)) (some' : 0 < args.nsubs)
    (active : args.state ≠ .none) (answers : Answers) : Effect env args (pass (begun env args) answers) := by
  obtain ⟨kind, ptr, hsup, hsl, nsubs⟩ := begun_fixed env args
  have psm' : (begun env args).kind.isPsm = true := by rw [kind]; exact psm
  have inv := pass_inv psm' h answers
  have state := begun_state env active
  have ends := pass_end psm' h (by omega) answers
  obtain ⟨kind', ptr', hsup', hsl', hg', nsubs'⟩ := pass_fixed psm' h.subs answers
  have steps := (passSubs_spec psm' h.subs answers).2.keys
  have later : begun env (pass (begun env args) answers).1 = (pass (begun env args) answers).1 := by
    apply begun_of_begun
    rcases ends with ⟨none, -⟩ | ⟨same, -⟩
    · simp [none]
    · simp [same, state]
  refine ⟨kind'.trans kind, ptr'.trans ptr, nsubs'.trans nsubs, by rwa [later], ?_, ?_⟩
  · unfold Finishable
    rw [later, hg', hsup', hsup, hsl', hsl]
    constructor
    · rintro ⟨first, hs⟩
      exact ⟨first, sound_of_steps steps hs⟩
    · rintro ⟨first, hs⟩
      exact ⟨first, sound_of_steps steps.symm hs⟩
  · rcases ends with ⟨none, hsu, first, hs⟩ | ⟨same, hsu, -⟩
    · left
      rw [hsup] at first
      rw [hsl] at hs
      exact ⟨none, by omega, first, hs⟩
    · right
      exact ⟨by simp [same, state], hsu⟩

theorem proxyProgress_cases (env : Env) (args : Args) (answers : Answers) (active : args.state ≠ .none) :
    proxyProgress env args answers = pass (begun env args) answers ∨
      (args.state = .ready ∧ proxyProgress env args answers = (begun env args, 0)) ∨
      (answers.receiverReady = false ∧ proxyProgress env args answers = (args, 0)) := by
  cases state : args.state with
  | none => contradiction
  | progress =>
    left
    simp [proxyProgress, begun, state]
  | ready =>
    have first : begun env args = start env args := by simp [begun, state]
    simp only [proxyProgress, state, first]
    split
    · cases ready : answers.receiverReady with
      | true => exact .inr (.inl ⟨trivial, rfl⟩)
      | false => exact .inr (.inr ⟨rfl, rfl⟩)
    · exact .inr (.inl ⟨trivial, rfl⟩)
    · exact .inl rfl

theorem proxyProgress_effect (psm : args.kind.isPsm = true) (h : ArgsInv (begun env args)) (some' : 0 < args.nsubs)
    (active : args.state ≠ .none) (answers : Answers) : Effect env args (proxyProgress env args answers) := by
  rcases proxyProgress_cases env args answers active with eq | ⟨_, eq⟩ | ⟨-, eq⟩
  · rw [eq]
    exact pass_effect psm h some' active answers
  · rw [eq]
    obtain ⟨kind, ptr, hs, hsl, nsubs⟩ := begun_fixed env args
    have state := begun_state env active
    have later : begun env (begun env args) = begun env args := begun_of_begun (by simp [state])
    refine ⟨kind, ptr, nsubs, by rwa [later], ?_, .inr ⟨by simp [state], rfl⟩⟩
    unfold Finishable
    rw [later, hs, hsl]
  · rw [eq]
    exact ⟨rfl, rfl, rfl, h, Iff.rfl, .inr ⟨active, rfl⟩⟩

def rank (env : Env) (args : Args) : Nat :=
  let rest := (begun env args).nsubs * (4 * (begun env args).steps) -
    totals (begun env args).groups.flatten
  match args.state with
  | .none => 0
  | .progress => 1 + rest
  | .ready => 2 + rest

theorem proxyProgress_closer (psm : args.kind.isPsm = true) (h : ArgsInv (begun env args))
    (few : args.nsubs ≤ psmNetSharedSteps) (some' : 0 < args.nsubs) (active : args.state ≠ .none)
    (finishable : Finishable env args) :
    rank env (proxyProgress env args .yes).1 < rank env args := by
  obtain ⟨kind, _, supported, slice, nsubs⟩ := begun_fixed env args
  have state := begun_state env active
  rcases proxyProgress_cases env args .yes active with eq | ⟨ready, eq⟩ | ⟨_, -⟩
  · have psm' : (begun env args).kind.isPsm = true := by rw [kind]; exact psm
    have sound : ∀ sub ∈ (begun env args).groups.flatten,
        sub.sound (begun env args).slice = true := by
      rw [slice]
      exact finishable.2
    have spec := passSubs_spec psm' h.subs .yes
    have inv := pass_inv psm' h .yes
    have ends := pass_end psm' h (by omega) .yes
    obtain ⟨kind', _, _, slice', groups', nsubs'⟩ := pass_fixed psm' h.subs .yes
    rw [eq]
    rcases ends with ⟨none, -⟩ | ⟨same, -, waiting⟩
    · simp only [rank, none]
      cases before : args.state with
      | none => contradiction
      | progress => simp only; omega
      | ready => simp only; omega
    · have later : begun env (pass (begun env args) .yes).1 = (pass (begun env args) .yes).1 :=
        begun_of_begun (by simp [same, state])
      have steps : (pass (begun env args) .yes).1.steps = (begun env args).steps := by
        rw [Args.steps, groups', spec.2.keys, Args.steps]
      have moved := passSubs_moves psm' h.subs (supported.trans finishable.1) (by omega) sound
        (waiting_of_done_lt h waiting)
      have bound := totals_le (by rw [kind']; exact psm') inv.subs (by
        rw [slice', groups']
        exact sound_of_steps spec.2.keys.symm sound)
      rw [nsubs', steps, groups'] at bound
      simp only [rank, later, same, state, nsubs', steps, groups']
      cases before : args.state with
      | none => contradiction
      | progress => simp only; omega
      | ready => simp only; omega
  · rw [eq]
    have later : begun env (begun env args) = begun env args := begun_of_begun (by simp [state])
    simp only [rank, later, state, ready]
    omega
  · contradiction

end Vccl.Psm
