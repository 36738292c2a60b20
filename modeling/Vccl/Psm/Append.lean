import Vccl.Psm.Finish
import Vccl.Plan.Queues

/-! `ProxyAppend`: the args the progress thread makes of the ops of a plan. Ops of one shared
connection with one `opCount` are posted together, so args are complete when they are seen. -/
namespace Vccl.Psm

open List
open Proxy (Appended ProxyOp Side proxySaveOp saveProxy)

def kindOf (e : Appended) : Kind :=
  match e.transport, e.side with
  | .psmP2p, .send => if e.op.regp then .zeroCopySend else .staged
  | .psmP2p, .recv => if e.op.regp then .zeroCopyRecv else .staged
  | .psmNet, .send => .netSend
  | .psmNet, .recv => .netRecv
  | _, _ => .other

def Kind.needsSimple : Kind → Bool
  | .staged | .netSend | .netRecv => true
  | _ => false

def subOf (e : Appended) : Sub := ⟨e.op.nbytes, e.op.reg, toSizeT e.op.nsteps, 0, 0, 0, 0⟩

def appendOp (e : Appended) : List (List Appended) → List (List Appended)
  | [] => [[e]]
  | [] :: rest => appendOp e rest
  | (first :: more) :: rest =>
    if first.ptr = e.ptr then
      if e.shared ∧ first.op.opCount = e.op.opCount then (first :: more ++ [e]) :: rest
      else [e] :: (first :: more) :: rest
    else (first :: more) :: appendOp e rest

def appendOps (entries : List Appended) : List (List Appended) :=
  entries.foldl (fun groups e => appendOp e groups) []

def argsOf (first : Appended) (group : List Appended) : Args where
  kind := kindOf first
  ptr := first.ptr
  supported := !(kindOf first).needsSimple ||
    group.all fun e => decide (e.op.protocol = .simple ∧ e.op.sliceSteps = first.op.sliceSteps)
  sliceSteps := first.op.sliceSteps
  groups := [group.map subOf]
  state := .ready
  done := 0

def groupArgs : List Appended → List Args
  | [] => []
  | first :: more => [argsOf first (first :: more)]

def entriesOf (comm : Proxy.Comm) (ops : List ProxyOp) : List Appended :=
  ops.flatMap (proxySaveOp comm)

def argsOfOps (comm : Proxy.Comm) (ops : List ProxyOp) : List Args :=
  (appendOps (entriesOf comm ops)).reverse.flatMap groupArgs

structure EntryInv (comm : Proxy.Comm) (e : Appended) : Prop where
  localPeer : ∀ side c, e.ptr = .localPeer side c →
    e.transport = .psmNet ∧ e.side = side ∧ e.op.channelId = c
  collNet : ∀ side netDev, e.ptr = .collNet side netDev → e.transport = .collNet
  profiler : ∀ forRecv c, e.ptr = .profiler forRecv c → e.transport = .profiler
  own : ∀ side c peer i, e.ptr = .own side c peer i →
    e.shared = false ∧ e.transport = (comm.connector side c peer i).transport

variable {comm : Proxy.Comm} {e : Appended} {op : ProxyOp}

theorem saveProxy_entry {side : Side} {peer : Int} {i : Nat} (mem : e ∈ saveProxy comm side peer op i) :
    EntryInv comm e ∧ e.op = op ∧ e.side = side ∧ (e.transport.isPsm = true → i = 1) := by
  simp only [saveProxy] at mem
  split at mem
  · simp at mem
  split at mem
  · obtain rfl := mem_singleton.mp mem
    refine ⟨⟨?_, ?_, ?_, ?_⟩, rfl, rfl, comm.psmIndex _ _ _ _⟩
    · intro side' c ptr
      split at ptr
      next shared =>
        split at ptr
        · contradiction
        next other =>
          cases ptr
          exact ⟨(comm.sharedTransport _ _ _ _ shared).resolve_right other, rfl, rfl⟩
      · contradiction
    · intro side' netDev ptr
      split at ptr
      · split at ptr
        · assumption
        · contradiction
      · contradiction
    · intro forRecv c ptr
      split at ptr
      · split at ptr <;> contradiction
      · contradiction
    · intro side' c peer' i' ptr
      split at ptr
      · split at ptr <;> contradiction
      next hs =>
        cases ptr
        exact ⟨by simpa using hs, rfl⟩
  · simp at mem

theorem saveProxy_length (comm : Proxy.Comm) (side : Side) (peer : Int) (op : ProxyOp) (i : Nat) :
    (saveProxy comm side peer op i).length ≤ 1 := by
  simp only [saveProxy]
  split
  · simp
  · split <;> simp

def onPsm (e : Appended) : Bool := e.transport.isPsm

theorem saveProxy_zero (comm : Proxy.Comm) (side : Side) (peer : Int) (op : ProxyOp) :
    (saveProxy comm side peer op 0).filter onPsm = [] := by
  rw [filter_eq_nil_iff]
  intro e mem psm
  have := (saveProxy_entry mem).2.2.2 psm
  contradiction

theorem psm_entries (comm : Proxy.Comm) (op : ProxyOp) :
    (proxySaveOp comm op).filter onPsm = [] ∨
      ∃ side peer, Plan.pointSide op = some side ∧
        (proxySaveOp comm op).filter onPsm = (saveProxy comm side peer op 1).filter onPsm := by
  have zero := saveProxy_zero comm
  cases hp : op.pattern with
  | ring | ringTwice | pipelineFrom | pipelineTo =>
    left
    simp only [proxySaveOp, hp]
    repeat' split
    all_goals simp [zero]
  | treeUp | treeDown | treeUpDown | nvlsTree | patUp | patDown =>
    left
    simp [proxySaveOp, hp, proxySaveOp.up, proxySaveOp.down, filter_flatMap, zero]
  | collnetChain | collnetDirect | nvls =>
    right
    refine ⟨.send, ?_, by simp [Plan.pointSide, hp], ?_⟩
    rotate_left
    · simp only [proxySaveOp, hp, proxySaveOp.collnet, filter_append, zero, append_nil]
      rfl
  | send =>
    simp only [proxySaveOp, hp]
    split
    · exact .inl rfl
    · exact .inr ⟨.send, _, by simp [Plan.pointSide, hp], rfl⟩
  | recv =>
    simp only [proxySaveOp, hp]
    split
    · exact .inl rfl
    · exact .inr ⟨.recv, _, by simp [Plan.pointSide, hp], rfl⟩
  | profiler =>
    left
    simp only [proxySaveOp, hp]
    split <;> simp [onPsm, Proxy.saveProxyProfiler, Proxy.Transport.isPsm]

theorem psm_entries_le (comm : Proxy.Comm) (op : ProxyOp) :
    (proxySaveOp comm op).countP onPsm ≤ 1 := by
  rw [countP_eq_length_filter]
  rcases psm_entries comm op with none | ⟨side, peer, -, same⟩
  · simp [none]
  · rw [same]
    exact le_trans (length_filter_le _ _) (saveProxy_length comm side peer op 1)

def sharedAt (side : Side) (c k : Nat) (e : Appended) : Bool :=
  decide (e.ptr = .localPeer side c ∧ e.op.opCount = k)

theorem entry_inv (mem : e ∈ proxySaveOp comm op) : EntryInv comm e := by
  have save {side : Side} {peer : Int} {op' : ProxyOp} {i : Nat}
      (here : e ∈ saveProxy comm side peer op' i) : EntryInv comm e := (saveProxy_entry here).1
  cases hp : op.pattern with
  | ring | ringTwice | pipelineFrom | pipelineTo =>
    simp only [proxySaveOp, hp, mem_append] at mem
    rcases mem with here | here
    all_goals
      split at here
      · exact save here
      · simp at here
  | treeUp | treeDown | treeUpDown | nvlsTree | patUp | patDown | collnetChain | collnetDirect | nvls =>
    simp only [proxySaveOp, hp, proxySaveOp.up, proxySaveOp.down, proxySaveOp.collnet,
      mem_append] at mem
    grind
  | send | recv =>
    simp only [proxySaveOp, hp] at mem
    split at mem
    · simp at mem
    · exact save mem
  | profiler =>
    simp only [proxySaveOp, hp] at mem
    split at mem
    · obtain rfl := mem_singleton.mp mem
      refine ⟨?_, ?_, ?_, ?_⟩ <;> intros <;> first | contradiction | rfl
    · simp at mem

theorem shared_entries_le (comm : Proxy.Comm) (op : ProxyOp) (side : Side) (c k : Nat) :
    (proxySaveOp comm op).countP (sharedAt side c k) ≤
      (decide (op.channelId = c) && Plan.postsAt side k op).toNat := by
  -- an entry of a shared pointer is on a PSM transport
  have psm : ∀ e ∈ proxySaveOp comm op, sharedAt side c k e = true → onPsm e = true := by
    intro e mem here
    simp only [sharedAt, decide_eq_true_eq] at here
    simp [onPsm, ((entry_inv mem).localPeer side c here.1).1, Proxy.Transport.isPsm]
  have most : (proxySaveOp comm op).countP (sharedAt side c k) ≤
      ((proxySaveOp comm op).filter onPsm).countP (sharedAt side c k) := by
    rw [countP_filter]
    apply countP_mono_left
    intro e mem here
    simp [here, psm e mem here]
  rcases psm_entries comm op with none | ⟨side', peer, hp, same⟩
  · rw [none] at most
    exact le_trans most (Nat.zero_le _)
  rw [same] at most
  by_cases here : (decide (op.channelId = c) && Plan.postsAt side k op) = true
  · rw [here]
    exact le_trans most (le_trans countP_le_length
      (le_trans (length_filter_le _ _) (saveProxy_length comm side' peer op 1)))
  refine le_trans most ?_
  rw [countP_eq_zero.mpr]
  · exact Nat.zero_le _
  intro e mem at'
  simp only [sharedAt, decide_eq_true_eq] at at'
  obtain ⟨inv, rfl, rfl, -⟩ := saveProxy_entry (mem_of_mem_filter mem)
  obtain ⟨-, hs, channel⟩ := inv.localPeer side c at'.1
  apply here
  simp [Plan.postsAt, hp, channel, at'.2, hs]

theorem entriesOf_shared_le (comm : Proxy.Comm) (ops : List ProxyOp) (side : Side) (c k : Nat) :
    (entriesOf comm ops).countP (sharedAt side c k) ≤
      ops.countP (fun op => decide (op.channelId = c) && Plan.postsAt side k op) := by
  induction ops with
  | nil => simp [entriesOf]
  | cons op rest ih =>
    have first := shared_entries_le comm op side c k
    simp only [entriesOf, flatMap_cons, countP_append] at ih ⊢
    rw [countP_cons]
    cases here : (decide (op.channelId = c) && Plan.postsAt side k op) <;>
      simp only [here, Bool.toNat_false, Bool.toNat_true, if_true] at first ⊢ <;>
      omega

def Joined : List Appended → Prop
  | [] => False
  | first :: more => ∀ e ∈ more, e.shared = true ∧ e.ptr = first.ptr ∧ e.op.opCount = first.op.opCount

theorem appendOp_perm (e : Appended) (groups : List (List Appended)) :
    (appendOp e groups).flatten.Perm (e :: groups.flatten) := by
  induction groups with
  | nil => simp [appendOp]
  | cons group rest ih =>
    cases group with
    | nil => simpa [appendOp] using ih
    | cons first more =>
      simp only [appendOp]
      split
      · split
        · have moved : (first :: more ++ e :: rest.flatten).Perm
              (e :: (first :: more ++ rest.flatten)) := perm_middle
          simpa using moved
        · simp
      · exact (ih.append_left (first :: more)).trans perm_middle

theorem appendOps_perm (entries : List Appended) : (appendOps entries).flatten.Perm entries := by
  have fold : ∀ groups : List (List Appended),
      (entries.foldl (fun groups e => appendOp e groups) groups).flatten.Perm
        (groups.flatten ++ entries) := by
    induction entries with
    | nil => simp
    | cons e rest ih =>
      intro groups
      refine (ih (appendOp e groups)).trans ?_
      exact ((appendOp_perm e groups).append_right rest).trans perm_middle.symm
  simpa [appendOps] using fold []

theorem appendOp_joined {groups : List (List Appended)} (h : ∀ group ∈ groups, Joined group) :
    ∀ group ∈ appendOp e groups, Joined group := by
  induction groups with
  | nil =>
    intro group mem
    rw [mem_singleton.mp mem]
    exact fun _ none => absurd none not_mem_nil
  | cons group rest ih =>
    have here := h group (by simp)
    have others : ∀ group ∈ rest, Joined group := fun group m => h group (by simp [m])
    cases group with
    | nil => exact here.elim
    | cons first more =>
      simp only [appendOp]
      intro other mem
      split at mem
      next same =>
        split at mem
        next joins =>
          rcases mem_cons.mp mem with rfl | mem
          · exact forall_mem_append.mpr ⟨here, forall_mem_singleton.mpr ⟨joins.1, same.symm, joins.2.symm⟩⟩
          · exact others other mem
        · rcases mem_cons.mp mem with rfl | mem
          · exact fun _ none => absurd none not_mem_nil
          · exact h other mem
      · rcases mem_cons.mp mem with rfl | mem
        · exact here
        · exact ih others other mem

theorem appendOps_joined (entries : List Appended) : ∀ group ∈ appendOps entries, Joined group := by
  have fold : ∀ groups : List (List Appended), (∀ group ∈ groups, Joined group) →
      ∀ group ∈ entries.foldl (fun groups e => appendOp e groups) groups, Joined group := by
    induction entries with
    | nil => exact fun _ h => h
    | cons e rest ih => exact fun groups h => ih _ (appendOp_joined h)
  exact fold [] (by simp)

variable {first : Appended}

theorem kindOf_joined (here : EntryInv comm first) (there : EntryInv comm e) (shared : e.shared = true)
    (same : e.ptr = first.ptr) :
    kindOf e = kindOf first := by
  cases ptr : e.ptr with
  | localPeer side c =>
    obtain ⟨transport, hs, -⟩ := there.localPeer side c ptr
    obtain ⟨transport', hs', -⟩ := here.localPeer side c (same ▸ ptr)
    unfold kindOf
    rw [transport, transport', hs, hs']
    cases side <;> rfl
  | collNet side netDev =>
    have transport := there.collNet side netDev ptr
    have transport' := here.collNet side netDev (same ▸ ptr)
    simp [kindOf, transport, transport']
  | profiler forRecv c =>
    have transport := there.profiler forRecv c ptr
    have transport' := here.profiler forRecv c (same ▸ ptr)
    simp [kindOf, transport, transport']
  | own side c peer i =>
    rw [(there.own side c peer i ptr).1] at shared
    contradiction

theorem kindOf_isPsm (e : Appended) : (kindOf e).isPsm = onPsm e := by
  unfold kindOf onPsm
  cases e.transport <;> cases e.side <;> cases e.op.regp <;> rfl

theorem mem_queue_of_psm {ops : List ProxyOp} (mem : e ∈ entriesOf comm ops) (psm : onPsm e = true) :
    e.op ∈ ops := by
  obtain ⟨op, hq, here⟩ := mem_flatMap.mp mem
  have filtered := mem_filter.mpr ⟨here, psm⟩
  rcases psm_entries comm op with none | ⟨_, _, -, same⟩
  · rw [none] at filtered
    exact absurd filtered not_mem_nil
  · rw [same] at filtered
    obtain ⟨-, rfl, -, -⟩ := saveProxy_entry (mem_of_mem_filter filtered)
    exact hq

structure PsmGroup (first : Appended) (group : List Appended) : Prop where
  kind : ∀ e ∈ group, kindOf e = kindOf first
  slices : ∀ e ∈ group, e.op.sliceSteps = first.op.sliceSteps
  few : group.length ≤ Plan.maxDevWorkP2pPerBatch

theorem planGroup {plan : Plan.KernelPlan} (ops : ∀ c, Plan.P2pOps c (plan.channels c)) {more : List Appended}
    (mem : first :: more ∈ appendOps (entriesOf comm plan.proxyOpQueue)) (psm : onPsm first = true) :
    PsmGroup first (first :: more) := by
  have inside : ∀ e ∈ first :: more, e ∈ entriesOf comm plan.proxyOpQueue := fun e here =>
    (appendOps_perm _).mem_iff.mp (mem_flatten.mpr ⟨_, mem, here⟩)
  have inv : ∀ e ∈ first :: more, EntryInv comm e := by
    intro e here
    obtain ⟨op, -, ht⟩ := mem_flatMap.mp (inside e here)
    exact entry_inv ht
  have joined : ∀ e ∈ more, e.shared = true ∧ e.ptr = first.ptr ∧
      e.op.opCount = first.op.opCount := appendOps_joined _ _ mem
  have kind : ∀ e ∈ first :: more, kindOf e = kindOf first := by
    intro e here
    rcases mem_cons.mp here with rfl | hl
    · rfl
    · obtain ⟨hs, same, -⟩ := joined e hl
      exact kindOf_joined (inv first (by simp)) (inv e here) hs same
  cases more with
  | nil => exact ⟨kind, by simp, by simp [Plan.maxDevWorkP2pPerBatch]⟩
  | cons e rest =>
    obtain ⟨hs, same, -⟩ := joined e (by simp)
    -- the pointer of a shared PSM connection is that of a channel
    obtain ⟨side, c, ptr⟩ : ∃ side c, first.ptr = .localPeer side c := by
      cases ptr : first.ptr with
      | localPeer side c => exact ⟨side, c, rfl⟩
      | collNet side netDev =>
        rw [onPsm, (inv first (by simp)).collNet side netDev ptr] at psm
        contradiction
      | profiler forRecv c =>
        rw [onPsm, (inv first (by simp)).profiler forRecv c ptr] at psm
        contradiction
      | own side c peer i =>
        rw [((inv e (by simp)).own side c peer i (same.trans ptr)).1] at hs
        contradiction
    have all : ∀ e' ∈ first :: e :: rest, sharedAt side c first.op.opCount e' = true := by
      intro e' here
      rcases mem_cons.mp here with rfl | hl
      · simp [sharedAt, ptr]
      · obtain ⟨-, same, count⟩ := joined e' hl
        simp [sharedAt, same, ptr, count]
    have count : (first :: e :: rest).length ≤ (plan.channels c).posts side first.op.opCount := by
      rw [← countP_eq_length.mpr all]
      calc (first :: e :: rest).countP (sharedAt side c first.op.opCount)
          ≤ (appendOps (entriesOf comm plan.proxyOpQueue)).flatten.countP
              (sharedAt side c first.op.opCount) :=
            (sublist_flatten_of_mem mem).countP_le
        _ = (entriesOf comm plan.proxyOpQueue).countP (sharedAt side c first.op.opCount) :=
            (appendOps_perm _).countP_eq _
        _ ≤ _ := entriesOf_shared_le comm plan.proxyOpQueue side c first.op.opCount
        _ ≤ _ := plan.posts_le ops side c first.op.opCount
    have odd : first.op.opCount % 2 = 1 := by
      by_contra other
      have := (ops c).single side first.op.opCount (by omega)
      simp only [length_cons] at count
      omega
    have one : ∀ e' ∈ first :: e :: rest, e'.op.sliceSteps = 1 := by
      intro e' here
      have onPsm' : onPsm e' = true := by
        rw [← kindOf_isPsm, kind e' here, kindOf_isPsm]
        exact psm
      apply plan.queued_slices ops _ (mem_queue_of_psm (inside e' here) onPsm')
      rcases mem_cons.mp here with rfl | hl
      · exact odd
      · rw [(joined e' hl).2.2]
        exact odd
    refine ⟨kind, ?_, le_trans count ((ops c).few side first.op.opCount)⟩
    intro e' here
    rw [one e' here, one first (by simp)]

def finishes (env : Env) (e : Appended) : Bool :=
  let steps := initSteps env (kindOf e) (subOf e)
  !(kindOf e).needsSimple ||
    decide (e.op.protocol = .simple ∧ steps ≠ 0 ∧ e.op.sliceSteps ∣ steps)

theorem finishable_argsOf {env : Env} {group : List Appended} (common : PsmGroup first group)
    (psm : onPsm first = true) :
    Finishable env (argsOf first group) ↔ ∀ e ∈ group, finishes env e = true := by
  have subs : ∀ {good : Sub → Prop}, (∀ sub ∈ (start env (argsOf first group)).groups.flatten, good sub) ↔
      ∀ e ∈ group, good (initSub env (kindOf first) (subOf e)) := by
    intro good
    have perm := start_flatten env (argsOf first group)
    simp only [perm.mem_iff]
    simp [argsOf]
  unfold Finishable
  rw [show begun env (argsOf first group) = start env (argsOf first group) from rfl, subs]
  cases hn : (kindOf first).needsSimple with
  | false =>
    have one : ∀ e, (initSub env (kindOf first) (subOf e)).sound (argsOf first group).slice = true := by
      intro e
      rw [← kindOf_isPsm] at psm
      cases kind : kindOf first <;> rw [kind] at hn psm <;> first | contradiction | skip
      all_goals simp [Sub.sound, initSub, initSteps, argsOf, Args.slice, kind]
    refine ⟨fun _ e here => ?_, fun _ => ⟨by simp [argsOf, hn], fun e _ => one e⟩⟩
    simp [finishes, common.kind e here, hn]
  | true =>
    have slice : (argsOf first group).slice = first.op.sliceSteps := by
      cases kind : kindOf first <;> rw [kind] at hn <;> first | contradiction | skip
      all_goals simp [argsOf, Args.slice, kind]
    have supported : (argsOf first group).supported = true ↔ ∀ e ∈ group, e.op.protocol = .simple := by
      simp only [argsOf, hn, Bool.not_true, Bool.false_or, all_eq_true, decide_eq_true_eq]
      exact ⟨fun all e here => (all e here).1, fun all e here => ⟨all e here, common.slices e here⟩⟩
    have each : ∀ e ∈ group, finishes env e = true ↔ e.op.protocol = .simple ∧
        (initSub env (kindOf first) (subOf e)).sound first.op.sliceSteps = true := by
      intro e here
      simp only [finishes, common.kind e here, hn, common.slices e here, Sub.sound, Bool.not_true,
        Bool.false_or, decide_eq_true_eq]
      exact Iff.rfl
    rw [supported, slice]
    constructor
    · rintro ⟨hs, hso⟩ e here
      exact (each e here).mpr ⟨hs e here, hso e here⟩
    · intro all
      exact ⟨fun e here => ((each e here).mp (all e here)).1, fun e here => ((each e here).mp (all e here)).2⟩

end Vccl.Psm
