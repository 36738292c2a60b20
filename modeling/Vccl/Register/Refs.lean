import Vccl.Lib.Transition
import Vccl.Register.Cache

/-! Runs of registrations and releases: the reference counts of the entries against the
registrations that are outstanding. -/
namespace Vccl.Register

open List Transition

/-- `held` lists the registrations not released yet, as handle and kind; `cleanups` the handles
`regCleanup` was called for. Neither is in the source. -/
structure State where
  slots : List Reg
  held : List (Nat × Bool)
  cleanups : List Nat
  deriving DecidableEq

def initial : State := ⟨[], [], []⟩

variable {cfg : Config}

/-- `ncclRegister`; `ptr` is the address of a new entry, `pointerOk` what `CudaPtrCheck` says. -/
def register (cfg : Config) (s : State) (b : Buffer cfg) (isGraph : Bool) (ptr : Nat)
    (pointerOk : Bool) : State :=
  if cfg.checkPointers && !pointerOk then s
  else
    let (slots, handle) :=
      registerFrom cfg ptr (addrOf cfg b.data) (pagesOf cfg b.data b.size) isGraph s.slots
    { s with slots, held := (handle, isGraph) :: s.held }

def commRegister (cfg : Config) (s : State) (b : Buffer cfg) (ptr : Nat) (pointerOk : Bool) : State :=
  if cfg.localRegister then register cfg s b false ptr pointerOk else s

def commGraphRegister (cfg : Config) (s : State) (b : Buffer cfg) (ptr : Nat) (pointerOk : Bool) :
    State :=
  register cfg s b true ptr pointerOk

/-- `commDeregister`; `none` is the error for a handle that is not found. -/
def deregister (s : State) (isGraph : Bool) : Option Nat → Option State
  | none => some s
  | some handle =>
    (deregisterFrom handle isGraph s.slots).map fun (slots, cleaned) =>
      { slots
        held := s.held.erase (handle, isGraph)
        cleanups := if cleaned then s.cleanups ++ [handle] else s.cleanups }

inductive Call (cfg : Config) where
  | commRegister (b : Buffer cfg) (ptr : Nat) (pointerOk : Bool)
  | commGraphRegister (b : Buffer cfg) (ptr : Nat) (pointerOk : Bool)
  | commDeregister (handle : Option Nat)
  | commGraphDeregister (handle : Option Nat)

def step (cfg : Config) (s : State) : Call cfg → Option State
  | .commRegister b ptr pointerOk => some (commRegister cfg s b ptr pointerOk)
  | .commGraphRegister b ptr pointerOk => some (commGraphRegister cfg s b ptr pointerOk)
  | .commDeregister handle => deregister s false handle
  | .commGraphDeregister handle => deregister s true handle

/-- A release has a registration of its kind to release, and memory is not handed out twice. -/
def Matched (s : State) : Call cfg → Prop
  | .commRegister _ ptr _ => ∀ r ∈ s.slots, r.ptr ≠ ptr
  | .commGraphRegister _ ptr _ => ∀ r ∈ s.slots, r.ptr ≠ ptr
  | .commDeregister handle => ∀ h ∈ handle, (h, false) ∈ s.held
  | .commGraphDeregister handle => ∀ h ∈ handle, (h, true) ∈ s.held

instance (s : State) (call : Call cfg) : Decidable (Matched s call) := by
  cases call <;> unfold Matched <;> infer_instance

structure Counted (s : State) : Prop where
  counts : ∀ r ∈ s.slots, ∀ isGraph, r.refs isGraph = s.held.count (r.ptr, isGraph)
  live : ∀ r ∈ s.slots, ∃ isGraph, (r.ptr, isGraph) ∈ s.held
  known : ∀ handle isGraph, (handle, isGraph) ∈ s.held → ∃ r ∈ s.slots, r.ptr = handle

structure Inv (cfg : Config) (s : State) : Prop extends Counted s where
  sorted : Sorted s.slots
  aligned : ∀ r ∈ s.slots, r.Aligned cfg
  distinct : (s.slots.map Reg.ptr).Nodup

theorem refs_addRefs (r : Reg) (isGraph other : Bool) (n : Int) :
    (r.addRefs isGraph n).refs other = r.refs other + if other = isGraph then n else 0 := by
  cases isGraph <;> cases other <;> simp [Reg.addRefs, Reg.refs]

@[simp] theorem ptr_addRefs (r : Reg) (isGraph : Bool) (n : Int) : (r.addRefs isGraph n).ptr = r.ptr := by
  cases isGraph <;> rfl

@[simp] theorem addr_addRefs (r : Reg) (isGraph : Bool) (n : Int) : (r.addRefs isGraph n).addr = r.addr := by
  cases isGraph <;> rfl

variable {s : State} {left right : List Reg} {r : Reg}

theorem Inv.change (h : Inv cfg s) (mid new : List Reg) {held : List (Nat × Bool)} {ptr : Nat}
    (slots : s.slots = left ++ (mid ++ right)) (old : ∀ r ∈ mid, r.ptr = ptr) (apart : ∀ r ∈ left ++ right, r.ptr ≠ ptr)
    (others : ∀ handle isGraph, handle ≠ ptr → held.count (handle, isGraph) = s.held.count (handle, isGraph))
    (here : ∀ r ∈ new, r.ptr = ptr ∧ r.Aligned cfg ∧ (∀ isGraph, r.refs isGraph = held.count (ptr, isGraph)) ∧
      ∃ isGraph, (ptr, isGraph) ∈ held)
    (known : new = [] → ∀ isGraph, (ptr, isGraph) ∉ held) (short : new.length ≤ 1)
    (sorted : Sorted (left ++ (new ++ right))) (cleanups : List Nat) :
    Inv cfg ⟨left ++ (new ++ right), held, cleanups⟩ := by
  obtain ⟨⟨_, _, _⟩, -, _, hd'⟩ := h
  refine ⟨⟨?_, ?_, ?_⟩, sorted, ?_, ?_⟩
  · grind
  · grind
  · intro handle isGraph ho
    by_cases same : handle = ptr
    · obtain ⟨r, hi⟩ := exists_mem_of_ne_nil new fun none' => known none' isGraph (same ▸ ho)
      exact ⟨r, by simp [hi], (here r hi).1.trans same.symm⟩
    · grind
  · grind
  · have apart : ptr ∉ (left ++ right).map Reg.ptr := by
      simpa [or_imp, forall_and] using apart
    have distinct : ((left ++ right).map Reg.ptr).Nodup := by
      refine hd'.sublist (Sublist.map _ ?_)
      simp [slots]
    match new with
    | [] => simpa using distinct
    | [r] =>
      have same := (here r mem_cons_self).1
      simp only [singleton_append, map_append, map_cons, nodup_middle, nodup_cons, same]
      exact ⟨by simpa using apart, by simpa using distinct⟩

theorem Inv.other (h : Inv cfg s) (slots : s.slots = left ++ r :: right) : ∀ r' ∈ left ++ right, r'.ptr ≠ r.ptr := by
  have distinct := h.distinct
  rw [slots, map_append, map_cons, nodup_middle, nodup_cons, ← map_append]
    at distinct
  intro r' mem same
  exact distinct.1 (mem_map.mpr ⟨r', mem, same⟩)

theorem Inv.replace {r' : Reg} {held : List (Nat × Bool)} (h : Inv cfg s) (slots : s.slots = left ++ r :: right)
    (same : r'.ptr = r.ptr ∧ r'.addr = r.addr) (others : ∀ handle isGraph, handle ≠ r.ptr →
      held.count (handle, isGraph) = s.held.count (handle, isGraph))
    (counts : ∀ isGraph, r'.refs isGraph = held.count (r.ptr, isGraph)) (live : ∃ isGraph, (r.ptr, isGraph) ∈ held)
    (cleanups : List Nat) :
    Inv cfg ⟨left ++ r' :: right, held, cleanups⟩ := by
  have aligned := h.aligned r (by simp [slots])
  rw [Reg.Aligned, ← same.2] at aligned
  refine h.change [r] [r'] slots (by simp) (h.other slots) others ?_ (by simp) (by simp) ?_ cleanups
  · intro r'' mem
    rw [mem_singleton.mp mem]
    exact ⟨same.1, aligned, counts, live⟩
  · have sorted := h.sorted
    rw [slots] at sorted
    simpa [Sorted, pairwise_append, same.2] using sorted

theorem registerFrom_cases (cfg : Config) (ptr addr pages : Nat) (isGraph : Bool) (slots : List Reg) :
    (∃ left right, slots = left ++ right ∧ (∀ r ∈ left, r.addr ≤ addr) ∧ (∀ r ∈ right.head?, addr < r.addr) ∧
      registerFrom cfg ptr addr pages isGraph slots =
        (left ++ newReg ptr addr pages isGraph :: right, ptr)) ∨
    ∃ left r right, slots = left ++ r :: right ∧
      registerFrom cfg ptr addr pages isGraph slots = (left ++ r.addRefs isGraph 1 :: right, r.ptr) := by
  induction slots with
  | nil => exact .inl ⟨[], [], rfl, by simp, by simp, rfl⟩
  | cons first rest ih =>
    rw [registerFrom]
    split
    next hb =>
      exact .inl ⟨[], first :: rest, rfl, by simp, by simpa using hb, rfl⟩
    rename_i before
    split
    · exact .inr ⟨[], first, rest, rfl, rfl⟩
    · rcases ih with ⟨left, right, rfl, low, high, hr⟩ | ⟨left, r, right, rfl, hr⟩
      · refine .inl ⟨first :: left, right, rfl, ?_, high, by rw [hr]; rfl⟩
        refine forall_mem_cons.mpr ⟨?_, low⟩
        omega
      · exact .inr ⟨first :: left, r, right, rfl, by rw [hr]; rfl⟩

theorem Inv.insert {ptr pages : Nat} {b : Buffer cfg} (h : Inv cfg s) (isGraph : Bool)
    (unused : ∀ r ∈ s.slots, r.ptr ≠ ptr) (slots : s.slots = left ++ right)
    (low : ∀ r ∈ left, r.addr ≤ addrOf cfg b.data) (high : ∀ r ∈ right.head?, addrOf cfg b.data < r.addr) :
    Inv cfg { s with
      slots := left ++ newReg ptr (addrOf cfg b.data) pages isGraph :: right
      held := (ptr, isGraph) :: s.held } := by
  have free : ∀ isGraph, s.held.count (ptr, isGraph) = 0 := by
    intro isGraph
    refine count_eq_zero.mpr fun ho => ?_
    obtain ⟨r, mem, same⟩ := h.known ptr isGraph ho
    exact unused r mem same
  have sorted := h.sorted
  rw [slots] at sorted
  obtain ⟨first, hs, across⟩ := pairwise_append.mp sorted
  have later : ∀ r ∈ right, addrOf cfg b.data ≤ r.addr := by
    cases right with
    | nil => simp
    | cons front rest =>
      have above : addrOf cfg b.data < front.addr := high front rfl
      intro r mem
      rcases mem_cons.mp mem with rfl | mem
      · exact above.le
      · exact above.le.trans ((pairwise_cons.mp hs).1 r mem)
  refine h.change [] [newReg ptr (addrOf cfg b.data) pages isGraph] slots (by simp)
    (slots ▸ unused) ?_ ?_ (by simp) (by simp) ?_ s.cleanups
  · intro handle other hd
    exact count_cons_of_ne fun same => hd (congrArg Prod.fst same).symm
  · simp only [mem_singleton, forall_eq, newReg, ptr_addRefs, Reg.Aligned, addr_addRefs, refs_addRefs]
    refine ⟨trivial, aligned_addrOf b, ?_, isGraph, mem_cons_self⟩
    intro other
    rw [count_cons, free other]
    cases other <;> cases isGraph <;> simp [Reg.refs]
  · simp only [Sorted, singleton_append, pairwise_append, pairwise_cons, mem_cons, forall_eq_or_imp,
      newReg, addr_addRefs]
    exact ⟨first, ⟨later, hs⟩, fun r mem => ⟨low r mem, across r mem⟩⟩

theorem Inv.register (h : Inv cfg s) (b : Buffer cfg) (isGraph : Bool) {ptr : Nat} (pointerOk : Bool)
    (unused : ∀ r ∈ s.slots, r.ptr ≠ ptr) :
    Inv cfg (register cfg s b isGraph ptr pointerOk) ∧
      (register cfg s b isGraph ptr pointerOk).cleanups = s.cleanups := by
  unfold Register.register
  split
  · exact ⟨h, rfl⟩
  refine ⟨?_, rfl⟩
  rcases registerFrom_cases cfg ptr (addrOf cfg b.data) (pagesOf cfg b.data b.size) isGraph s.slots with
    ⟨left, right, slots, low, high, hr⟩ | ⟨left, r, right, slots, hr⟩
  · rw [hr]
    exact h.insert isGraph unused slots low high
  rw [hr]
  refine h.replace slots (by simp) ?_ ?_ ⟨isGraph, by simp⟩ s.cleanups
  · intro handle other hd
    exact count_cons_of_ne fun same => hd (congrArg Prod.fst same).symm
  · intro other
    rw [refs_addRefs, h.counts r (by simp [slots])]
    cases other <;> cases isGraph <;> simp

theorem deregisterFrom_found (isGraph : Bool) {slots : List Reg} (mem : r ∈ slots)
    (distinct : (slots.map Reg.ptr).Nodup) :
    ∃ left right, slots = left ++ r :: right ∧
      deregisterFrom r.ptr isGraph slots =
        if (r.addRefs isGraph (-1)).localRefs ≠ 0 ∨ (r.addRefs isGraph (-1)).graphRefs ≠ 0 then
          some (left ++ r.addRefs isGraph (-1) :: right, false)
        else some (left ++ right, true) := by
  induction slots with
  | nil => contradiction
  | cons first rest ih =>
    obtain ⟨hf, distinct⟩ := nodup_cons.mp distinct
    rcases mem_cons.mp mem with rfl | mem
    · refine ⟨[], rest, rfl, ?_⟩
      rw [deregisterFrom, if_pos rfl]
      rfl
    obtain ⟨left, right, rfl, result⟩ := ih mem distinct
    have other : first.ptr ≠ r.ptr := by
      intro same
      exact hf (mem_map.mpr ⟨r, mem, same.symm⟩)
    refine ⟨first :: left, right, rfl, ?_⟩
    rw [deregisterFrom, if_neg other, result]
    split <;> rfl

theorem Inv.remove {held : List (Nat × Bool)} (h : Inv cfg s) (slots : s.slots = left ++ r :: right)
    (others : ∀ handle isGraph, handle ≠ r.ptr →
      held.count (handle, isGraph) = s.held.count (handle, isGraph)) (gone : ∀ isGraph, (r.ptr, isGraph) ∉ held)
    (cleanups : List Nat) :
    Inv cfg ⟨left ++ right, held, cleanups⟩ := by
  refine h.change [r] [] slots (by simp) (h.other slots) others (by simp) (fun _ => gone) (by simp) ?_
    cleanups
  refine h.sorted.sublist ?_
  simp [slots]

def Released (held : List (Nat × Bool)) (handle : Nat) : Prop :=
  held.count (handle, false) = 0 ∧ held.count (handle, true) = 0

instance (held : List (Nat × Bool)) (handle : Nat) : Decidable (Released held handle) := by
  unfold Released
  infer_instance

theorem Inv.deregister (h : Inv cfg s) {handle : Nat} {isGraph : Bool} (outstanding : (handle, isGraph) ∈ s.held) :
    ∃ t, deregister s isGraph (some handle) = some t ∧ Inv cfg t ∧
      t.cleanups = s.cleanups ++ if Released t.held handle then [handle] else [] := by
  obtain ⟨r, mem, rfl⟩ := h.known handle isGraph outstanding
  obtain ⟨_, _, hs, result⟩ := deregisterFrom_found isGraph mem h.distinct
  have others : ∀ handle other, handle ≠ r.ptr →
      (s.held.erase (r.ptr, isGraph)).count (handle, other) = s.held.count (handle, other) := by
    intro handle other differs
    exact count_erase_of_ne fun same => differs (congrArg Prod.fst same)
  have counts : ∀ other, (r.addRefs isGraph (-1)).refs other =
      (s.held.erase (r.ptr, isGraph)).count (r.ptr, other) := by
    intro other
    rw [refs_addRefs, h.counts r mem]
    by_cases same : other = isGraph
    · subst same
      have pos := count_pos_iff.mpr outstanding
      rw [count_erase_self, if_pos rfl]
      omega
    · have differs : (r.ptr, other) ≠ (r.ptr, isGraph) := fun pair => same (congrArg Prod.snd pair)
      rw [count_erase_of_ne differs, if_neg same, add_zero]
  have locals : (r.addRefs isGraph (-1)).localRefs = _ := counts false
  have graphs : (r.addRefs isGraph (-1)).graphRefs = _ := counts true
  simp only [Register.deregister, result]
  by_cases some' : (r.addRefs isGraph (-1)).localRefs ≠ 0 ∨ (r.addRefs isGraph (-1)).graphRefs ≠ 0
  · rw [if_pos some']
    refine ⟨_, rfl, h.replace hs (by simp) others counts ?_ _, ?_⟩
    · rcases some' with hn | hn
      · exact ⟨false, count_pos_iff.mp (by omega)⟩
      · exact ⟨true, count_pos_iff.mp (by omega)⟩
    · have pending : ¬ Released (s.held.erase (r.ptr, isGraph)) r.ptr := by
        unfold Released
        omega
      simp [pending]
  · rw [if_neg some']
    have zero : Released (s.held.erase (r.ptr, isGraph)) r.ptr := by
      unfold Released
      omega
    refine ⟨_, rfl, h.remove hs others ?_ _, by simp [zero]⟩
    intro other
    refine count_eq_zero.mp ?_
    cases other
    · exact zero.1
    · exact zero.2

def cleanedBy (held : List (Nat × Bool)) : Call cfg → List Nat
  | .commDeregister (some handle) => if Released held handle then [handle] else []
  | .commGraphDeregister (some handle) => if Released held handle then [handle] else []
  | _ => []

theorem inv_step {call : Call cfg} (h : Inv cfg s) (matched : Matched s call) :
    ∃ t, step cfg s call = some t ∧ Inv cfg t ∧ t.cleanups = s.cleanups ++ cleanedBy t.held call := by
  cases call with
  | commRegister b ptr pointerOk =>
    refine ⟨_, rfl, ?_⟩
    unfold commRegister
    split
    · simpa [cleanedBy] using h.register b false pointerOk matched
    · exact ⟨h, by simp [cleanedBy]⟩
  | commGraphRegister b ptr pointerOk =>
    refine ⟨_, rfl, ?_⟩
    unfold commGraphRegister
    simpa [cleanedBy] using h.register b true pointerOk matched
  | commDeregister handle =>
    cases handle with
    | none => exact ⟨s, rfl, h, by simp [cleanedBy]⟩
    | some handle => exact h.deregister (matched handle rfl)
  | commGraphDeregister handle =>
    cases handle with
    | none => exact ⟨s, rfl, h, by simp [cleanedBy]⟩
    | some handle => exact h.deregister (matched handle rfl)

theorem inv_initial (cfg : Config) : Inv cfg initial := by
  constructor <;> simp [initial, Sorted]
  constructor <;> simp

/-- After matched calls, none of which fails: the entries are sorted, counted and found, and the next
call cleans up the entry whose last registration it releases and no other. -/
theorem registrations_consistent (cfg : Config) (calls : List (Call cfg))
    (matched : Meets (step cfg) Matched initial calls) :
    ∃ s, run (step cfg) initial calls = some s ∧ Sorted s.slots ∧ Counted s ∧
      (∀ b, FindsCovering cfg s.slots b) ∧
      ∀ call, Matched s call → ∃ t, step cfg s call = some t ∧
        t.cleanups = s.cleanups ++ cleanedBy t.held call := by
  have step_inv : ∀ s call, Inv cfg s → Matched s call → ∃ t, step cfg s call = some t ∧ Inv cfg t := by
    intro s call h matched
    obtain ⟨t, hs, inv, -⟩ := inv_step h matched
    exact ⟨t, hs, inv⟩
  obtain ⟨s, ran, h⟩ := run_succeeds (Inv cfg) step_inv calls (inv_initial cfg) matched
  refine ⟨s, ran, h.sorted, h.toCounted, regFind_covering h.sorted h.aligned, ?_⟩
  intro call matched
  obtain ⟨t, hs, -, cleaned⟩ := inv_step h matched
  exact ⟨t, hs, cleaned⟩

/- A buffer inside another one shares its entry; the graph's registration outlives the user's. -/
def nested : List (Call smallPages) :=
  [.commRegister ⟨8192, 16384, by decide⟩ 1 true, .commGraphRegister ⟨12300, 100, by decide⟩ 2 true,
    .commGraphRegister ⟨4096, 4096, by decide⟩ 2 true, .commDeregister (some 1), .commGraphDeregister (some 1)]

theorem nested_consistent :
    ∃ s, run (step smallPages) initial nested = some s ∧ s.slots = [⟨2, 4096, 1, 0, 1⟩] ∧
      s.cleanups = [1] ∧ Sorted s.slots ∧ Counted s := by
  have ran : run (step smallPages) initial nested =
      some ⟨[⟨2, 4096, 1, 0, 1⟩], [(2, true)], [1]⟩ := by decide +kernel
  obtain ⟨s, ran', hs, hc, -⟩ := registrations_consistent smallPages nested (by decide +kernel)
  obtain rfl := Option.some.inj (ran.symm.trans ran')
  exact ⟨_, ran, rfl, rfl, hs, hc⟩

end Vccl.Register
