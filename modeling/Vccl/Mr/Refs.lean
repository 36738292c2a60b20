import Vccl.Lib.Transition
import Vccl.Mr.Cache

/-! The reference counts of the memory regions against the handles that are live. -/
namespace Vccl.Mr

open List Function Transition Option

def refsOf (slots : List Slot) (mr : Nat) : Nat :=
  ((slots.filter fun slot => slot.mr = mr).map Slot.refs).sum

@[simp] theorem refsOf_cons (slot : Slot) (rest : List Slot) (mr : Nat) :
    refsOf (slot :: rest) mr = (if slot.mr = mr then slot.refs else 0) + refsOf rest mr := by
  unfold refsOf
  by_cases here : slot.mr = mr <;> simp [here]

variable {slots slots' : List Slot}

theorem refsOf_perm (same : slots.Perm slots') (mr : Nat) :
    refsOf slots mr = refsOf slots' mr :=
  ((same.filter _).map _).sum_eq

@[mk_iff]
structure Sound (slots : List Slot) : Prop where
  distinct : (slots.map Slot.mr).Nodup
  used : ∀ slot ∈ slots, 0 < slot.refs

variable {mr : Nat}

theorem refsOf_eq_zero (absent : ∀ slot ∈ slots, slot.mr ≠ mr) :
    refsOf slots mr = 0 := by
  induction slots with
  | nil => rfl
  | cons slot rest ih =>
    rw [refsOf_cons, if_neg (absent slot (by simp)), ih fun other mem => absent other (by simp [mem])]

variable {slot : Slot} {front back : List Slot}

theorem refsOf_middle (mr : Nat) :
    refsOf (front ++ slot :: back) mr = (if mr = slot.mr then slot.refs else 0) + refsOf (front ++ back) mr := by
  simp only [refsOf_perm perm_middle, refsOf_cons, eq_comm]

theorem Sound.middle : Sound (front ++ slot :: back) ↔
    Sound (front ++ back) ∧ 0 < slot.refs ∧ ∀ other ∈ front ++ back, other.mr ≠ slot.mr := by
  have moved : (front ++ slot :: back).Perm (slot :: (front ++ back)) := perm_middle
  simp only [sound_iff, (moved.map Slot.mr).nodup_iff, map_cons, nodup_cons, moved.mem_iff, forall_mem_cons,
    List.mem_map, not_exists, not_and]
  tauto

theorem Sound.refsOf_mem (h : Sound slots) (mem : slot ∈ slots) :
    refsOf slots slot.mr = slot.refs := by
  obtain ⟨front, back, rfl⟩ := append_of_mem mem
  rw [refsOf_middle, if_pos rfl, refsOf_eq_zero (Sound.middle.mp h).2.2, Nat.add_zero]

theorem Sound.mem_of_refsOf (some' : refsOf slots mr ≠ 0) :
    ∃ slot ∈ slots, slot.mr = mr := by
  by_contra none'
  push Not at none'
  exact some' (refsOf_eq_zero none')

theorem Sound.of_perm (h : Sound slots) (same : slots.Perm slots') :
    Sound slots' :=
  ⟨(same.map Slot.mr).nodup_iff.mp h.distinct, fun slot mem => h.used slot (same.mem_iff.mpr mem)⟩

theorem Sound.eq_nil (h : Sound slots) (none' : ∀ mr, refsOf slots mr = 0) :
    slots = [] := by
  cases slots with
  | nil => rfl
  | cons slot rest =>
    have used := h.used slot (by simp)
    rw [← h.refsOf_mem (mem_cons_self ..), none'] at used
    omega

theorem register_cases {pageSize addr pages : Nat} {fresh : Option Nat}
    (registered : register pageSize addr pages fresh slots = some (slots', mr)) :
    (∃ front slot back, slots = front ++ slot :: back ∧
        slots' = front ++ { slot with refs := slot.refs + 1 } :: back ∧ mr = slot.mr) ∨
      (fresh = some mr ∧ ∃ front back, slots = front ++ back ∧ slots' = front ++ ⟨addr, pages, 1, mr⟩ :: back ∧
        (∀ other ∈ front, other.addr ≤ addr) ∧ ∀ other ∈ back.head?, addr < other.addr) := by
  induction slots generalizing slots' with
  | nil =>
    obtain ⟨m, hf, same⟩ := map_eq_some_iff.mp registered
    cases same
    exact .inr ⟨hf, [], [], rfl, rfl, nofun, nofun⟩
  | cons slot rest ih =>
    simp only [register] at registered
    split at registered
    next hb =>
      obtain ⟨m, hf, same⟩ := map_eq_some_iff.mp registered
      cases same
      exact .inr ⟨hf, [], slot :: rest, rfl, rfl, nofun, by simpa using hb⟩
    next ha =>
      split at registered
      · cases registered
        exact .inl ⟨[], slot, rest, rfl, rfl, rfl⟩
      obtain ⟨⟨_, m⟩, hl, same⟩ := map_eq_some_iff.mp registered
      simp only [Prod.mk.injEq] at same
      obtain ⟨rfl, rfl⟩ := same
      rcases ih hl with ⟨front, old, back, rfl, rfl, rfl⟩ | ⟨hf, front, back, rfl, rfl, low, high⟩
      · exact .inl ⟨slot :: front, old, back, rfl, rfl, rfl⟩
      · exact .inr ⟨hf, slot :: front, back, rfl, rfl, forall_mem_cons.mpr ⟨Nat.not_lt.mp ha, low⟩, high⟩

theorem register_spec {pageSize addr pages : Nat} {fresh : Option Nat} (h : Sound slots)
    (new : ∀ m ∈ fresh, ∀ slot ∈ slots, slot.mr ≠ m)
    (registered : register pageSize addr pages fresh slots = some (slots', mr)) :
    Sound slots' ∧ (∀ m, refsOf slots' m = refsOf slots m + if m = mr then 1 else 0) ∧
      ((∃ slot ∈ slots, slot.mr = mr) ∨ fresh = some mr) := by
  rcases register_cases registered with ⟨front, slot, back, rfl, rfl, rfl⟩ | ⟨hf, front, back, rfl, rfl, -⟩
  · obtain ⟨ho, _, ha⟩ := Sound.middle.mp h
    refine ⟨Sound.middle.mpr ⟨ho, Nat.succ_pos _, ha⟩, ?_, .inl ⟨slot, by simp, rfl⟩⟩
    intro m
    simp only [refsOf_middle]
    split <;> omega
  · refine ⟨Sound.middle.mpr ⟨h, Nat.zero_lt_one, new mr hf⟩, ?_, .inr hf⟩
    intro m
    rw [refsOf_middle, Nat.add_comm]

def moved (back : List Slot) : List Slot := back.getLast?.toList ++ back.dropLast

theorem moved_perm (back : List Slot) : (moved back).Perm back := by
  rcases eq_nil_or_concat back with rfl | ⟨back, _, rfl⟩
  · rfl
  · simp only [moved, concat_eq_append, getLast?_concat, dropLast_concat]
    exact perm_append_comm

theorem deregister_append (before : ∀ other ∈ front, other.mr ≠ slot.mr) :
    deregister slot.mr (front ++ slot :: back) =
      some (if slot.refs = 1 then (front ++ moved back, true)
        else (front ++ { slot with refs := slot.refs - 1 } :: back, false)) := by
  have nowhere : front.findIdx? (fun other => other.mr = slot.mr) = none := by
    simpa [findIdx?_eq_none_iff] using before
  have position : (front ++ slot :: back).findIdx? (fun other => other.mr = slot.mr) = some front.length := by
    simp [nowhere, findIdx?_cons]
  have here : (front ++ slot :: back)[front.length]? = some slot := by simp
  unfold deregister
  rw [if_neg (by simp), position]
  rcases eq_nil_or_concat back with rfl | ⟨back, last, rfl⟩
  · simp only [here, getLast?_concat]
    split <;> simp [moved]
  have end' : (front ++ slot :: back.concat last).getLast? = some last := by
    rw [concat_eq_append, ← cons_append, ← append_assoc, getLast?_concat]
  have kept : (front ++ last :: (back ++ [last])).dropLast = front ++ last :: back := by
    rw [← cons_append, ← append_assoc, dropLast_concat]
  simp only [here, end']
  split <;> simp [moved, kept]

theorem deregister_spec (h : Sound slots) (some' : refsOf slots mr ≠ 0) :
    ∃ slots' gone, deregister mr slots = some (slots', gone) ∧ Sound slots' ∧
      (∀ m, refsOf slots m = refsOf slots' m + if m = mr then 1 else 0) ∧
      (gone = true ↔ refsOf slots' mr = 0) := by
  obtain ⟨slot, ht, rfl⟩ := Sound.mem_of_refsOf some'
  obtain ⟨front, back, rfl⟩ := append_of_mem ht
  obtain ⟨ho, _, ha⟩ := Sound.middle.mp h
  have absent : refsOf (front ++ back) slot.mr = 0 := refsOf_eq_zero ha
  rw [deregister_append fun other hi => ha other (mem_append_left _ hi)]
  split
  next last =>
    have perm := (moved_perm back).append_left front
    refine ⟨_, true, rfl, ho.of_perm perm.symm, ?_, ?_⟩
    · intro m
      rw [refsOf_perm perm, refsOf_middle, last, Nat.add_comm]
    · rw [refsOf_perm perm, absent]
      simp
  next more =>
    have some'' : 0 < slot.refs - 1 := by omega
    refine ⟨_, false, rfl, Sound.middle.mpr ⟨ho, some'', ha⟩, ?_, ?_⟩
    · intro m
      simp only [refsOf_middle]
      split <;> omega
    · rw [refsOf_middle, if_pos rfl]
      simp only [Bool.false_eq_true, false_iff]
      omega

structure Counted (s : State) (holds : List Region) : Prop where
  sound : ∀ dev, Sound (s.caches dev)
  counts : ∀ r : Region, refsOf (s.caches r.1) r.2 = holds.count r
  fresh : ∀ dev, ∀ slot ∈ s.caches dev, slot.mr < s.nextMr
  names : ∀ r ∈ s.registered, r.2 < s.nextMr
  cached : ∀ dev, ∀ slot ∈ s.caches dev, (dev, slot.mr) ∈ s.registered
  gone : ∀ r ∈ s.registered, r ∈ s.deregistered ↔ refsOf (s.caches r.1) r.2 = 0
  past : s.deregistered ⊆ s.registered
  once : s.deregistered.Nodup

def SameConns (s s' : State) : Prop :=
  ∃ caches nextMr registered deregistered, s' = { s with caches, nextMr, registered, deregistered }

theorem SameConns.trans {s t u : State} (first : SameConns s t) (second : SameConns t u) : SameConns s u := by
  obtain ⟨_, _, _, _, rfl⟩ := first
  obtain ⟨_, _, _, _, rfl⟩ := second
  exact ⟨_, _, _, _, rfl⟩

theorem register_some (pageSize addr pages mr : Nat) (slots : List Slot) :
    ∃ result, register pageSize addr pages (some mr) slots = some result := by
  induction slots with
  | nil => exact ⟨_, rfl⟩
  | cons slot rest ih =>
    obtain ⟨result, same⟩ := ih
    simp only [register, same]
    split
    · exact ⟨_, rfl⟩
    · split
      all_goals exact ⟨_, rfl⟩

section

variable {s s' : State} {holds : List Region} {pageSize addr pages dev : Nat} {ok : Bool} {region : Region} {holds' : List Region}

theorem Counted.change {slots : List Slot} {nextMr : Nat} {registered deregistered : List Region}
    (h : Counted s holds) (sound : Sound slots)
    (counts : ∀ r : Region, refsOf (update s.caches dev slots r.1) r.2 = holds'.count r)
    (cached : ∀ slot ∈ slots, (dev, slot.mr) ∈ registered) (more : s.registered ⊆ registered)
    (names : ∀ r ∈ registered, r.2 < nextMr) (gone : ∀ r ∈ registered, r ∈ deregistered ↔ holds'.count r = 0)
    (past : deregistered ⊆ registered) (once : deregistered.Nodup) :
    Counted { s with caches := update s.caches dev slots, nextMr, registered, deregistered } holds' := by
  have cached' : ∀ d, ∀ slot ∈ update s.caches dev slots d, (d, slot.mr) ∈ registered := by
    intro d slot mem
    by_cases here : d = dev
    · subst here
      exact cached slot (by simpa using mem)
    · exact more (h.cached d slot (by simpa [here] using mem))
  refine ⟨?_, counts, fun d slot mem => names _ (cached' d slot mem), names, cached', ?_, past, once⟩
  · intro d
    by_cases here : d = dev
    · subst here
      simpa using sound
    · simpa [here] using h.sound d
  · intro r mem
    rw [counts r]
    exact gone r mem

theorem Counted.registered_of_held (h : Counted s holds) {r : Region} (held : holds.count r ≠ 0) :
    r ∈ s.registered ∧ r ∉ s.deregistered := by
  obtain ⟨slot, hi, same⟩ := Sound.mem_of_refsOf (h.counts r ▸ held)
  have known := h.cached r.1 slot hi
  rw [same] at known
  exact ⟨known, fun past => held (h.counts r ▸ (h.gone r known).mp past)⟩

theorem take_counted (h : Counted s holds)
    (taken : s.take pageSize addr pages ok dev = some (s', region)) :
    Counted s' (region :: holds) ∧ region.1 = dev ∧ SameConns s s' := by
  obtain ⟨⟨slots, mr⟩, hr, same⟩ := map_eq_some_iff.mp taken
  obtain ⟨rfl, rfl⟩ := same
  have new : ∀ m ∈ (if ok then some s.nextMr else none), ∀ slot ∈ s.caches dev, slot.mr ≠ m := by
    have fresh := h.fresh dev
    grind
  obtain ⟨hs, _, from'⟩ := register_spec (h.sound dev) new hr
  have counts (r : Region) : refsOf (update s.caches dev slots r.1) r.2 =
      ((dev, mr) :: holds).count r := by
    have old := h.counts
    grind
  -- A region that was not in the cache is the one the driver made.
  have made : mr = s.nextMr ∨ (dev, mr) ∈ s.registered ∧ (dev, mr) ∉ s.deregistered := by
    by_cases new : mr = s.nextMr
    · exact .inl new
    · obtain ⟨slot, hi, rfl⟩ := from'.resolve_right (by grind)
      have used := (h.sound dev).used slot hi
      rw [← (h.sound dev).refsOf_mem hi, h.counts (dev, slot.mr)] at used
      exact .inr (h.registered_of_held (Nat.ne_of_gt used))
  have names := h.names
  refine ⟨h.change hs counts ?_ ?_ ?_ ?_ ?_ h.once, rfl, _, _, _, _, rfl⟩
  · intro slot mem
    have used := hs.used slot mem
    rw [← hs.refsOf_mem mem] at used
    have held := @Counted.registered_of_held _ _ h (dev, slot.mr)
    rw [← h.counts] at held
    grind
  · grind
  · grind
  · intro r mem
    have gone := h.gone r
    have past := @h.past r
    grind
  · have past := @h.past
    grind

theorem take_some (s : State) (pageSize addr pages dev : Nat) :
    ∃ result, s.take pageSize addr pages true dev = some result := by
  obtain ⟨result, same⟩ := register_some pageSize addr pages s.nextMr (s.caches dev)
  exact ⟨_, by rw [State.take, if_pos rfl, same]; rfl⟩

theorem Counted.perm (h : Counted s holds) (same : holds.Perm holds') :
    Counted s holds' :=
  { h with counts := fun r => (h.counts r).trans (same.count_eq r) }

variable {ok : Nat → Bool} {regions : List Region} {i : Nat}

theorem takeAll_counted {devices : List Nat} (h : Counted s holds)
    (taken : s.takeAll pageSize addr pages ok i devices = (s', some regions)) :
    Counted s' (regions ++ holds) ∧ regions.map Prod.fst = devices ∧ SameConns s s' := by
  induction devices generalizing s holds i regions with
  | nil =>
    simp only [State.takeAll, Prod.mk.injEq, some.injEq] at taken
    obtain ⟨rfl, rfl⟩ := taken
    exact ⟨h, rfl, _, _, _, _, rfl⟩
  | cons dev rest ih =>
    simp only [State.takeAll] at taken
    split at taken
    · cases taken
    rename_i s₁ region one
    obtain ⟨hc, here, same⟩ := take_counted h one
    split at taken
    · cases taken
    next s₂ more all =>
      obtain ⟨rfl, rfl⟩ := taken
      obtain ⟨hc', devices, same'⟩ := ih hc all
      refine ⟨hc'.perm perm_middle, ?_, same.trans same'⟩
      rw [map_cons, here, devices]

theorem takeAll_failed {devices : List Nat} (later : ∀ i, 0 < i → ok i = true)
    (failed : s.takeAll pageSize addr pages ok 0 devices = (s', none)) : s' = s := by
  have succeeds (rest : List Nat) (i : Nat) (t : State) (pos : 0 < i) :
      (t.takeAll pageSize addr pages ok i rest).2 ≠ none := by
    induction rest generalizing i t with
    | nil => simp [State.takeAll]
    | cons dev rest ih =>
      obtain ⟨⟨t', region⟩, one⟩ := take_some t pageSize addr pages dev
      have more := ih (i + 1) t' (Nat.succ_pos i)
      simp only [State.takeAll, later i pos, one]
      split
      next none' =>
        rw [none'] at more
        exact absurd rfl more
      · simp
  cases devices with
  | nil => simp [State.takeAll] at failed
  | cons dev rest =>
    simp only [State.takeAll] at failed
    split at failed
    · exact (Prod.mk.inj failed).1.symm
    rename_i t region one
    have more := succeeds rest 1 t Nat.zero_lt_one
    split at failed
    next none' =>
      rw [none'] at more
      exact absurd rfl more
    · cases failed

theorem giveBack_counted (h : Counted s (region :: holds)) :
    ∃ s', s.giveBack true region = (s', true) ∧ Counted s' holds ∧ SameConns s s' := by
  obtain ⟨dev, mr⟩ := region
  obtain ⟨_, inUse⟩ := h.registered_of_held (r := (dev, mr)) (by simp)
  have some' : refsOf (s.caches dev) mr ≠ 0 := by simp [h.counts (dev, mr)]
  obtain ⟨slots, gone, hf, hs, refs, _⟩ := deregister_spec (h.sound dev) some'
  have counts (r : Region) : refsOf (update s.caches dev slots r.1) r.2 = holds.count r := by
    have old := h.counts
    grind
  have cached : ∀ slot ∈ slots, (dev, slot.mr) ∈ s.registered := by
    intro slot mem
    have used := hs.used slot mem
    rw [← hs.refsOf_mem mem] at used
    have one := refs slot.mr
    rw [h.counts (dev, slot.mr)] at one
    exact (h.registered_of_held (by omega)).1
  -- Only the count of this region may have come to zero.
  have others : ∀ r ∈ s.registered, r ≠ (dev, mr) → (r ∈ s.deregistered ↔ holds.count r = 0) := by
    intro r mem other
    rw [h.gone r mem, h.counts r, count_cons_of_ne (Ne.symm other)]
  unfold State.giveBack
  simp only [hf]
  have past := @h.past
  cases gone with
  | true =>
    refine ⟨_, rfl, h.change hs counts cached (fun _ => id) h.names ?_ ?_ ?_, _, _, _, _, rfl⟩
    · grind
    · grind
    · simpa [nodup_append, h.once] using fun d m past => fun (same : (d, m) = (dev, mr)) => inUse (same ▸ past)
  | false =>
    refine ⟨_, rfl, h.change hs counts cached (fun _ => id) h.names ?_ h.past h.once, _, _, _, _, rfl⟩
    grind

theorem giveBackAll_counted (fine : ∀ i, ok i = true) (h : Counted s (regions ++ holds)) :
    ∃ s', s.giveBackAll ok i regions = (s', true) ∧ Counted s' holds ∧ SameConns s s' := by
  induction regions generalizing s i with
  | nil => exact ⟨s, rfl, h, _, _, _, _, rfl⟩
  | cons region rest ih =>
    obtain ⟨t, hg, hc, same⟩ := giveBack_counted h
    obtain ⟨s', all, hc', same'⟩ := ih (i := i + 1) hc
    refine ⟨s', ?_, hc', same.trans same'⟩
    simp [State.giveBackAll, fine i, hg, all]

theorem destroyBase_counted (h : Counted s holds) (dev : Nat) (unused : s.pdRefs dev = 1 → ∀ r ∈ holds, r.1 ≠ dev)
    (some' : 0 < s.pdRefs dev) :
    s.destroyBase dev = { s with pdRefs := update s.pdRefs dev (s.pdRefs dev - 1) } := by
  unfold State.destroyBase
  simp only [update_self]
  split
  next last =>
    have empty : s.caches dev = [] := by
      refine (h.sound dev).eq_nil ?_
      intro mr
      rw [h.counts (dev, mr), count_eq_zero]
      intro mem
      exact unused (by omega) _ mem rfl
    have same : update s.caches dev [] = s.caches := by
      rw [← empty, update_eq_self]
    rw [empty, map_nil, append_nil, same]
  · rfl

end

def State.holds (s : State) : List Region := s.live.flatMap Handle.mrs

structure Inv (conns : Nat → Conn) (s : State) : Prop where
  counted : Counted s s.holds
  handles : ∀ h ∈ s.live, h.conn ∈ s.opened ∧ h.mrs.map Prod.fst = (conns h.conn).devices ∧
    (conns h.conn).devices.Nodup
  pds : ∀ dev, s.pdRefs dev = (s.opened.flatMap fun c => (conns c).devices).count dev

section

variable {conns : Nat → Conn} {pageSize : Nat} {s s' : State}

theorem inv_initial (conns : Nat → Conn) : Inv conns initial := by
  refine ⟨⟨fun _ => ⟨nodup_nil, ?_⟩, fun _ => rfl, ?_, ?_, ?_, ?_, ?_, nodup_nil⟩, ?_, fun _ => rfl⟩
  all_goals simp [initial]

/-- What is asked of a call. A registration does not fail after the first of its regions, the devices
of a connection are different, the driver deregisters what it is told to, and a connection is closed
after its handles. -/
def Ok (conns : Nat → Conn) (s : State) : Action → Prop
  | .connect _ => True
  | .close c => ∀ h ∈ s.live, h.conn ≠ c
  | .regMr c _ _ ok => (∀ i, 0 < i → ok i = true) ∧ (conns c).devices.Nodup
  | .deregMr _ ok => ∀ i, ok i = true

theorem Inv.connect (h : Inv conns s) (c : Nat) :
    Inv conns (call conns pageSize s (.connect c)).1 := by
  obtain ⟨hc, handles, pds⟩ := h
  refine ⟨{ hc with }, ?_, ?_⟩
  · intro h mem
    obtain ⟨hi, rest⟩ := handles h mem
    exact ⟨mem_cons_of_mem c hi, rest⟩
  · intro dev
    simp only [call, flatMap_cons, count_append, pds dev]
    omega

theorem destroyBases_counted {holds : List Region} (devices : List Nat) (rest : List Nat)
    (h : Counted s holds) (pds : ∀ dev, s.pdRefs dev = (devices ++ rest).count dev)
    (held : ∀ r ∈ holds, r.1 ∈ rest) :
    Counted (devices.foldl State.destroyBase s) holds ∧
      (devices.foldl State.destroyBase s).live = s.live ∧
      (devices.foldl State.destroyBase s).opened = s.opened ∧
      ∀ dev, (devices.foldl State.destroyBase s).pdRefs dev = rest.count dev := by
  induction devices generalizing s with
  | nil => exact ⟨h, rfl, rfl, pds⟩
  | cons dev devices ih =>
    have here := pds dev
    rw [cons_append, count_cons_self, count_append] at here
    have destroyed := destroyBase_counted h dev (by
      intro last r mem same
      have none' : rest.count dev = 0 := by omega
      exact count_eq_zero.mp none' (same ▸ held r mem)) (by omega)
    rw [foldl_cons, destroyed]
    refine ih { h with } ?_
    intro d
    simp only
    by_cases same : d = dev
    · subst same
      rw [update_self, count_append]
      omega
    · rw [update_of_ne same, pds d, cons_append, count_cons_of_ne (Ne.symm same)]

theorem Inv.close (h : Inv conns s) {c : Nat} (opened : c ∈ s.opened) (unused : ∀ h ∈ s.live, h.conn ≠ c) :
    Inv conns (call conns pageSize s (.close c)).1 := by
  obtain ⟨hc, handles, pds⟩ := h
  have others {h : Handle} (mem : h ∈ s.live) : h.conn ∈ s.opened.erase c :=
    (mem_erase_of_ne (unused h mem)).mpr (handles h mem).1
  obtain ⟨hc', live, ho', pds'⟩ := destroyBases_counted
    (s := { s with opened := s.opened.erase c }) (conns c).devices
    ((s.opened.erase c).flatMap fun c => (conns c).devices) { hc with } (by
      intro dev
      have perm := (perm_cons_erase opened).flatMap_right fun c => (conns c).devices
      rw [flatMap_cons] at perm
      rw [← perm.count_eq]
      exact pds dev) (by
      intro r mem
      obtain ⟨h, hi, ht⟩ := mem_flatMap.mp mem
      refine mem_flatMap.mpr ⟨h.conn, others hi, ?_⟩
      rw [← (handles h hi).2.1]
      exact mem_map_of_mem ht)
  refine ⟨?_, ?_, ?_⟩
  · unfold State.holds call
    rw [live]
    exact hc'
  · intro h mem
    simp only [call, live] at mem
    simp only [call, ho']
    exact ⟨others mem, (handles h mem).2⟩
  · intro dev
    simp only [call, ho']
    exact pds' dev

variable {ok : Nat → Bool}

theorem Inv.regMr (h : Inv conns s) (pageSize : Nat) {c : Nat} (data size : Nat) (opened : c ∈ s.opened)
    (later : ∀ i, 0 < i → ok i = true) (distinct : (conns c).devices.Nodup) :
    Inv conns (call conns pageSize s (.regMr c data size ok)).1 ∧
      ((call conns pageSize s (.regMr c data size ok)).2 = false →
        (call conns pageSize s (.regMr c data size ok)).1 = s) := by
  simp only [call]
  split
  next t hf =>
    rw [takeAll_failed later hf]
    exact ⟨h, fun _ => rfl⟩
  rename_i t regions taken
  obtain ⟨hc, devices, _, _, _, _, rfl⟩ := takeAll_counted h.counted taken
  refine ⟨⟨{ hc with }, ?_, h.pds⟩, fun hf => by cases hf⟩
  exact forall_mem_cons.mpr ⟨⟨opened, devices, distinct⟩, h.handles⟩

theorem Inv.deregMr (h : Inv conns s) (pageSize : Nat) {handle : Handle} (mem : handle ∈ s.live)
    (fine : ∀ i, ok i = true) :
    Inv conns (call conns pageSize s (.deregMr handle ok)).1 ∧
      (call conns pageSize s (.deregMr handle ok)).2 = true := by
  have perm : s.holds.Perm (handle.mrs ++ (s.live.erase handle).flatMap Handle.mrs) := by
    have moved := (perm_cons_erase mem).flatMap_right Handle.mrs
    rwa [flatMap_cons] at moved
  obtain ⟨_, hg, hc, _, _, _, _, rfl⟩ := giveBackAll_counted fine (i := 0) (h.counted.perm perm)
  simp only [call, hg]
  exact ⟨⟨{ hc with }, fun h' old => h.handles h' (mem_of_mem_erase old), h.pds⟩, trivial⟩

theorem call_inv (h : Inv conns s) {action : Action} (ok : Ok conns s action)
    (possible : enabled s action = true) :
    Inv conns (call conns pageSize s action).1 ∧
      ((call conns pageSize s action).2 = false → (call conns pageSize s action).1.caches = s.caches) := by
  cases action with
  | connect c => exact ⟨h.connect c, fun hf => by cases hf⟩
  | close c =>
    have opened : c ∈ s.opened := by simpa [enabled] using possible
    exact ⟨h.close opened ok, fun hf => by cases hf⟩
  | regMr c data size answers =>
    have opened : c ∈ s.opened := by simpa [enabled] using possible
    obtain ⟨inv, kept⟩ := h.regMr pageSize data size opened ok.1 ok.2
    exact ⟨inv, fun hf => by rw [kept hf]⟩
  | deregMr handle answers =>
    have mem : handle ∈ s.live := by simpa [enabled] using possible
    obtain ⟨inv, hs⟩ := h.deregMr pageSize mem ok
    exact ⟨inv, fun hf => by rw [hs] at hf; cases hf⟩

/-- The counts are those of the live handles, and a region is deregistered when no handle has it. -/
structure Consistent (s : State) : Prop where
  counts : ∀ dev, ∀ slot ∈ s.caches dev,
    slot.refs = s.live.countP fun h => decide ((dev, slot.mr) ∈ h.mrs)
  cached : ∀ h ∈ s.live, ∀ r ∈ h.mrs, ∃ slot ∈ s.caches r.1, slot.mr = r.2
  released : ∀ r ∈ s.registered,
    r ∈ s.deregistered ↔ (s.live.countP fun h => decide (r ∈ h.mrs)) = 0
  once : s.deregistered.Nodup

theorem Inv.count_holds (h : Inv conns s) (r : Region) :
    s.holds.count r = s.live.countP fun h => decide (r ∈ h.mrs) := by
  have distinct : ∀ h ∈ s.live, h.mrs.Nodup := by
    intro h' mem
    obtain ⟨-, hd, nodup⟩ := h.handles h' mem
    rw [← hd] at nodup
    exact Nodup.of_map _ nodup
  unfold State.holds
  generalize s.live = live at distinct
  induction live with
  | nil => rfl
  | cons h' rest ih =>
    rw [flatMap_cons, count_append, ih fun other mem => distinct other (by simp [mem])]
    have once := distinct h' (by simp)
    by_cases hi : r ∈ h'.mrs
    · rw [count_eq_one_of_mem once hi]
      simp [hi, Nat.add_comm]
    · rw [count_eq_zero.mpr hi]
      simp [hi]

theorem Inv.consistent (h : Inv conns s) : Consistent s := by
  have counted := h.counted
  refine ⟨?_, ?_, ?_, counted.once⟩
  · intro dev slot mem
    rw [← h.count_holds, ← counted.counts (dev, slot.mr)]
    exact ((counted.sound dev).refsOf_mem mem).symm
  · intro h' mem r hi
    refine Sound.mem_of_refsOf ?_
    rw [counted.counts r]
    have held : r ∈ s.holds := mem_flatMap.mpr ⟨h', mem, hi⟩
    have := count_pos_iff.mpr held
    omega
  · intro r hk
    rw [counted.gone r hk, counted.counts r, h.count_holds]

theorem mr_refs_of_live_handles (conns : Nat → Conn) (pageSize : Nat) (actions : List Action) (s : State)
    (admitted : Meets (step conns pageSize) (Ok conns) initial actions)
    (ran : run (step conns pageSize) initial actions = some s) :
    Consistent s ∧ ∀ action, Ok conns s action → enabled s action = true →
      (call conns pageSize s action).2 = false → (call conns pageSize s action).1.caches = s.caches := by
  have inv : Inv conns s := by
    refine run_invariant (Inv conns) ?_ actions (inv_initial conns) admitted ran
    intro t action t' inv ok hs
    obtain ⟨hp, ⟨⟩⟩ := ite_none_right_eq_some.mp hs
    exact (call_inv inv ok hp).1
  exact ⟨inv.consistent, fun action ok hp failed => (call_inv inv ok hp).2 failed⟩

end

def pair : Nat → Conn := fun _ => ⟨[(0, 1)], true⟩

theorem shared_region_counted_twice : ∃ s,
    run (step pair 4096) initial [.connect 0, .connect 1, .regMr 0 4096 100 fun _ => true,
      .regMr 1 5000 10 fun _ => true] = some s ∧
    (s.caches 0).map Slot.refs = [2] ∧ Consistent s := by
  obtain ⟨s, ran, refs⟩ := run_reaches (step pair 4096) initial
    [.connect 0, .connect 1, .regMr 0 4096 100 fun _ => true, .regMr 1 5000 10 fun _ => true]
    (fun s => (s.caches 0).map Slot.refs = [2]) (by decide +kernel)
  refine ⟨s, ran, refs, ?_⟩
  refine (mr_refs_of_live_handles pair 4096 _ s ?_ ran).1
  exact ⟨trivial, fun _ _ => ⟨trivial, fun _ _ => ⟨⟨fun _ _ => rfl, by decide⟩,
    fun _ _ => ⟨⟨fun _ _ => rfl, by decide⟩, fun _ _ => trivial⟩⟩⟩⟩

/-- The backup device cannot register: the region of device 0 keeps its reference, and no handle has
it. -/
theorem failed_registration_keeps_reference : ∃ s,
    run (step pair 4096) initial [.connect 0] = some s ∧
    (call pair 4096 s (.regMr 0 4096 100 fun i => i == 0)).2 = false ∧
    (s.caches 0).map Slot.refs = [] ∧
    ((call pair 4096 s (.regMr 0 4096 100 fun i => i == 0)).1.caches 0).map Slot.refs = [1] ∧
    ¬ Consistent (call pair 4096 s (.regMr 0 4096 100 fun i => i == 0)).1 := by
  refine ⟨_, rfl, by decide +kernel, by decide +kernel, by decide +kernel, ?_⟩
  intro hc
  have slot : (⟨4096, 1, 1, 0⟩ : Slot) ∈
      (call pair 4096 (call pair 4096 initial (.connect 0)).1
        (.regMr 0 4096 100 fun i => i == 0)).1.caches 0 := by decide +kernel
  have counted := hc.counts 0 _ slot
  revert counted
  decide +kernel

end Vccl.Mr
