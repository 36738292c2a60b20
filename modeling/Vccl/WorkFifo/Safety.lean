import Vccl.WorkFifo.Model

namespace Vccl.WorkFifo

open List Function Transition

variable {lo hi : Nat} {batches : List Batch}

theorem Chain.le (h : Chain lo hi batches) : lo ≤ hi := by
  induction batches generalizing lo with
  | nil => exact h
  | cons b rest ih => exact le_trans h.2.1 (ih h.2.2.2)

theorem Chain.mono {lo' hi' : Nat} (h : Chain lo hi batches) (lower : lo' ≤ lo) (upper : hi ≤ hi') :
    Chain lo' hi' batches := by
  induction batches generalizing lo lo' with
  | nil => exact le_trans lower (le_trans h upper)
  | cons b rest ih =>
    obtain ⟨hn, start, hin, tail⟩ := h
    refine ⟨hn, le_trans lower start, ?_, ih tail le_rfl⟩
    intro w mem
    exact ⟨le_trans lower (hin w mem).1, (hin w mem).2⟩

theorem Chain.append {mid : Nat} {xs ys : List Batch} (left : Chain lo mid xs) (right : Chain mid hi ys) :
    Chain lo hi (xs ++ ys) := by
  induction xs generalizing lo with
  | nil => exact right.mono left le_rfl
  | cons b rest ih => exact ⟨left.1, left.2.1, left.2.2.1, ih left.2.2.2⟩

theorem Chain.bounds (h : Chain lo hi batches) :
    ∀ b ∈ batches, ∀ w ∈ b, lo ≤ w.offset ∧ w.offset + w.size ≤ hi := by
  induction batches generalizing lo with
  | nil => simp
  | cons b rest ih =>
    obtain ⟨-, start, hin, tail⟩ := h
    refine forall_mem_cons.mpr ⟨fun w here => ⟨(hin w here).1, le_trans (hin w here).2 tail.le⟩, ?_⟩
    intro b' later w here
    have bound := ih tail b' later w here
    exact ⟨le_trans start bound.1, bound.2⟩

def shift (k : Nat) (b : Batch) : Batch := b.map fun w => { w with offset := w.offset + k }

theorem consumed_map (b : Batch) (nonempty : b ≠ []) (place : Nat → Nat) :
    ∃ w ∈ b, b.consumed = w.offset + w.size ∧
      Batch.consumed (b.map fun w => { w with offset := place w.offset }) =
        place w.offset + w.size := by
  refine ⟨b.getLast nonempty, getLast_mem nonempty, ?_, ?_⟩
  all_goals simp [Batch.consumed, getLast?_eq_getLast_of_ne_nil nonempty]

theorem consumed_shift {b : Batch} (nonempty : b ≠ []) (k : Nat) :
    (shift k b).consumed = b.consumed + k := by
  obtain ⟨w, -, _, _⟩ := consumed_map b nonempty (· + k)
  rw [shift]
  omega

theorem Chain.shift (h : Chain lo hi batches) (k : Nat) :
    Chain (lo + k) (hi + k) (batches.map (shift k)) := by
  induction batches generalizing lo with
  | nil => exact Nat.add_le_add_right h k
  | cons b rest ih =>
    obtain ⟨hn, _, hin, tail⟩ := h
    simp only [map_cons, Chain, consumed_shift hn]
    refine ⟨by simpa [WorkFifo.shift] using hn, by omega, ?_, ih tail⟩
    intro w mem
    obtain ⟨v, here, rfl⟩ := mem_map.mp mem
    have bound := hin v here
    simp only
    omega

/- The positions behind the 32-bit counters. `sampled` and `newLeast` belong to the poll in
progress. -/
structure Ghost where
  produced : Nat
  least : Nat
  newLeast : Nat
  consumed : Channel → Nat
  sampled : Channel → Nat
  toLoad : Channel → List Batch
  loaded : Channel → Option Nat

def wrapBatch (b : Batch) : Batch := b.map fun w => { w with offset := w.offset % word }

/-- What a channel has still to publish and to load lies in order between its counter and the
end of the uploaded work. -/
def Future (lo hi : Nat) (loaded : Option Nat) (toLoad : List Batch) : Prop :=
  match loaded with
  | none => Chain lo hi toLoad
  | some value => lo ≤ value ∧ Chain value hi toLoad

def PcAgrees (f : Fifo) (channelProduced : Channel → Nat) (g : Ghost) (pc : Pc) : Prop :=
  match pc with
  | .idle => True
  | .loading plan next consumed =>
    plan.workBytes ≤ f.bytes ∧ ∀ c, c.val < next → consumed c = g.sampled c % word ∧
      g.least ≤ g.sampled c ∧ g.sampled c ≤ g.consumed c
  | .storing plan consumed least next =>
    plan.workBytes ≤ f.bytes ∧ least = g.newLeast % word ∧ g.least ≤ g.newLeast ∧
      g.newLeast ≤ g.produced ∧
      (∀ c, c.val < next ∨ consumed c ≠ channelProduced c → g.newLeast ≤ g.consumed c) ∧
      ∀ c, next ≤ c.val → consumed c = channelProduced c → g.toLoad c = [] ∧ g.loaded c = none
  | .writing plan => g.produced + plan.workBytes ≤ g.least + f.bytes

structure ChannelAgrees (least produced counter position : Nat) (works works' : List Batch)
    (value value' : Option Nat) : Prop where
  consumed : counter = position % word
  toLoad : works = works'.map wrapBatch
  loaded : value = value'.map (· % word)
  above : least ≤ position
  future : Future position produced value' works'

structure Agrees (f : Fifo) (s : State) (g : Ghost) : Prop where
  produced : s.workFifoProduced = g.produced % word
  least : s.workFifoConsumedLeast = g.least % word
  window : g.produced ≤ g.least + f.bytes
  channel : ∀ c, ChannelAgrees g.least g.produced (s.workConsumed c) (g.consumed c) (s.toLoad c) (g.toLoad c)
    (s.loaded c) (g.loaded c)
  pc : PcAgrees f s.channelProduced g s.pc

theorem Future.le {loaded : Option Nat} {toLoad : List Batch} (h : Future lo hi loaded toLoad) : lo ≤ hi := by
  cases loaded with
  | none => exact Chain.le h
  | some value => exact le_trans h.1 (Chain.le h.2)

theorem Fifo.bytes_le (f : Fifo) : f.bytes ≤ 2 ^ 30 :=
  Nat.pow_le_pow_right (by decide) f.limit

theorem Fifo.slot_eq (f : Fifo) (cursor : Nat) : f.slot cursor = cursor % f.bytes := by
  exact Nat.and_two_pow_sub_one_eq_mod cursor f.log2Bytes

theorem Fifo.bytes_dvd_word (f : Fifo) : f.bytes ∣ word :=
  Nat.pow_dvd_pow 2 (le_trans f.limit (by decide))

variable {produced least : Nat}

theorem room_of_hasRoom {f : Fifo} {s : State} {plan : Plan} (now : s.workFifoProduced = produced % word)
    (cached : s.workFifoConsumedLeast = least % word) (fits : plan.workBytes ≤ f.bytes) (low : least ≤ produced)
    (window : produced ≤ least + f.bytes) (room : hasRoom f s plan = true) :
    produced + plan.workBytes ≤ least + f.bytes := by
  have limit := f.bytes_le
  have near : produced + plan.workBytes - least < word := by
    unfold word
    omega
  have exact' : Wrap.sub word ((s.workFifoProduced + plan.workBytes) % word)
      s.workFifoConsumedLeast = produced + plan.workBytes - least := by
    rw [now, cached, Nat.mod_add_mod]
    exact Wrap.sub_of_le (by decide) (by omega) near
  simp only [hasRoom, decide_eq_true_eq] at room
  omega

theorem foldl_leastStep {channelProduced consumed sampled : Channel → Nat} (low : least ≤ produced)
    (near : produced - least < word)
    (read : ∀ c, consumed c = sampled c % word ∧ least ≤ sampled c ∧ sampled c ≤ produced) (cs : List Channel)
    (n : Nat) (lower : least ≤ n) (upper : n ≤ produced) :
    ∃ m, cs.foldl (leastStep (produced % word) channelProduced consumed) (n % word) = m % word ∧
      least ≤ m ∧ m ≤ n ∧ ∀ c ∈ cs, consumed c ≠ channelProduced c → m ≤ sampled c := by
  induction cs generalizing n with
  | nil => exact ⟨n, rfl, lower, le_rfl, by simp⟩
  | cons c rest ih =>
    obtain ⟨value, above, under⟩ := read c
    have distance : Wrap.sub word (produced % word) (n % word) = produced - n :=
      Wrap.sub_of_le (by decide) upper (by omega)
    have distance' : Wrap.sub word (produced % word) (sampled c % word) = produced - sampled c :=
      Wrap.sub_of_le (by decide) under (by omega)
    simp only [foldl_cons, leastStep, value, distance, distance']
    split
    next farther =>
      obtain ⟨m, fold, m_ge, m_le, bound⟩ := ih (sampled c) above under
      refine ⟨m, fold, m_ge, by omega, ?_⟩
      exact forall_mem_cons.mpr ⟨fun active => m_le, bound⟩
    next nearer =>
      obtain ⟨m, fold, m_ge, m_le, bound⟩ := ih n lower upper
      refine ⟨m, fold, m_ge, m_le, ?_⟩
      intro c' mem active
      rcases mem_cons.mp mem with rfl | later
      · rw [value] at active
        have : ¬ produced - n < produced - sampled c' := fun h => nearer ⟨active, h⟩
        omega
      · exact bound c' later active

section Steps

variable {f : Fifo} {s s' : State} {g : Ghost}

theorem Agrees.low (h : Agrees f s g) : g.least ≤ g.produced :=
  le_trans (h.channel ⟨0, by decide⟩).above (h.channel ⟨0, by decide⟩).future.le

theorem submit_agrees (h : Agrees f s g) (plan : Plan)
    (taken : step f s (.submit plan) = some s') : Agrees f s' g := by
  simp only [step] at taken
  split at taken
  · obtain ⟨_, taken⟩ := Option.ite_none_right_eq_some.mp taken
    have fits : plan.workBytes ≤ f.bytes := by omega
    cases taken
    split
    next room =>
      exact { h with pc := room_of_hasRoom h.produced h.least fits h.low h.window room }
    · exact { h with pc := ⟨fits, fun c below => absurd below (Nat.not_lt_zero _)⟩ }
  · cases taken

variable {plan : Plan} {next : Nat} {consumed : Channel → Nat}

theorem sample_agrees (h : Agrees f s g) (pc : s.pc = .loading plan next consumed) (c : Channel) (turn : c.val = next) :
    Agrees f
      { s with pc := .loading plan (next + 1) (update consumed c (s.workConsumed c)) }
      { g with sampled := update g.sampled c (g.consumed c) } := by
  have old := h.pc
  rw [pc] at old
  refine { h with pc := ⟨old.1, ?_⟩ }
  intro c' below
  by_cases here : c' = c
  · subst here
    simp only [update_self]
    exact ⟨(h.channel _).consumed, (h.channel _).above, le_rfl⟩
  · have other : c'.val ≠ c.val := fun same => here (Fin.ext same)
    simp only [update_of_ne here]
    exact old.2 c' (by omega)

theorem compute_agrees (h : Agrees f s g) (pc : s.pc = .loading plan next consumed) (finished : maxChannels ≤ next)
    (quiesced : QuiescedForReal s .host) (least : Nat)
    (computed : leastConsumed s.workFifoProduced s.channelProduced consumed = least) :
    ∃ m, Agrees f { s with pc := .storing plan consumed least 0 } { g with newLeast := m } := by
  have old := h.pc
  rw [pc] at old
  have read : ∀ c, consumed c = g.sampled c % word ∧ g.least ≤ g.sampled c ∧
      g.sampled c ≤ g.produced := by
    intro c
    obtain ⟨value, above, under⟩ := old.2 c (lt_of_lt_of_le c.isLt finished)
    exact ⟨value, above, le_trans under (h.channel c).future.le⟩
  have limit := f.bytes_le
  have window := h.window
  have near : g.produced - g.least < word := by
    unfold word
    omega
  obtain ⟨m, fold, lower, upper, bound⟩ :=
    foldl_leastStep h.low near read (finRange maxChannels) g.produced h.low le_rfl
  refine ⟨m, { h with pc := ⟨old.1, ?_, lower, upper, ?_, ?_⟩ }⟩
  · rw [← computed, h.produced]
    exact fold
  · rintro c (before | active)
    · exact absurd before (Nat.not_lt_zero _)
    · obtain ⟨-, -, under⟩ := old.2 c (lt_of_lt_of_le c.isLt finished)
      exact le_trans (bound c (mem_finRange c) active) under
  · intro c _ still
    obtain ⟨nothing, published⟩ := quiesced plan next consumed pc finished c still
    rw [(h.channel c).toLoad, map_eq_nil_iff] at nothing
    rw [(h.channel c).loaded, Option.map_eq_none_iff] at published
    exact ⟨nothing, published⟩

theorem store_agrees (h : Agrees f s g) {least : Nat} (pc : s.pc = .storing plan consumed least next) (c : Channel)
    (turn : c.val = next) (still : consumed c = s.channelProduced c) :
    Agrees f
      { s with
        pc := .storing plan consumed least (next + 1)
        channelProduced := update s.channelProduced c least
        workConsumed := update s.workConsumed c least }
      { g with consumed := update g.consumed c g.newLeast } := by
  have old := h.pc
  rw [pc] at old
  obtain ⟨fits, value, lower, upper, ahead, quiet⟩ := old
  obtain ⟨nothing, published⟩ := quiet c turn.ge still
  refine { h with channel := ?_, pc := ⟨fits, value, lower, upper, ?_, ?_⟩ }
  all_goals intro c'; by_cases here : c' = c
  · subst here
    simp only [update_self]
    refine { h.channel c' with consumed := value, above := lower, future := ?_ }
    simpa [Future, Chain, nothing, published] using upper
  · simpa only [update_of_ne here] using h.channel c'
  · subst here
    simp
  · have other : c'.val ≠ c.val := fun same => here (Fin.ext same)
    simp only [update_of_ne here]
    rintro (_ | active)
    · exact ahead c' (.inl (by omega))
    · exact ahead c' (.inr active)
  · subst here
    intro after
    omega
  · simp only [update_of_ne here]
    intro after same
    exact quiet c' (by omega) same

theorem endPoll_agrees (h : Agrees f s g) {least : Nat} (pc : s.pc = .storing plan consumed least next)
    (finished : maxChannels ≤ next) (taken : hostStep f s = some s') :
    Agrees f s' { g with least := g.newLeast } := by
  have old := h.pc
  rw [pc] at old
  obtain ⟨fits, value, _, upper, ahead, -⟩ := old
  have window : g.produced ≤ g.newLeast + f.bytes := le_trans h.window (by omega)
  have channel c := { h.channel c with above := ahead c (.inl (lt_of_lt_of_le c.isLt finished)) }
  simp only [hostStep, pc, dif_neg (not_lt.mpr finished), Option.some.injEq] at taken
  subst taken
  split
  next room =>
    exact { h with
      least := value
      window
      channel
      pc := room_of_hasRoom (s := { s with workFifoConsumedLeast := least }) h.produced value fits
        upper window room }
  · exact { h with
      least := value
      window
      channel
      pc := ⟨fits, fun c below => absurd below (Nat.not_lt_zero _)⟩ }

theorem translate_eq (produced : Nat) (b : Batch) :
    translate (produced % word) b = wrapBatch (shift produced b) := by
  simp [translate, wrapBatch, shift]

theorem Future.append {lo mid hi : Nat} {loaded : Option Nat} {xs ys : List Batch}
    (left : Future lo mid loaded xs) (right : Chain mid hi ys) : Future lo hi loaded (xs ++ ys) := by
  cases loaded with
  | none => exact Chain.append left right
  | some value => exact ⟨left.1, Chain.append left.2 right⟩

theorem write_agrees (h : Agrees f s g) (pc : s.pc = .writing plan) (taken : hostStep f s = some s') :
    Agrees f s' { g with
      produced := g.produced + plan.workBytes
      toLoad := fun c => g.toLoad c ++ (plan.batches c).map (shift g.produced) } := by
  have room := h.pc
  rw [pc] at room
  simp only [hostStep, pc, Option.some.injEq] at taken
  subst taken
  refine { h with
    produced := ?_, window := room, pc := trivial
    channel := fun c => { h.channel c with toLoad := ?_, future := ?_ } }
  · simp [h.produced]
  · simp only [(h.channel c).toLoad, h.produced, map_append, map_map]
    congr 1
    exact map_congr_left (fun b _ => translate_eq g.produced b)
  · have placed := (plan.ordered c).shift g.produced
    rw [Nat.zero_add, Nat.add_comm] at placed
    exact (h.channel c).future.append placed

theorem PcAgrees.device {channels consumed : Channel → Nat} {toLoad : Channel → List Batch}
    {loaded : Channel → Option Nat} {pc : Pc} (h : PcAgrees f channels g pc) (forward : ∀ c, g.consumed c ≤ consumed c)
    (quiet : ∀ c, g.toLoad c = [] ∧ g.loaded c = none → toLoad c = [] ∧ loaded c = none) :
    PcAgrees f channels { g with consumed, toLoad, loaded } pc := by
  cases pc with
  | idle => trivial
  | loading plan next consumed =>
    refine ⟨h.1, fun c below => ?_⟩
    obtain ⟨value, above, under⟩ := h.2 c below
    exact ⟨value, above, le_trans under (forward c)⟩
  | storing plan consumed value next =>
    obtain ⟨fits, wrapped, lower, upper, ahead, still⟩ := h
    exact ⟨fits, wrapped, lower, upper, fun c active => le_trans (ahead c active) (forward c),
      fun c after same => quiet c (still c after same)⟩
  | writing plan => exact h

theorem load_agrees (h : Agrees f s g) (c : Channel) (taken : step f s (.load c) = some s') :
    ∃ g', Agrees f s' g' := by
  simp only [step] at taken
  split at taken
  next b rest unloaded pending =>
    rw [(h.channel c).loaded, Option.map_eq_none_iff] at unloaded
    rw [(h.channel c).toLoad] at pending
    obtain ⟨b', rest', real, rfl, rfl⟩ := map_eq_cons_iff.mp pending
    have future := (h.channel c).future
    rw [unloaded, real] at future
    obtain ⟨nonempty, start, -, tail⟩ := future
    cases taken
    refine ⟨{ g with
      toLoad := update g.toLoad c rest'
      loaded := update g.loaded c (some b'.consumed) },
      { h with channel := ?_, pc := h.pc.device (fun _ => le_rfl) ?_ }⟩
    all_goals intro c'; by_cases here : c' = c
    · subst here
      simp only [update_self]
      refine { h.channel c' with toLoad := rfl, loaded := ?_, future := ⟨start, tail⟩ }
      obtain ⟨w, -, last, wrapped⟩ := consumed_map b' nonempty (· % word)
      simp [wrapBatch, wrapped, last]
    · simpa only [update_of_ne here] using h.channel c'
    · subst here
      simp [real]
    · simp [update_of_ne here]
  · cases taken

theorem publish_agrees (h : Agrees f s g) (c : Channel)
    (taken : step f s (.publish c) = some s') : ∃ g', Agrees f s' g' := by
  simp only [step] at taken
  split at taken
  next value ready =>
    rw [(h.channel c).loaded] at ready
    obtain ⟨real, loaded, rfl⟩ := Option.map_eq_some_iff.mp ready
    have future := (h.channel c).future
    rw [loaded] at future
    obtain ⟨forward, tail⟩ := future
    cases taken
    refine ⟨{ g with
      consumed := update g.consumed c real
      loaded := update g.loaded c none },
      { h with channel := ?_, pc := h.pc.device ?_ ?_ }⟩
    all_goals intro c'; by_cases here : c' = c
    · subst here
      simp only [update_self]
      exact { h.channel c' with
        consumed := rfl, loaded := rfl, above := le_trans (h.channel c').above forward, future := tail }
    · simpa only [update_of_ne here] using h.channel c'
    · subst here
      simpa using forward
    · simp [update_of_ne here]
    · subst here
      simp [loaded]
    · simp [update_of_ne here]
  · cases taken

theorem host_agrees (h : Agrees f s g) (quiesced : QuiescedForReal s .host)
    (taken : hostStep f s = some s') : ∃ g', Agrees f s' g' := by
  cases pc : s.pc with
  | idle => simp [hostStep, pc] at taken
  | loading plan next consumed =>
    by_cases inside : next < maxChannels
    · simp only [hostStep, pc, dif_pos inside, Option.some.injEq] at taken
      exact ⟨_, taken ▸ sample_agrees h pc ⟨next, inside⟩ rfl⟩
    · simp only [hostStep, pc, dif_neg inside, Option.some.injEq] at taken
      obtain ⟨m, agrees⟩ := compute_agrees h pc (not_lt.mp inside) quiesced _ rfl
      exact ⟨_, taken ▸ agrees⟩
  | storing plan consumed least next =>
    by_cases inside : next < maxChannels
    · simp only [hostStep, pc, dif_pos inside] at taken
      split at taken
      next still =>
        exact ⟨_, Option.some.inj taken ▸ store_agrees h pc ⟨next, inside⟩ rfl still⟩
      rename_i active
      have old := h.pc
      rw [pc] at old
      obtain ⟨fits, value, lower, upper, ahead, quiet⟩ := old
      refine ⟨g, Option.some.inj taken ▸ { h with pc := ⟨fits, value, lower, upper, ?_, ?_⟩ }⟩
      · rintro c (_ | other)
        · by_cases here : c.val < next
          · exact ahead c (.inl here)
          · have same : c = ⟨next, inside⟩ := Fin.ext (by simp only; omega)
            exact ahead c (.inr (same ▸ active))
        · exact ahead c (.inr other)
      · intro c after same
        exact quiet c (by omega) same
    · exact ⟨_, endPoll_agrees h pc (not_lt.mp inside) taken⟩
  | writing plan => exact ⟨_, write_agrees h pc taken⟩

theorem step_agrees (h : Agrees f s g) (a : Action) (quiesced : QuiescedForReal s a)
    (taken : step f s a = some s') : ∃ g', Agrees f s' g' := by
  cases a with
  | submit plan => exact ⟨g, submit_agrees h plan taken⟩
  | host => exact host_agrees h quiesced taken
  | load c => exact load_agrees h c taken
  | publish c => exact publish_agrees h c taken

theorem Agrees.writesFreeBytes (h : Agrees f s g) : WritesFreeBytes f s := by
  intro plan pc c b pending w mem i inside j short
  have room := h.pc
  simp only [PcAgrees, pc] at room
  rw [(h.channel c).toLoad] at pending
  obtain ⟨b', real, rfl⟩ := mem_map.mp pending
  obtain ⟨w', mem', rfl⟩ := mem_map.mp mem
  have bounds : g.consumed c ≤ w'.offset ∧ w'.offset + w'.size ≤ g.produced := by
    have future := (h.channel c).future
    cases loaded : g.loaded c with
    | none =>
      rw [loaded] at future
      exact Chain.bounds future b' real w' mem'
    | some value =>
      rw [loaded] at future
      obtain ⟨lower, upper⟩ := Chain.bounds future.2 b' real w' mem'
      exact ⟨le_trans future.1 lower, upper⟩
  have above := (h.channel c).above
  simp only at inside
  rw [Fifo.slot_eq, Fifo.slot_eq, h.produced, Wrap.slot_of_wrapped f.bytes_dvd_word,
    Wrap.slot_of_wrapped f.bytes_dvd_word]
  exact Wrap.slots_differ (by omega) (by omega)

end Steps

theorem initial_agrees (f : Fifo) : ∃ g, Agrees f initial g := by
  refine ⟨⟨0, 0, 0, fun _ => 0, fun _ => 0, fun _ => [], fun _ => none⟩, ?_⟩
  exact ⟨rfl, rfl, Nat.zero_le _, fun _ => ⟨rfl, rfl, rfl, le_rfl, le_rfl⟩, trivial⟩

/-- In a run in which the poll takes only channels as quiesced that really are, no upload
overwrites a work struct that is still to be loaded. -/
theorem upload_writes_free_bytes (f : Fifo) (actions : List Action) (s : State)
    (ran : run (step f) initial actions = some s)
    (quiesced : Meets (step f) QuiescedForReal initial actions) :
    WritesFreeBytes f s := by
  obtain ⟨g, agrees⟩ := run_invariant (fun s => ∃ g, Agrees f s g)
    (fun s a s' ⟨g, h⟩ real taken => step_agrees h a real taken) actions (initial_agrees f)
    quiesced ran
  exact agrees.writesFreeBytes

def fifo64 : Fifo := ⟨6, by decide⟩

/- A plan of one work struct on one channel. -/
def singleWork (c : Channel) (bytes : Nat) : Plan where
  workBytes := bytes
  batches := fun c' => if c' = c then [[⟨0, bytes⟩]] else []
  ordered := by
    intro c'
    split
    · refine ⟨by simp, Nat.zero_le _, by simp [Batch.consumed], ?_⟩
      simp [Batch.consumed, Chain]
    · exact Nat.zero_le _

def firstChannel : Channel := ⟨0, by decide⟩
def secondChannel : Channel := ⟨1, by decide⟩

def secondUpload : List Action :=
  [.submit (singleWork firstChannel 32), .host, .submit (singleWork secondChannel 32)]

theorem secondUpload_writes_free_bytes :
    ∃ s, run (step fifo64) initial secondUpload = some s ∧
      s.toLoad firstChannel = [[⟨0, 32⟩]] ∧ s.workFifoProduced = 32 ∧ WritesFreeBytes fifo64 s := by
  obtain ⟨s, ran, found⟩ := run_reaches (step fifo64) initial secondUpload
    (fun s => s.toLoad firstChannel = [[⟨0, 32⟩]] ∧ s.workFifoProduced = 32)
    (by decide +kernel)
  obtain ⟨pending, produced⟩ := found
  refine ⟨s, ran, pending, produced, upload_writes_free_bytes fifo64 secondUpload s ran ?_⟩
  refine ⟨trivial, fun s₁ first => ⟨?_, fun s₂ _ => ⟨trivial, fun _ _ => trivial⟩⟩⟩
  -- the plan finds room at once, so the host step is not the end of a poll
  intro plan next consumed pc
  cases first
  cases pc

/- Both halves of the FIFO are filled for channel 0 and no kernel has started when a third
plan polls: every counter still equals its `channels[c].workFifoProduced`. -/
def unstarted : List Action :=
  [.submit (singleWork firstChannel 32), .host, .submit (singleWork firstChannel 32), .host,
   .submit (singleWork firstChannel 32)] ++ replicate 130 .host

def overwritesFirst (f : Fifo) (s : State) : Bool :=
  match s.pc, s.toLoad firstChannel with
  | .writing plan, (w :: _) :: _ =>
    decide (0 < w.size ∧ 0 < plan.workBytes ∧ f.slot w.offset = f.slot s.workFifoProduced)
  | _, _ => false

theorem upload_overwrites_pending_work :
    ∃ s, run (step fifo64) initial unstarted = some s ∧ ¬ WritesFreeBytes fifo64 s := by
  obtain ⟨s, ran, found⟩ := run_reaches (step fifo64) initial unstarted
    (overwritesFirst fifo64 ·) (by decide +kernel)
  refine ⟨s, ran, fun free => ?_⟩
  simp only [overwritesFirst] at found
  split at found
  next plan w works rest pc pending =>
    obtain ⟨size, bytes, same⟩ := of_decide_eq_true found
    exact free plan pc firstChannel (w :: works) (by simp [pending]) w (by simp) 0 size 0 bytes same
  · cases found

end Vccl.WorkFifo
