import Vccl.Rollback.Passes

/-! The sync entries of a rollback of a connection that several subs share: `recvProxyProgress`
groups its subs by connection and posts an entry for every sub of the connection that failed,
`ncclIbRollBackSendProxyProgress` reads one for every sub of its own op. -/
namespace Vccl.Rollback.Entries

open List
open Passes (Sub Answer SyncElem rollBackSubs rollBackSub)
open Ib (maxRequests)

/-- The two ranks and the channel a sub carries data between. -/
structure Link where
  sender : Nat
  receiver : Nat
  channel : Nat
  deriving DecidableEq

structure RecvSub where
  comm : Nat
  maxRecvs : Nat
  link : Link
  posted : Nat
  received : Nat
  deriving DecidableEq

/-- Consecutive subs with the same `groupSize`, which is the length of the list. -/
abbrev Group := List RecvSub

def bringForward (k : Nat) : List RecvSub → List RecvSub
  | [] => []
  | sub :: rest =>
    match k with
    | 0 => sub :: rest
    | k + 1 =>
      match rest[k]? with
      | some next => next :: rest.set k sub
      | none => sub :: rest

/-- The turn of the first loop of `recvProxyProgress` for the subs that are left: does one of them
join the group at hand? `maxRecvs` and `recvComm` are those of the last sub grouped. -/
def joining (current : Group) (rest : List RecvSub) : Option (List RecvSub) :=
  match current.getLast? with
  | none => none
  | some last =>
    if current.length = last.maxRecvs then none
    else (rest.findIdx? fun sub => sub.comm = last.comm).map fun next => bringForward next rest

def groupSubs : Nat → List Group → Group → List RecvSub → List Group
  | 0, groups, current, _ => groups ++ [current]
  | left + 1, groups, current, rest =>
    match joining current rest, rest with
    | some (sub :: rest), _ => groupSubs left groups (current ++ [sub]) rest
    | _, sub :: rest =>
      -- the first group of the op has nothing before it
      groupSubs left (if current = [] then groups else groups ++ [current]) [sub] rest
    | _, [] => groups ++ [current]

def start (subs : List RecvSub) : List Group := groupSubs subs.length [] [] subs

/-- An entry of the sync FIFO. The code has no `link` in it. -/
structure Entry where
  link : Link
  restartPos : Nat
  deriving DecidableEq

def postEntries (comm : Nat) (groups : List Group) : List Entry :=
  groups.flatMap fun group =>
    match group with
    | [] => []
    | first :: _ => if first.comm = comm then group.map fun sub => ⟨sub.link, sub.received⟩ else []

def Progressed (groups groups' : List Group) : Prop :=
  groups'.map (map fun sub => (sub.comm, sub.link)) = groups.map (map fun sub => (sub.comm, sub.link))

def OneComm (group : Group) : Prop := ∃ comm, ∀ sub ∈ group, sub.comm = comm

theorem oneComm_singleton (sub : RecvSub) : OneComm [sub] := ⟨sub.comm, by simp⟩

variable {current : Group}

theorem OneComm.append {last sub : RecvSub} (h : OneComm current) (ends : current.getLast? = some last)
    (same : sub.comm = last.comm) : OneComm (current ++ [sub]) := by
  obtain ⟨comm, all⟩ := h
  refine ⟨comm, ?_⟩
  refine forall_mem_append.mpr ⟨all, ?_⟩
  intro other new
  rw [mem_singleton.mp new, same]
  exact all last (mem_of_getLast? ends)

variable {rest : List RecvSub} {k : Nat}

theorem bringForward_head {p : RecvSub → Bool} (found : rest.findIdx? p = some k) :
    ∃ sub tail, bringForward k rest = sub :: tail ∧ p sub = true := by
  obtain ⟨hb, hh, -⟩ := findIdx?_eq_some_iff_getElem.mp found
  cases rest with
  | nil => simp at hb
  | cons first rest =>
    cases k with
    | zero => exact ⟨first, rest, rfl, hh⟩
    | succ k =>
      have inside : k < rest.length := by simpa using hb
      have there : rest[k]? = some rest[k] := getElem?_eq_getElem inside
      exact ⟨rest[k], rest.set k first, by simp [bringForward, there], hh⟩

theorem joining_comm {sub : RecvSub} {tail : List RecvSub} (h : OneComm current)
    (joins : joining current rest = some (sub :: tail)) : OneComm (current ++ [sub]) := by
  unfold joining at joins
  split at joins
  · contradiction
  rename_i last ends
  split at joins
  · contradiction
  · obtain ⟨_, hf, hm⟩ := Option.map_eq_some_iff.mp joins
    obtain ⟨_, _, hs', same⟩ := bringForward_head hf
    rw [hs'] at hm
    cases hm
    exact h.append ends (by simpa using same)

variable {groups : List Group}

theorem groupSubs_oneComm (left : Nat) (closed : ∀ group ∈ groups, OneComm group) (h : OneComm current) :
    ∀ group ∈ groupSubs left groups current rest, OneComm group := by
  have ends {groups : List Group} {current : Group} (closed : ∀ group ∈ groups, OneComm group)
      (h : OneComm current) : ∀ group ∈ groups ++ [current], OneComm group :=
    forall_mem_append.mpr ⟨closed, forall_mem_singleton.mpr h⟩
  induction left generalizing groups current rest with
  | zero => exact ends closed h
  | succ left ih =>
    simp only [groupSubs]
    split
    next sub tail joins =>
      exact ih closed (joining_comm h joins)
    next sub tail _ =>
      refine ih ?_ (oneComm_singleton sub)
      split
      · exact closed
      · exact ends closed h
    · exact ends closed h

theorem start_oneComm (subs : List RecvSub) : ∀ group ∈ start subs, OneComm group :=
  groupSubs_oneComm _ (by simp) ⟨0, by simp⟩

variable {groups' : List Group}

theorem Progressed.oneComm (h : Progressed groups groups') (before : ∀ group ∈ groups, OneComm group) :
    ∀ group ∈ groups', OneComm group := by
  intro group mem
  have shape : group.map (fun sub => (sub.comm, sub.link)) ∈
      groups.map (map fun sub => (sub.comm, sub.link)) := h ▸ mem_map_of_mem mem
  obtain ⟨old, ht, same⟩ := mem_map.mp shape
  obtain ⟨comm, all⟩ := before old ht
  refine ⟨comm, ?_⟩
  intro sub hi
  have : (sub.comm, sub.link) ∈ old.map fun sub => (sub.comm, sub.link) :=
    same ▸ mem_map_of_mem hi
  obtain ⟨other, from', same⟩ := mem_map.mp this
  rw [← all other from', (Prod.mk.inj same).1]

def linksOf (comm : Nat) (groups : List Group) : List Link :=
  (groups.flatten.filter fun sub => sub.comm = comm).map RecvSub.link

theorem postEntries_links (comm : Nat) (h : ∀ group ∈ groups, OneComm group) :
    (postEntries comm groups).map Entry.link = linksOf comm groups := by
  induction groups with
  | nil => rfl
  | cons group rest ih =>
    have tail := ih fun other mem => h other (mem_cons_of_mem _ mem)
    simp only [postEntries, linksOf, flatMap_cons, flatten_cons, filter_append,
      map_append] at tail ⊢
    congr 1
    obtain ⟨c, all⟩ := h group mem_cons_self
    cases group with
    | nil => rfl
    | cons first others =>
      have here := all first mem_cons_self
      simp only
      split
      next mine =>
        rw [filter_eq_self.mpr]
        · simp
        · intro sub mem
          simp [all sub mem, ← mine, here]
      next other =>
        rw [filter_eq_nil_iff.mpr]
        · rfl
        · intro sub mem
          simpa [all sub mem, ← here] using other

theorem linksOf_progressed (h : Progressed groups groups') (comm : Nat) :
    linksOf comm groups' = linksOf comm groups := by
  have shapes : ∀ gs : List Group, linksOf comm gs =
      (((gs.map (map fun sub => (sub.comm, sub.link))).flatten.filter
        fun shape => shape.1 = comm).map Prod.snd) := by
    intro gs
    rw [← map_flatten, filter_map, map_map]
    rfl
  rw [shapes, shapes, h]

def turnOf (comm : Nat) (subs : List Sub) (i : Nat) : Nat := ((subs.take i).map Sub.comm).count comm

theorem turnOf_cons (comm : Nat) (sub : Sub) (rest : List Sub) (i : Nat) :
    turnOf comm (sub :: rest) (i + 1) = turnOf comm rest i + if sub.comm = comm then 1 else 0 := by
  simp [turnOf, count_cons]

theorem rollBackSubs_reads (slice comm : Nat) (answers : Nat → Answer) (fifo : Nat → SyncElem)
    (subs : List Sub) (ts head : Nat)
    (arrived : ∀ k < (subs.map Sub.comm).count comm, (fifo ((head + k) % maxRequests)).idx = head + k + 1) :
    ∃ rolled, rollBackSubs slice comm answers fifo ts head subs = some rolled ∧
      ∀ i sub, subs[i]? = some sub → sub.comm = comm → ∃ sub', rolled.subs[i]? = some sub' ∧
        sub'.counts.transmitted = (fifo ((head + turnOf comm subs i) % maxRequests)).restartPos ∧
        sub'.counts.done = (fifo ((head + turnOf comm subs i) % maxRequests)).restartPos := by
  induction subs generalizing ts head with
  | nil => exact ⟨⟨[], 0, head⟩, rfl, by simp⟩
  | cons first rest ih =>
    by_cases mine : first.comm = comm
    · have here : (fifo (head % maxRequests)).idx = head + 1 := arrived 0 (by simp [mine])
      obtain ⟨others, ran, positions⟩ := ih (ts + 1) (head + 1) (by
        intro k hb
        have := arrived (k + 1) (by simp [mine, hb])
        rwa [show head + 1 + k = head + (k + 1) by omega])
      refine ⟨_, (by rw [rollBackSubs, if_neg (not_not.mpr mine), if_pos here, ran]; rfl), ?_⟩
      intro i sub ht same
      cases i with
      | zero => exact ⟨_, rfl, by simp [rollBackSub, turnOf], by simp [rollBackSub, turnOf]⟩
      | succ i =>
        obtain ⟨sub', ha, hf⟩ := positions i sub ht same
        refine ⟨sub', ha, ?_⟩
        rw [turnOf_cons, if_pos mine, show head + (turnOf comm rest i + 1) = head + 1 + turnOf comm rest i by omega]
        exact hf
    · obtain ⟨others, ran, positions⟩ := ih (ts + 1) head (by
        intro k hb
        exact arrived k (by simpa [mine] using hb))
      refine ⟨_, (by rw [rollBackSubs, if_pos mine, ran]; rfl), ?_⟩
      intro i sub ht same
      cases i with
      | zero =>
        obtain rfl : first = sub := Option.some.inj ht
        exact absurd same mine
      | succ i =>
        obtain ⟨sub', ha, hf⟩ := positions i sub ht same
        refine ⟨sub', ha, ?_⟩
        rw [turnOf_cons, if_neg mine]
        exact hf

variable {comm : Nat}

def Arrived (fifo : Nat → SyncElem) (head : Nat) (entries : List Entry) : Prop :=
  ∀ k entry, entries[k]? = some entry → fifo ((head + k) % maxRequests) = ⟨head + k + 1, entry.restartPos⟩

/-- The sender takes all entries, and each of its subs is taken back to the position in an entry
that was posted for its own link. -/
structure Matched (comm : Nat) (links : List Link) (entries : List Entry) (s s' : Passes.State) : Prop where
  read : s'.syncFifoHead comm = s.syncFifoHead comm + entries.length
  applied : ∀ i sub link, s.subs[i]? = some sub → links[i]? = some link → sub.comm = comm →
    ∃ entry sub', entries[turnOf comm s.subs i]? = some entry ∧ entry.link = link ∧
      s'.subs[i]? = some sub' ∧ sub'.counts.transmitted = entry.restartPos ∧
      sub'.counts.done = entry.restartPos

def sendLinks (comm : Nat) (subs : List Sub) (links : List Link) : List Link :=
  ((subs.zip links).filter fun pair => pair.1.comm = comm).map Prod.snd

theorem sendLinks_length (comm : Nat) (subs : List Sub) (links : List Link)
    (sizes : links.length = subs.length) :
    (sendLinks comm subs links).length = (subs.map Sub.comm).count comm := by
  induction subs generalizing links with
  | nil => simp [sendLinks]
  | cons sub rest ih =>
    cases links with
    | nil => simp at sizes
    | cons link others =>
      have tail := ih others (by simpa using sizes)
      simp only [sendLinks, zip_cons_cons, filter_cons, map_cons,
        count_cons, beq_iff_eq, decide_eq_true_eq] at tail ⊢
      split <;> simp [tail]

theorem sendLinks_getElem? (subs : List Sub) (links : List Link) {i : Nat} {sub : Sub} {link : Link}
    (here : subs[i]? = some sub) (there : links[i]? = some link) (mine : sub.comm = comm) :
    (sendLinks comm subs links)[turnOf comm subs i]? = some link := by
  induction subs generalizing links i with
  | nil => simp at here
  | cons first rest ih =>
    cases links with
    | nil => simp at there
    | cons head others =>
      cases i with
      | zero =>
        obtain rfl : first = sub := Option.some.inj here
        obtain rfl : head = link := Option.some.inj there
        simp [sendLinks, turnOf, mine]
      | succ i =>
        have tail := ih others here there
        rw [turnOf_cons]
        by_cases same : first.comm = comm
        all_goals simpa [sendLinks, same] using tail

theorem exists_turnOf (subs : List Sub) (links : List Link) (sizes : links.length = subs.length)
    (bound : k < (subs.map Sub.comm).count comm) :
    ∃ i sub link, subs[i]? = some sub ∧ links[i]? = some link ∧ sub.comm = comm ∧ turnOf comm subs i = k := by
  induction subs generalizing links k with
  | nil => simp at bound
  | cons first rest ih =>
    cases links with
    | nil => simp at sizes
    | cons head others =>
      have sizes' : others.length = rest.length := by simpa using sizes
      by_cases same : first.comm = comm
      · cases k with
        | zero => exact ⟨0, first, head, rfl, rfl, same, rfl⟩
        | succ k =>
          obtain ⟨i, sub, link, here, ht, mine, turn⟩ := ih others (k := k) sizes' (by simpa [same] using bound)
          exact ⟨i + 1, sub, link, here, ht, mine, by rw [turnOf_cons, turn, if_pos same]⟩
      · obtain ⟨i, sub, link, here, ht, mine, turn⟩ := ih others (k := k) sizes'
          (by simpa [same] using bound)
        exact ⟨i + 1, sub, link, here, ht, mine, by rw [turnOf_cons, turn, if_neg same]; rfl⟩

/-- A rollback of a connection is matched by the sender exactly if its op has the receiver's links
of the connection, in the order the receiver's groups have them. -/
theorem entries_matched_iff_same_links (recvSubs : List RecvSub) {groups : List Group} {s : Passes.State}
    {links : List Link} {sendComm recvComm slice : Nat} {answers : Nat → Answer}
    (progressed : Progressed (start recvSubs) groups) (sizes : links.length = s.subs.length)
    (arrived : Arrived (s.syncFifo sendComm) (s.syncFifoHead sendComm) (postEntries recvComm groups)) :
    (∃ s', Passes.rollBack slice sendComm answers s = some s' ∧
      Matched sendComm links (postEntries recvComm groups) s s') ↔
      sendLinks sendComm s.subs links = linksOf recvComm (start recvSubs) := by
  have posted := postEntries_links recvComm (progressed.oneComm (start_oneComm recvSubs))
  rw [linksOf_progressed progressed] at posted
  have count := sendLinks_length sendComm s.subs links sizes
  constructor
  · rintro ⟨s', ran, hm⟩
    obtain ⟨-, _, -⟩ := Passes.rollBack_spec ran
    have read := hm.read
    have lengths : (postEntries recvComm groups).length = (sendLinks sendComm s.subs links).length := by
      omega
    rw [← posted]
    apply ext_getElem?
    intro k
    rcases Nat.lt_or_ge k (sendLinks sendComm s.subs links).length with hi | ho
    · obtain ⟨i, sub, link, here, ht, mine, turn⟩ := exists_turnOf s.subs links sizes (count ▸ hi)
      obtain ⟨entry, sub', hf, same, -⟩ := hm.applied i sub link here ht mine
      have mineAt := sendLinks_getElem? s.subs links here ht mine
      rw [turn] at hf mineAt
      rw [mineAt, getElem?_map, hf, Option.map_some, same]
    · rw [getElem?_eq_none ho, getElem?_eq_none (by simpa [lengths] using ho)]
  · intro same
    rw [← posted] at same
    have lengths : (postEntries recvComm groups).length = (s.subs.map Sub.comm).count sendComm := by
      rw [← count, same, length_map]
    have enough : ∀ k < (s.subs.map Sub.comm).count sendComm, (s.syncFifo sendComm
        ((s.syncFifoHead sendComm + k) % maxRequests)).idx = s.syncFifoHead sendComm + k + 1 := by
      intro k hb
      rw [← lengths] at hb
      rw [arrived k _ (getElem?_eq_getElem hb)]
    obtain ⟨_, loop, positions⟩ :=
      rollBackSubs_reads slice sendComm answers (s.syncFifo sendComm) s.subs 0 (s.syncFifoHead sendComm) enough
    have ran : Passes.rollBack slice sendComm answers s = _ := congrArg (Option.map _) loop
    refine ⟨_, ran, ?_, ?_⟩
    · rw [(Passes.rollBack_spec ran).2.1, lengths]
    intro i sub link here ht mine
    obtain ⟨sub', ha, htr, done⟩ := positions i sub here mine
    have mineAt := sendLinks_getElem? s.subs links here ht mine
    rw [same, getElem?_map] at mineAt
    obtain ⟨entry, hf, same'⟩ := Option.map_eq_some_iff.mp mineAt
    have value := arrived _ entry hf
    exact ⟨entry, sub', hf, same', ha, by rw [htr, value], by rw [done, value]⟩

/-- Two ranks of a node send to rank 2 through one proxy: the receiver's op has both on one
connection, each of the sender's ops has one. -/
def pxnRecv : List RecvSub := [⟨0, 8, ⟨0, 2, 0⟩, 3, 1⟩, ⟨0, 8, ⟨1, 2, 0⟩, 2, 1⟩]

def pxnSend (entries : Nat → SyncElem) : Passes.State :=
  Passes.initial [⟨0, 4, 0, false, 0⟩] (fun _ => entries) fun _ => 0

theorem two_entries_posted_one_read : ∃ groups entries,
    Progressed (start pxnRecv) groups ∧ Arrived entries 0 (postEntries 0 groups) ∧
      (postEntries 0 groups).length = 2 ∧
      ∃ s', Passes.rollBack 1 0 (Passes.answering .pending) (pxnSend entries) = some s' ∧
        s'.syncFifoHead 0 = 1 ∧ ¬ Matched 0 [⟨0, 2, 0⟩] (postEntries 0 groups) (pxnSend entries) s' := by
  refine ⟨[pxnRecv], fun slot => ⟨slot + 1, 1⟩, rfl, ?_, rfl, _, rfl, rfl, ?_⟩
  · intro k entry hf
    match k, hf with
    | 0, hf =>
      cases hf
      rfl
    | 1, hf =>
      cases hf
      rfl
    | k + 2, hf => simp [postEntries, pxnRecv] at hf
  · intro hm
    exact absurd hm.read (by decide)

/-- With one sub at both ends the entry is the sender's own. -/
theorem single_link_matched : ∃ s', Passes.rollBack 1 0 (Passes.answering .pending)
    (pxnSend fun slot => ⟨slot + 1, 1⟩) = some s' ∧
      Matched 0 [⟨0, 2, 0⟩] (postEntries 0 [[⟨0, 8, ⟨0, 2, 0⟩, 3, 1⟩]]) (pxnSend fun slot => ⟨slot + 1, 1⟩) s' := by
  have progressed : Progressed (start [⟨0, 8, ⟨0, 2, 0⟩, 0, 0⟩]) [[⟨0, 8, ⟨0, 2, 0⟩, 3, 1⟩]] := rfl
  apply (entries_matched_iff_same_links _ progressed rfl ?_).mpr rfl
  intro k entry hf
  match k, hf with
  | 0, hf =>
    cases hf
    rfl
  | k + 1, hf => simp [postEntries] at hf

end Vccl.Rollback.Entries
