import Vccl.P2p.Steps

/-! What a matched pair moves through the network proxies over the shared P2P
connection. The j-th `isend` of a part fills the j-th `irecv` posted for it; step
counts are natural numbers here, without the `int` field of the proxy op. -/
namespace Vccl.P2p

open List Option

/-- Source offset and size of each message `sendProxyProgress` passes to `isend` for a part.
The size is the one the device wrote to the step's `connFifo` entry. -/
def sendMessages (comm : Comm) (d : Direction) (part : Nat) : Option (List (Nat × Nat)) := do
  let nsteps ← partNsteps d part
  let calls ← deviceCalls comm d part
  some ((calls.take nsteps).mapIdx fun j call =>
    (if d.netRegistered then j * ncclMaxNetSize else call.1, call.2))

/-- `proxyOps[dir].nbytes` of a part for the Simple protocol outside of PASS_SM mode. -/
def opNbytes (d : Direction) (part : Nat) : Nat :=
  if d.bytes = 0 then 0
  else if d.netRegistered then d.partSize part
  else min (d.partSize part) (u32fp8Decode d.chunkSizeU32fp8)

/-- The size `recvProxyProgress` posts for a step; an unregistered step gets a slot of the
shared buffer, of `p2pChunkSize` bytes. -/
def postedSize (comm : Comm) (d : Direction) (part step : Nat) : Nat :=
  let nbytes := opNbytes d part
  let size := if d.netRegistered then min ncclMaxNetSize (nbytes - step * ncclMaxNetSize)
    else comm.p2pChunkSize
  if nbytes < size then nbytes else size

/-- Target offset and size of each `irecv` of a part. The data of an unregistered step goes
where the device's `directRecv` of that step copies it. -/
def recvPosts (comm : Comm) (d : Direction) (part : Nat) : Option (List (Nat × Nat)) := do
  let nsteps ← partNsteps d part
  let calls ← deviceCalls comm d part
  some ((calls.take nsteps).mapIdx fun j call =>
    (if d.netRegistered then j * ncclMaxNetSize else call.1, postedSize comm d part j))

/- Target and source offsets of the bytes that arrive; `ncclIbIsend` cuts a message to the
posted size. -/
def deliveredPart (comm : Comm) (s r : Direction) (part : Nat) : Option (List (Nat × Nat)) := do
  let sends ← sendMessages comm s part
  let posts ← recvPosts comm r part
  let arrivals : List (Nat × Nat) := Chunks.copied sends posts
  some (arrivals.map fun m =>
    (partBeg r.nParts part r.bytes + m.1, partBeg s.nParts part s.bytes + m.2))

def delivered (comm : Comm) (s r : Direction) : Option (List (Nat × Nat)) :=
  ((range (max s.nParts r.nParts)).mapM (deliveredPart comm s r)).map flatten

def recvLimit (comm : Comm) (r : Direction) : Nat :=
  if r.netRegistered then ncclMaxNetSize else min comm.p2pChunkSize r.hostChunk

theorem mapM_eq_map {α β : Type} {f : α → Option β} {g : α → β} (l : List α)
    (agree : ∀ x ∈ l, f x = some (g x)) : l.mapM f = some (l.map g) := by
  induction l with
  | nil => rfl
  | cons x rest ih =>
    have head := agree x (by simp)
    have tail := ih (fun y mem => agree y (by simp [mem]))
    simp [head, tail]

theorem isSome_of_mapM {α β : Type} {f : α → Option β} {l : List α} {ys : List β}
    (all : l.mapM f = some ys) : ∀ x ∈ l, ∃ y, f x = some y := by
  induction l generalizing ys with
  | nil => simp
  | cons x rest ih =>
    simp only [mapM_cons, bind_eq_bind, bind_eq_some_iff] at all
    obtain ⟨y, head, _, tail, -⟩ := all
    exact forall_mem_cons.mpr ⟨⟨y, head⟩, ih tail⟩

theorem mapIdx_pieces {β : Type} (chunk total : Nat) (f : Nat → Nat × Nat → β) :
    (Chunks.pieces chunk total).mapIdx f =
      (range (total ⌈/⌉ chunk)).map
        (fun j => f j (j * chunk, min chunk (total - j * chunk))) := by
  apply ext_getElem
  · simp [Chunks.length_pieces]
  · intro j _ _
    simp [Chunks.pieces]

section Part

variable {comm : Comm} {t : Transfer} {d : Direction} {part : Nat}

theorem calls_of_part (planned : planDirection comm t = some d) (network : t.network = true)
    (inside : part < d.nParts) (nonempty : 0 < d.bytes) (pos : 0 < d.hostChunk) :
    ∃ calls n, deviceCalls comm d part = some calls ∧ partNsteps d part = some n ∧
      calls.take n = Chunks.pieces d.hostChunk (d.partSize part) := by
  have device := deviceChunk_eq planned network
  simp only [deviceCalls, partNsteps, if_pos inside, if_neg (not_le.mpr inside),
    if_neg (Nat.pos_iff_ne_zero.mp nonempty), if_neg (Nat.pos_iff_ne_zero.mp pos), device,
    divUp_eq_ceilDiv]
  rcases Nat.eq_zero_or_pos (d.partSize part) with he | some'
  · refine ⟨_, _, by rw [he, Chunks.doWhile_empty], rfl, ?_⟩
    simp [he, Chunks.pieces]
  · refine ⟨_, _, Chunks.doWhile_pieces pos some'
      (Nat.le_succ_of_le (Chunks.ceilDiv_le_self pos)), rfl, ?_⟩
    rw [← Chunks.length_pieces, take_length]

theorem step_offset (j : Nat) :
    (if d.netRegistered then j * ncclMaxNetSize else j * d.hostChunk) = j * d.hostChunk := by
  unfold Direction.hostChunk
  cases d.netRegistered <;> rfl

theorem sendMessages_eq (planned : planDirection comm t = some d) (network : t.network = true)
    (inside : part < d.nParts) (nonempty : 0 < d.bytes) (pos : 0 < d.hostChunk) :
    sendMessages comm d part = some (Chunks.pieces d.hostChunk (d.partSize part)) := by
  obtain ⟨_, n, hd, host, taken⟩ := calls_of_part planned network inside nonempty pos
  simp only [sendMessages, hd, host, bind_eq_bind, bind_some, taken,
    mapIdx_pieces, step_offset]
  rfl

theorem recvPosts_eq (planned : planDirection comm t = some d) (network : t.network = true)
    (inside : part < d.nParts) (nonempty : 0 < d.bytes) (pos : 0 < d.hostChunk) :
    recvPosts comm d part =
      some (Chunks.posted d.hostChunk (d.partSize part) (postedSize comm d part)) := by
  obtain ⟨_, n, hd, host, taken⟩ := calls_of_part planned network inside nonempty pos
  simp only [recvPosts, hd, host, bind_eq_bind, bind_some, taken,
    mapIdx_pieces, step_offset]
  rfl

theorem postedSize_bounds (nonempty : 0 < d.bytes) (step : Nat) :
    postedSize comm d part step ≤ recvLimit comm d ∧
      min (recvLimit comm d) (d.partSize part - step * d.hostChunk) ≤ postedSize comm d part step := by
  have some' : ¬ d.bytes = 0 := by omega
  simp only [postedSize, recvLimit, opNbytes, Direction.hostChunk, if_neg some']
  by_cases hr : d.netRegistered = true
  · simp only [if_pos hr]
    split <;> omega
  · simp only [if_neg hr]
    split <;> omega

end Part

theorem partBytes_covers (nParts bytes : Nat) (parts : 0 < nParts) :
    bytes ≤ nParts * partBytes nParts bytes := by
  have share : bytes ≤ nParts * divUp bytes nParts :=
    (ceilDiv_le_iff_le_mul parts).mp (divUp_eq_ceilDiv bytes nParts).symm.le
  exact le_trans share (Nat.mul_le_mul_left nParts (alignUp_ge _ _ (by decide)))

section Pair

variable {comm : Comm} {send recv : Transfer} {s r : Direction}

theorem pair_agrees (plannedSend : planDirection comm send = some s)
    (plannedRecv : planDirection comm recv = some r) (matched : send.bytes = recv.bytes)
    (sharedSend : send.llBuffers = false) (sharedRecv : recv.llBuffers = false) :
    s.nParts = r.nParts ∧ s.bytes = r.bytes := by
  obtain ⟨hc, hb, -⟩ := planDirection_some plannedSend
  obtain ⟨hch, hby, -⟩ := planDirection_some plannedRecv
  have simpleSend : protocolOf comm send = .simple := by simp [protocolOf, sharedSend]
  have simpleRecv : protocolOf comm recv = .simple := by simp [protocolOf, sharedRecv]
  rw [simpleSend, matched] at hc
  rw [simpleRecv, hc] at hch
  exact ⟨by rw [Direction.nParts, Direction.nParts, some.inj hch],
    by rw [hb, hby, matched]⟩

theorem partNsteps_pos {d : Direction} {n : Nat} (parts : 0 < d.nParts) (nonempty : 0 < d.bytes)
    (counted : partNsteps d 0 = some n) : 0 < d.hostChunk := by
  simp only [partNsteps, if_neg (not_le.mpr parts), if_neg (Nat.pos_iff_ne_zero.mp nonempty)]
    at counted
  split at counted
  · cases counted
  next chunk =>
    exact Nat.pos_of_ne_zero chunk

theorem delivered_eq (plannedSend : planDirection comm send = some s)
    (plannedRecv : planDirection comm recv = some r)
    (networkSend : send.network = true) (networkRecv : recv.network = true)
    (parts : s.nParts = r.nParts) (bytes : s.bytes = r.bytes) (nonempty : 0 < s.bytes)
    (chunkSend : 0 < s.hostChunk) (chunkRecv : 0 < r.hostChunk) :
    delivered comm s r = some ((range s.nParts).flatMap fun part =>
      (Chunks.copied (Chunks.pieces s.hostChunk (s.partSize part))
        (Chunks.posted r.hostChunk (s.partSize part) (postedSize comm r part))).map
          fun m => (partBeg s.nParts part s.bytes + m.1, partBeg s.nParts part s.bytes + m.2)) := by
  rw [delivered, ← parts, max_self, mapM_eq_map]
  · rw [map_some, flatMap_def]
  intro part mem
  have inside := mem_range.mp mem
  have same : r.partSize part = s.partSize part := by
    rw [Direction.partSize, Direction.partSize, parts, bytes]
  rw [deliveredPart, sendMessages_eq plannedSend networkSend inside nonempty chunkSend,
    recvPosts_eq plannedRecv networkRecv (parts ▸ inside) (bytes ▸ nonempty) chunkRecv, same,
    ← parts, ← bytes]
  rfl

theorem deliveredPart_some {part : Nat} {arrivals : List (Nat × Nat)}
    (arrived : deliveredPart comm s r part = some arrivals) :
    (∃ n, partNsteps s part = some n) ∧ ∃ n, partNsteps r part = some n := by
  simp only [deliveredPart, sendMessages, recvPosts, bind_eq_bind,
    bind_eq_some_iff] at arrived
  obtain ⟨_, ⟨n, sent, -⟩, _, ⟨m, ht, -⟩, -⟩ := arrived
  exact ⟨⟨n, sent⟩, ⟨m, ht⟩⟩

theorem deliveredPart_empty (sendNone : s.bytes = 0) (recvNone : r.bytes = 0) (part : Nat) :
    deliveredPart comm s r part = some [] := by
  have calls : ∀ d : Direction, d.bytes = 0 →
      ∃ n xs, partNsteps d part = some n ∧ deviceCalls comm d part = some xs ∧
        ∀ x ∈ xs, x.2 = 0 := by
    intro d none
    have size : d.partSize part = 0 := by simp [Direction.partSize, partEnd, none]
    by_cases hi : part < d.nParts
    · exact ⟨1, [(0, 0)], by simp [partNsteps, hi, none],
        by simp [deviceCalls, hi, size, Chunks.doWhile_empty], by simp⟩
    · exact ⟨0, [], by simp [partNsteps, not_lt.mp hi], by simp [deviceCalls, hi], by simp⟩
  obtain ⟨n, xs, sent, hs, hsm⟩ := calls s sendNone
  obtain ⟨m, _, ht, hr, -⟩ := calls r recvNone
  simp only [deliveredPart, sendMessages, recvPosts, sent, ht, hs, hr,
    bind_eq_bind, bind_some, some.injEq, map_eq_nil_iff]
  rw [Chunks.copied, flatMap_eq_nil_iff]
  intro message mem
  have send := (of_mem_zip mem).1
  obtain ⟨j, hb, shape⟩ := mem_mapIdx.mp send
  have size : message.1.2 = 0 := by
    rw [← shape]
    change ((xs.take n)[j]).2 = 0
    exact hsm _ (mem_of_mem_take (getElem_mem hb))
  simp [size]

/-- The receiver gets the sender's bytes exactly when the largest part fits the first message, or
both ends cut it into steps of one size that the posted receives hold. -/
theorem delivered_exact_iff (plannedSend : planDirection comm send = some s)
    (plannedRecv : planDirection comm recv = some r) (matched : send.bytes = recv.bytes)
    (networkSend : send.network = true) (networkRecv : recv.network = true)
    (sharedSend : send.llBuffers = false) (sharedRecv : recv.llBuffers = false)
    (chosen : 0 < s.nChannels) (arrivals : List (Nat × Nat))
    (arrived : delivered comm s r = some arrivals) :
    Chunks.ExactCopy send.bytes.toNat arrivals ↔
      send.bytes = 0 ∨
        min send.bytes.toNat (partBytes s.nChannels.toNat send.bytes.toNat) ≤
          min s.hostChunk (recvLimit comm r) ∨
        s.hostChunk = r.hostChunk ∧ recvLimit comm r = r.hostChunk := by
  obtain ⟨hp, bytes⟩ := pair_agrees plannedSend plannedRecv matched sharedSend sharedRecv
  obtain ⟨split, hl, -⟩ := planDirection_some plannedSend
  have count := nParts_eq plannedSend chosen
  have pos : 0 < s.nParts := by omega
  have same : s.nChannels.toNat = s.nParts := by omega
  have lower := send.sized
  rw [same, ← hl]
  rcases Nat.eq_zero_or_pos s.bytes with none | hn
  · have zero : send.bytes = 0 := by
      by_contra other
      have : send.bytes = -1 := by omega
      rw [this] at split
      simp only [chooseChannels, if_true, some.injEq] at split
      omega
    rw [delivered, mapM_eq_map _ (fun part _ => deliveredPart_empty none (bytes ▸ none) part),
      map_some, some.injEq] at arrived
    have nothing : arrivals = [] := by
      rw [← arrived, flatten_eq_nil_iff]
      intro l mem
      obtain ⟨_, _, rfl⟩ := mem_map.mp mem
      rfl
    simp [nothing, none, Chunks.ExactCopy]
  · have some' : ¬ send.bytes = 0 := by omega
    obtain ⟨_, all, -⟩ := map_eq_some_iff.mp arrived
    obtain ⟨_, part⟩ := isSome_of_mapM all 0 (mem_range.mpr (lt_max_of_lt_left pos))
    obtain ⟨⟨n, sent⟩, ⟨m, taken⟩⟩ := deliveredPart_some part
    have chunkSend := partNsteps_pos pos hn sent
    have chunkRecv := partNsteps_pos (hp ▸ pos) (bytes ▸ hn) taken
    rw [delivered_eq plannedSend plannedRecv networkSend networkRecv hp bytes hn chunkSend
      chunkRecv, some.injEq] at arrived
    have limit : recvLimit comm r ≤ r.hostChunk := by
      simp only [recvLimit, Direction.hostChunk]
      split <;> omega
    have whole : ∀ p, r.partSize p = s.partSize p := by
      intro p
      rw [Direction.partSize, Direction.partSize, hp, bytes]
    have room : ∀ p j, min (recvLimit comm r) (s.partSize p - j * r.hostChunk) ≤
        postedSize comm r p j := by
      intro p j
      rw [← whole]
      exact (postedSize_bounds (bytes ▸ hn) j).2
    rw [← arrived]
    simp only [some', false_or]
    exact Chunks.exactCopy_parts_iff chunkSend limit (partBytes_pos pos hn) hn
      (partBytes_covers s.nParts s.bytes pos)
      (fun p j => (postedSize_bounds (bytes ▸ hn) j).1) room

end Pair

def smallChunkComm : Comm :=
  { singleChannel with
    isAllNvlink := false, p2pChunkSize := 64, llBuffSize := 524288
    chunkFits := by decide, llFits := twoNodeComm.llFits }

theorem oneMessage : -1 ≤ (128 : Int) := by decide

def sharedTransfer (regFlag : Bool) : Transfer where
  bytes := 128
  network := true
  llBuffers := false
  proxySameProcess := true
  pxnUsed := false
  regFlag
  sized := oneMessage

def sharedDirection (netRegistered : Bool) : Direction where
  protocol := .simple
  bytes := 128
  chunkSizeU32fp8 := u32fp8Encode 32
  netRegistered
  ipcRegistered := false
  nChannels := 1

/- The registered sender sends all 128 bytes at once; the first post takes 32 of them and the
other three posts get nothing. -/
theorem registered_send_truncated :
    planDirection smallChunkComm (sharedTransfer true) = some (sharedDirection true) ∧
      planDirection smallChunkComm (sharedTransfer false) = some (sharedDirection false) ∧
      ∃ arrivals, delivered smallChunkComm (sharedDirection true) (sharedDirection false) =
        some arrivals ∧ ¬ Chunks.ExactCopy 128 arrivals := by
  refine ⟨by decide, by decide, (range 32).map (fun i => (i, i)), by decide, ?_⟩
  intro exact
  have lengths := exact.length_eq
  simp at lengths

theorem unregistered_pair_exact :
    delivered smallChunkComm (sharedDirection false) (sharedDirection false) =
        some ((range 128).map fun i => (i, i)) ∧
      Chunks.ExactCopy 128 ((range 128).map fun i => (i, i)) := by
  have arrived : delivered smallChunkComm (sharedDirection false) (sharedDirection false) =
      some ((range 128).map fun i => (i, i)) := by decide
  have planned : planDirection smallChunkComm (sharedTransfer false) =
      some (sharedDirection false) := by decide
  exact ⟨arrived, (delivered_exact_iff planned planned rfl rfl rfl rfl rfl (by decide) _
    arrived).mpr (.inr (.inr ⟨by decide, by decide⟩))⟩

end Vccl.P2p
