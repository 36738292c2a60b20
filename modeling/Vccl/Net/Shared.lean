import Vccl.Lib.Transition
import Vccl.Lib.RefCount

/-! The buffers and network communicators that the shared P2P connections of one local peer have in common:
`sharedNetBuffersInit` and `sharedNetBuffersDestroy` with their callers, in any order. Buffers and communicators
are numbered as they are made. -/
namespace Vccl.Net.Shared

open List Function Transition Option

/-- `type` 0 and 1. -/
inductive Direction where
  | send
  | recv
  deriving DecidableEq

structure SharedP2p where
  refcount : Nat
  size : Nat
  cudaBuff : Option Nat
  hostBuff : Option Nat
  deriving DecidableEq

def SharedP2p.zero : SharedP2p := ⟨0, 0, none, none⟩

structure ProxyPeer where
  send : SharedP2p
  recv : SharedP2p
  deriving DecidableEq

def ProxyPeer.zero : ProxyPeer := ⟨.zero, .zero⟩

def ProxyPeer.shared (peer : ProxyPeer) : Direction → SharedP2p
  | .send => peer.send
  | .recv => peer.recv

def ProxyPeer.setShared (peer : ProxyPeer) (state : SharedP2p) : Direction → ProxyPeer
  | .send => { peer with send := state }
  | .recv => { peer with recv := state }

/-- The place of a communicator in `netComms`: by device, by the remote rank, by channel, and in `sendComm` or
in `recvComm`. -/
structure CommKey where
  netDev : Nat
  remoteRank : Nat
  channelId : Nat
  dir : Direction
  deriving DecidableEq

structure SharedComm where
  comm : Option Nat
  refCount : Nat
  deriving DecidableEq

/-- A set-up that came through: the buffer and the communicator it goes on to use. `key` is where a shared
communicator is kept. -/
structure Connection where
  dir : Direction
  buffer : Nat
  comm : Option Nat
  key : Option CommKey
  deriving DecidableEq

/-- The record of the local peer and the shared communicators. `freed` and `closed` are history. -/
structure State where
  peer : Option ProxyPeer
  netComms : CommKey → SharedComm
  nextBuff : Nat
  nextComm : Nat
  freed : List Nat
  closed : List Nat
  connections : List Connection

def State.initial : State := ⟨none, fun _ => ⟨none, 0⟩, 0, 0, [], [], []⟩

def State.record (s : State) : ProxyPeer := s.peer.getD .zero

def sharedSteps : Nat := 16

structure ProxyState where
  p2pChunkSize : Nat
  p2pnChannels : Nat
  some_chunk : 0 < p2pChunkSize
  some_channel : 0 < p2pnChannels

/-- What a set-up asks for. `shared` is `maxRecvs > 1` with `NCCL_NET_SHARED_COMMS`; `ready` says that the
network has the communicator by now. -/
structure Request where
  useGdr : Bool
  sameProcess : Bool
  shared : Bool
  ready : Bool
  netDev : Nat
  remoteRank : Nat
  channelId : Nat
  deriving DecidableEq

/-- `none` for "PXN should not use host buffers for data". -/
def sharedNetBuffersInit (proxyState : ProxyState) (s : State) (cuda : Bool) (dir : Direction) (sameProcess : Bool)
    (nChannels : Nat) : Option (State × Nat) :=
  if cuda = false ∧ sameProcess = false then none
  else
    let state := s.record.shared dir
    let state := { state with refcount := state.refcount + 1 }
    let state := { state with
      size := if state.size = 0 then nChannels * sharedSteps * proxyState.p2pChunkSize else state.size }
    match if cuda then state.cudaBuff else state.hostBuff with
    | some buff => some ({ s with peer := s.record.setShared state dir }, buff)
    | none =>
      let state :=
        if cuda then { state with cudaBuff := some s.nextBuff } else { state with hostBuff := some s.nextBuff }
      some ({ s with peer := s.record.setShared state dir, nextBuff := s.nextBuff + 1 }, s.nextBuff)

def sharedNetBuffersDestroy (s : State) (dir : Direction) : Option State :=
  match s.peer with
  | none => none
  | some peer =>
    let state := peer.shared dir
    if state.size = 0 then none
    else
      let refcount := state.refcount - 1
      let freed := if refcount = 0 then s.freed ++ state.cudaBuff.toList ++ state.hostBuff.toList else s.freed
      -- The pointers stay as they are.
      let peer := peer.setShared { state with refcount } dir
      some { s with
        freed
        peer := if peer.send.refcount ≠ 0 ∨ peer.recv.refcount ≠ 0 then some peer else none }

def getComm (s : State) (dir : Direction) (req : Request) : State × Option Nat × Option CommKey :=
  if req.shared then
    let key : CommKey := ⟨req.netDev, req.remoteRank, req.channelId, dir⟩
    let entry := s.netComms key
    match entry.comm with
    | some comm =>
      ({ s with netComms := update s.netComms key ⟨some comm, entry.refCount + 1⟩ }, some comm, some key)
    | none =>
      if req.ready then
        ({ s with
          netComms := update s.netComms key ⟨some s.nextComm, entry.refCount + 1⟩
          nextComm := s.nextComm + 1 }, some s.nextComm, some key)
      else (s, none, some key)
  else if req.ready then ({ s with nextComm := s.nextComm + 1 }, some s.nextComm, none)
  else (s, none, none)

section

variable (proxyState : ProxyState)

/-- What the two connect functions do for shared connections; `sameProcess` is what they pass on. -/
def proxyConnect (dir : Direction) (sameProcess : Bool) (s : State) (req : Request) : State :=
  let s := { s with peer := s.record }
  match getComm s dir req with
  | (s, none, _) => s
  | (s, some comm, key) =>
    match sharedNetBuffersInit proxyState s req.useGdr dir sameProcess proxyState.p2pnChannels with
    -- The reference to the communicator stays with the failed set-up.
    | none => s
    | some (s, buffer) => { s with connections := ⟨dir, buffer, comm, key⟩ :: s.connections }

def sendProxyConnect (s : State) (req : Request) : State :=
  proxyConnect proxyState .send req.sameProcess s req

def recvProxyConnect (s : State) (req : Request) : State :=
  if req.sameProcess = false then (getComm { s with peer := s.record } .recv req).1
  else proxyConnect proxyState .recv true s req

def proxySharedInit (s : State) (sameProcess : Bool) (nChannels : Nat) : State :=
  match sharedNetBuffersInit proxyState s true .send sameProcess nChannels with
  | none => s
  | some (s, buffer) => { s with connections := ⟨.send, buffer, none, none⟩ :: s.connections }

def putComm (s : State) (conn : Connection) : State :=
  match conn.key, conn.comm with
  | some key, _ =>
    let entry := s.netComms key
    let refCount := entry.refCount - 1
    -- The pointer stays as it is.
    { s with
      netComms := update s.netComms key ⟨entry.comm, refCount⟩
      closed := if refCount = 0 then s.closed ++ entry.comm.toList else s.closed }
  | none, some comm => { s with closed := s.closed ++ [comm] }
  | none, none => s

def proxyFree (s : State) (conn : Connection) : State :=
  match sharedNetBuffersDestroy s conn.dir with
  | none => s
  | some s => putComm s conn

inductive Action where
  | sharedInit (sameProcess : Bool) (nChannels : Nat)
  | sendConnect (req : Request)
  | recvConnect (req : Request)
  | free (i : Nat)

def step (s : State) : Action → Option State
  | .sharedInit sameProcess nChannels =>
    if 0 < nChannels then some (proxySharedInit proxyState s sameProcess nChannels) else none
  | .sendConnect req => some (sendProxyConnect proxyState s req)
  | .recvConnect req => some (recvProxyConnect proxyState s req)
  | .free i =>
    match s.connections[i]? with
    | none => none
    | some conn => some (proxyFree { s with connections := s.connections.eraseIdx i } conn)

end

def SharedP2p.buffs (state : SharedP2p) : List Nat := state.cudaBuff.toList ++ state.hostBuff.toList

/-- No connection uses what was freed or closed; a buffer of a direction that has connections is not freed, and
every other buffer was freed, once. -/
structure Safe (s : State) : Prop where
  buffer : ∀ c ∈ s.connections, c.buffer ∉ s.freed
  comm : ∀ c ∈ s.connections, ∀ k, c.comm = some k → k ∉ s.closed
  in_use : ∀ c ∈ s.connections, ∀ b ∈ (s.record.shared c.dir).buffs, b ∉ s.freed
  freed : ∀ b < s.nextBuff, b ∈ s.freed ∨ ∃ c ∈ s.connections, b ∈ (s.record.shared c.dir).buffs
  freed_once : s.freed.Nodup
  closed_once : s.closed.Nodup

def FreshBuffs (s : State) (dir : Direction) : Prop :=
  (s.record.shared dir).refcount = 0 → (s.record.shared dir).buffs = []

def FreshComm (s : State) (dir : Direction) (req : Request) : Prop :=
  req.shared = true → (s.netComms ⟨req.netDev, req.remoteRank, req.channelId, dir⟩).refCount = 0 →
    (s.netComms ⟨req.netDev, req.remoteRank, req.channelId, dir⟩).comm = none

def Fresh (s : State) : Action → Prop
  | .sharedInit _ _ => FreshBuffs s .send
  | .sendConnect req => FreshBuffs s .send ∧ FreshComm s .send req
  | .recvConnect req => FreshBuffs s .recv ∧ FreshComm s .recv req
  | .free _ => True

open RefCount

def buffTable (s : State) : Table Direction where
  slots dir := ⟨(s.record.shared dir).refcount, (s.record.shared dir).buffs⟩
  next := s.nextBuff
  released := s.freed

def Connection.Owns (n : Nat) (c : Connection) : Prop := c.key = none ∧ c.comm = some n

instance (n : Nat) (c : Connection) : Decidable (c.Owns n) :=
  inferInstanceAs (Decidable (c.key = none ∧ c.comm = some n))

def commTable (s : State) : Table (CommKey ⊕ Nat) where
  slots
    | .inl key => ⟨(s.netComms key).refCount, (s.netComms key).comm.toList⟩
    | .inr n => if ∃ c ∈ s.connections, c.Owns n then ⟨1, [n]⟩ else ⟨0, []⟩
  next := s.nextComm
  released := s.closed

structure BuffInv (s : State) : Prop where
  sound : Sound (buffTable s)
  accounted : Accounted (buffTable s)
  counts : ∀ dir, (s.record.shared dir).refcount = s.connections.countP (·.dir = dir)
  held : ∀ c ∈ s.connections, c.buffer ∈ (s.record.shared c.dir).buffs
  sized : ∀ dir, 0 < (s.record.shared dir).refcount → (s.record.shared dir).size ≠ 0

structure CommInv (s : State) : Prop where
  sound : Sound (commTable s)
  refs : ∀ key, s.connections.countP (·.key = some key) ≤ (s.netComms key).refCount
  filled : ∀ key, (s.netComms key).comm = none → (s.netComms key).refCount = 0
  keyed : ∀ c ∈ s.connections, ∀ key, c.key = some key → c.comm = (s.netComms key).comm
  owned : ∀ n, s.connections.countP (·.Owns n) ≤ 1

theorem buffInv_initial : BuffInv State.initial := by
  have empty : buffTable State.initial = ⟨fun _ => ⟨0, []⟩, 0, []⟩ := by
    simp only [buffTable, State.initial, Table.mk.injEq, and_true]
    funext dir
    cases dir <;> rfl
  refine ⟨empty ▸ sound_empty, empty ▸ accounted_empty, ?_, by simp [State.initial], ?_⟩
  · intro dir
    cases dir <;> rfl
  · intro dir
    cases dir <;> simp [State.initial, State.record, ProxyPeer.zero, ProxyPeer.shared, SharedP2p.zero]

theorem commInv_initial : CommInv State.initial := by
  have empty : commTable State.initial = ⟨fun _ => ⟨0, []⟩, 0, []⟩ := by
    simp only [commTable, State.initial, Table.mk.injEq, and_true]
    funext key
    cases key <;> simp
  refine ⟨empty ▸ sound_empty, ?_, ?_, ?_, ?_⟩ <;> simp [State.initial]

variable {s s' : State}

variable {c : Connection}

theorem BuffInv.used (h : BuffInv s) (mem : c ∈ s.connections) :
    0 < (s.record.shared c.dir).refcount := by
  rw [h.counts]
  exact countP_pos_iff.mpr ⟨c, mem, by simp⟩

theorem CommInv.used (h : CommInv s) (mem : c ∈ s.connections) {key : CommKey} (kept : c.key = some key) :
    0 < (s.netComms key).refCount := by
  have some_user : 0 < s.connections.countP (·.key = some key) :=
    countP_pos_iff.mpr ⟨c, mem, by simp [kept]⟩
  have := h.refs key
  omega

theorem CommInv.comm_open (h : CommInv s) (mem : c ∈ s.connections) {k : Nat} (comm : c.comm = some k) :
    k ∉ s.closed := by
  cases key : c.key with
  | some key' =>
    apply h.sound.kept (.inl key') (h.used mem key)
    rw [h.keyed c mem key' key] at comm
    simp [commTable, comm]
  | none =>
    have own : ∃ c ∈ s.connections, c.Owns k := ⟨c, mem, key, comm⟩
    apply h.sound.kept (.inr k)
    · simp [commTable, own]
    · simp [commTable, own]

theorem safe_of_inv (buffs : BuffInv s) (comms : CommInv s) : Safe s where
  buffer c mem := buffs.sound.kept c.dir (buffs.used mem) c.buffer (buffs.held c mem)
  comm c mem k comm := comms.comm_open mem comm
  in_use c mem b inside := buffs.sound.kept c.dir (buffs.used mem) b inside
  freed b below := by
    rcases buffs.accounted b below with hr | ⟨dir, pos, inside⟩
    · exact .inl hr
    · have some_user : 0 < s.connections.countP (·.dir = dir) := buffs.counts dir ▸ pos
      obtain ⟨c, mem, same⟩ := countP_pos_iff.mp some_user
      have same : c.dir = dir := by simpa using same
      exact .inr ⟨c, mem, same ▸ inside⟩
  freed_once := buffs.sound.once
  closed_once := comms.sound.once

theorem ProxyPeer.shared_setShared (peer : ProxyPeer) (state : SharedP2p) (dir dir' : Direction) :
    (peer.setShared state dir).shared dir' = if dir' = dir then state else peer.shared dir' := by
  cases dir <;> cases dir' <;> rfl

theorem buffTable_setShared (s : State) (state : SharedP2p) (dir : Direction) (conns : List Connection) :
    buffTable { s with peer := s.record.setShared state dir, connections := conns } =
      (buffTable s).set dir ⟨state.refcount, state.buffs⟩ := by
  simp only [buffTable, Table.set, State.record, Table.mk.injEq, and_true]
  funext dir'
  by_cases same : dir' = dir
  all_goals simp [same, ProxyPeer.shared_setShared]

variable {dir : Direction} {cuda sameProcess : Bool}

theorem sharedNetBuffersInit_spec {proxyState : ProxyState} {nChannels buff : Nat}
    (some_channel : 0 < nChannels)
    (init : sharedNetBuffersInit proxyState s cuda dir sameProcess nChannels = some (s', buff)) :
    ∃ state : SharedP2p, ∃ nextBuff,
      s' = { s with peer := s.record.setShared state dir, nextBuff } ∧
      state.refcount = (s.record.shared dir).refcount + 1 ∧ state.size ≠ 0 ∧ buff ∈ state.buffs ∧
      ((nextBuff = s.nextBuff ∧ state.buffs = (s.record.shared dir).buffs) ∨
        (nextBuff = s.nextBuff + 1 ∧ state.buffs.Perm (s.nextBuff :: (s.record.shared dir).buffs))) := by
  have sized : nChannels * sharedSteps * proxyState.p2pChunkSize ≠ 0 := by
    have some_step : 0 < sharedSteps := by decide
    exact Nat.ne_of_gt (Nat.mul_pos (Nat.mul_pos some_channel some_step) proxyState.some_chunk)
  have kept : (if (s.record.shared dir).size = 0 then nChannels * sharedSteps * proxyState.p2pChunkSize
      else (s.record.shared dir).size) ≠ 0 := by
    split <;> assumption
  unfold sharedNetBuffersInit at init
  split at init
  · cases init
  -- The buffer of one kind is there or it is made; the other kind stays as it is.
  generalize chosen : s.record.shared dir = old at init kept
  rcases cuda with - | - <;> rcases old with ⟨refcount, size, - | device, - | host⟩ <;>
    obtain ⟨rfl, rfl⟩ := init <;>
    refine ⟨_, _, rfl, rfl, kept, by simp [SharedP2p.buffs], ?_⟩ <;>
    simp [SharedP2p.buffs, Perm.swap]

theorem BuffInv.of_direction (h : BuffInv s) {state : SharedP2p}
    (shared : ∀ dir', s'.record.shared dir' = if dir' = dir then state else s.record.shared dir')
    (sound : Sound (buffTable s')) (accounted : Accounted (buffTable s'))
    (count : state.refcount = s'.connections.countP (·.dir = dir))
    (others : ∀ dir', dir' ≠ dir → s'.connections.countP (·.dir = dir') = s.connections.countP (·.dir = dir'))
    (held : ∀ c ∈ s'.connections, (c.dir = dir ∧ c.buffer ∈ state.buffs) ∨ (c.dir ≠ dir ∧ c ∈ s.connections))
    (sized : 0 < state.refcount → state.size ≠ 0) : BuffInv s' := by
  obtain ⟨-, -, counts, _, _⟩ := h
  refine ⟨sound, accounted, fun dir' => ?_, ?_, ?_⟩
  · by_cases same : dir' = dir
    · rw [shared, if_pos same, count, same]
    · rw [shared, if_neg same, counts, others dir' same]
  · grind
  · grind

theorem BuffInv.init {proxyState : ProxyState} (h : BuffInv s) {nChannels buff : Nat} (fresh : FreshBuffs s dir)
    (some_channel : 0 < nChannels)
    (init : sharedNetBuffersInit proxyState s cuda dir sameProcess nChannels = some (s', buff))
    (comm : Option Nat) (key : Option CommKey) :
    BuffInv { s' with connections := ⟨dir, buff, comm, key⟩ :: s'.connections } := by
  obtain ⟨state, nextBuff, rfl, hc, hs, _, made⟩ := sharedNetBuffersInit_spec some_channel init
  have tables : Sound (buffTable { s with peer := s.record.setShared state dir, nextBuff }) ∧
      Accounted (buffTable { s with peer := s.record.setShared state dir, nextBuff }) := by
    have table : buffTable { s with peer := s.record.setShared state dir, nextBuff } =
        { (buffTable s).set dir ⟨state.refcount, state.buffs⟩ with next := nextBuff } := by
      rw [← buffTable_setShared s state dir s.connections]
      rfl
    rw [table]
    rcases made with ⟨rfl, same⟩ | ⟨rfl, new⟩
    · rw [hc, same]
      exact ⟨h.sound.take fresh, h.accounted.take⟩
    · rw [hc]
      exact ⟨h.sound.take_alloc fresh new, h.accounted.take_alloc new⟩
  refine h.of_direction (ProxyPeer.shared_setShared s.record state dir) tables.1 tables.2 ?_ ?_ ?_ fun _ => hs
  · simp [hc, h.counts dir]
  · intro dir' other
    simp [Ne.symm other]
  · intro c mem
    have held := h.held c
    grind

theorem BuffInv.discard (h : BuffInv s) (unused : ∀ dir, (s.record.shared dir).refcount = 0) :
    BuffInv { s with peer := none } := by
  have nothing : ∀ dir, (ProxyPeer.zero.shared dir).refcount = 0 := by
    intro dir
    cases dir <;> rfl
  have table : buffTable { s with peer := none } =
      ((buffTable s).set .send ⟨0, []⟩).set .recv ⟨0, []⟩ := by
    simp only [buffTable, Table.set, Table.mk.injEq, and_true]
    funext dir
    cases dir <;> rfl
  have no_send : ((buffTable s).slots .send).count = 0 := unused .send
  have no_recv : (((buffTable s).set .send ⟨0, []⟩).slots .recv).count = 0 := unused .recv
  refine ⟨?_, ?_, ?_, ?_, ?_⟩
  · rw [table]
    exact h.sound.clear.clear
  · rw [table]
    exact (h.accounted.clear no_send).clear no_recv
  · intro dir
    exact (nothing dir).trans ((unused dir).symm.trans (h.counts dir))
  · intro c mem
    exact absurd (unused c.dir) (Nat.ne_of_gt (h.used mem))
  · intro dir pos
    exact absurd (nothing dir) (Nat.ne_of_gt pos)

variable {rest : List Connection}

theorem BuffInv.put (h : BuffInv s) (perm : s.connections.Perm (c :: rest)) :
    BuffInv { s with
      connections := rest
      freed := if (s.record.shared c.dir).refcount - 1 = 0 then s.freed ++ (s.record.shared c.dir).buffs else s.freed
      peer := s.record.setShared
        { s.record.shared c.dir with refcount := (s.record.shared c.dir).refcount - 1 } c.dir } := by
  set old := s.record.shared c.dir with old_def
  have used : 0 < old.refcount := h.used (perm.mem_iff.mpr mem_cons_self)
  have counts := fun dir => (h.counts dir).trans (perm.countP_eq _)
  have tables : ∀ freed, buffTable { s with
      connections := rest, freed, peer := s.record.setShared { old with refcount := old.refcount - 1 } c.dir } =
        { (buffTable s).set c.dir ⟨old.refcount - 1, old.buffs⟩ with released := freed } := by
    intro freed
    rw [show old.buffs = SharedP2p.buffs { old with refcount := old.refcount - 1 } from rfl,
      ← buffTable_setShared s { old with refcount := old.refcount - 1 } c.dir rest]
    rfl
  have count := counts c.dir
  rw [countP_cons, ← old_def] at count
  refine h.of_direction (ProxyPeer.shared_setShared s.record _ c.dir) ?_ ?_ ?_ ?_ ?_ fun _ => h.sized c.dir used
  · rw [tables]
    exact h.sound.drop used
  · rw [tables]
    exact h.accounted.drop
  · simp [count]
  · intro dir other
    simpa [Ne.symm other, h.counts] using (counts dir).symm
  · intro c' mem
    have held := h.held c' (perm.mem_iff.mpr (mem_cons_of_mem _ mem))
    have inside : c' ∈ s.connections := perm.mem_iff.mpr (mem_cons_of_mem _ mem)
    by_cases same : c'.dir = c.dir
    · exact .inl ⟨same, by rwa [same] at held⟩
    · exact .inr ⟨same, inside⟩

theorem BuffInv.destroy (h : BuffInv s) (perm : s.connections.Perm (c :: rest)) :
    ∃ s', s' = { s with connections := rest, freed := s'.freed, peer := s'.peer } ∧
      sharedNetBuffersDestroy { s with connections := rest } c.dir = some s' ∧ BuffInv s' := by
  have used : 0 < (s.record.shared c.dir).refcount := h.used (perm.mem_iff.mpr mem_cons_self)
  have put := h.put perm
  cases hf : s.peer with
  | none =>
    have empty : (s.record.shared c.dir).refcount = 0 := by
      rw [State.record, hf]
      cases c.dir <;> rfl
    omega
  | some peer =>
    have record : s.record = peer := by rw [State.record, hf]; rfl
    rw [record] at used put
    have sized : (peer.shared c.dir).size ≠ 0 := record ▸ h.sized c.dir (record ▸ used)
    simp only [sharedNetBuffersDestroy, sized]
    refine ⟨_, rfl, rfl, ?_⟩
    simp only [append_assoc]
    split
    · exact put
    rename_i hu
    push Not at hu
    refine put.discard ?_
    intro dir
    cases dir with
    | send => exact hu.1
    | recv => exact hu.2

/-- A communicator that a connection can be made with: the shared one, with a reference left for the
connection, or one that nothing else has. -/
def Ready (s : State) (comm : Option Nat) : Option CommKey → Prop
  | some key => comm = (s.netComms key).comm ∧
      s.connections.countP (·.key = some key) + 1 ≤ (s.netComms key).refCount
  | none => ∀ n, comm = some n → n < s.nextComm ∧ n ∉ s.closed ∧ ∀ k, n ∉ ((commTable s).slots k).objs

theorem commTable_netComms (s : State) (key : CommKey) (entry : SharedComm) (nextComm : Nat) (closed : List Nat) :
    commTable { s with netComms := update s.netComms key entry, nextComm, closed } =
      { (commTable s).set (.inl key) ⟨entry.refCount, entry.comm.toList⟩ with
        next := nextComm, released := closed } := by
  simp only [commTable, Table.set, Table.mk.injEq, and_true]
  funext k
  cases k with
  | inl key' =>
    by_cases same : key' = key
    · simp [same]
    · simp [same]
  | inr n => simp

theorem CommInv.of_entry (h : CommInv s) {key : CommKey} {entry : SharedComm} {nextComm : Nat}
    {closed : List Nat} {conns : List Connection}
    (sound : Sound (commTable { s with
      netComms := update s.netComms key entry, nextComm, closed, connections := conns }))
    (fewer : conns.Sublist s.connections)
    (refs : conns.countP (·.key = some key) ≤ entry.refCount)
    (filled : entry.comm = none → entry.refCount = 0)
    (keyed : ∀ c ∈ conns, c.key = some key → c.comm = entry.comm) :
    CommInv { s with netComms := update s.netComms key entry, nextComm, closed, connections := conns } := by
  refine ⟨sound, ?_, ?_, ?_, ?_⟩
  · intro key'
    by_cases same : key' = key
    · simpa [same] using refs
    · simpa [same] using Nat.le_trans fewer.countP_le (h.refs key')
  · intro key' hm
    by_cases same : key' = key
    · simp only [same, update_self] at hm ⊢
      exact filled hm
    · simp only [same, update_of_ne, ne_eq, not_false_eq_true] at hm ⊢
      exact h.filled key' hm
  · intro c mem key' kept
    by_cases same : key' = key
    · simpa [same] using keyed c mem (same ▸ kept)
    · simpa [same] using h.keyed c (fewer.subset mem) key' kept
  · intro n
    exact Nat.le_trans fewer.countP_le (h.owned n)

theorem CommInv.take (h : CommInv s) {key : CommKey} {comm nextComm : Nat}
    (sound : Sound { (commTable s).set (.inl key) ⟨(s.netComms key).refCount + 1, [comm]⟩ with next := nextComm })
    (keyed : ∀ c ∈ s.connections, c.key = some key → c.comm = some comm) :
    let netComms := update s.netComms key ⟨some comm, (s.netComms key).refCount + 1⟩
    CommInv { s with netComms, nextComm } ∧ Ready { s with netComms, nextComm } (some comm) (some key) := by
  have refs := h.refs key
  refine ⟨h.of_entry ?_ (Sublist.refl _) (Nat.le_succ_of_le refs) (by simp) keyed, by simp, by simpa using refs⟩
  rw [commTable_netComms]
  exact sound

variable {req : Request}

theorem CommInv.get (h : CommInv s) (fresh : FreshComm s dir req) :
    CommInv (getComm s dir req).1 ∧ ∀ comm, (getComm s dir req).2.1 = some comm →
      Ready (getComm s dir req).1 (some comm) (getComm s dir req).2.2 := by
  have nothing (key : Option CommKey) : ∀ comm, none = some comm → Ready s (some comm) key := nofun
  simp only [getComm]
  split
  next shared =>
    have fresh := fresh shared
    generalize (⟨req.netDev, req.remoteRank, req.channelId, dir⟩ : CommKey) = key at fresh
    have slot : (commTable s).slots (.inl key) = ⟨(s.netComms key).refCount, (s.netComms key).comm.toList⟩ := rfl
    split
    next comm hf =>
      have taken := Sound.take (k := .inl key) h.sound fun zero => by simp [slot, fresh zero]
      rw [slot, hf] at taken
      obtain ⟨kept, ready⟩ := h.take taken fun c mem kept => (h.keyed c mem key kept).trans hf
      exact ⟨kept, fun _ same => some.inj same ▸ ready⟩
    next hf =>
      split
      · have taken := h.sound.take_alloc (k := .inl key) (fun _ => by simp [slot, hf])
          (show [s.nextComm].Perm _ by simp [hf, commTable])
        obtain ⟨kept, ready⟩ := h.take taken fun c mem kept =>
          absurd (h.filled key hf) (Nat.ne_of_gt (h.used mem kept))
        exact ⟨kept, fun _ same => some.inj same ▸ ready⟩
      · exact ⟨h, nothing _⟩
  · split
    · refine ⟨⟨h.sound.skip, h.refs, h.filled, h.keyed, h.owned⟩, ?_⟩
      intro _ same n own
      cases some.inj same
      cases some.inj own
      refine ⟨Nat.lt_succ_self _, ?_, ?_⟩
      · exact fun hc => absurd (h.sound.gone _ hc) (Nat.lt_irrefl _)
      · exact fun k hi => absurd (h.sound.known k _ hi) (Nat.lt_irrefl _)
    · exact ⟨h, nothing _⟩

theorem Connection.Owns.eq {m n : Nat} (one : c.Owns m) (other : c.Owns n) : m = n :=
  some.inj (one.2.symm.trans other.2)

theorem commTable_owns (s : State) (c : Connection) {n : Nat} (own : c.Owns n) :
    commTable { s with connections := c :: s.connections } = (commTable s).set (.inr n) ⟨1, [n]⟩ := by
  simp only [commTable, Table.set, Table.mk.injEq, and_true]
  funext k
  cases k with
  | inl key => simp
  | inr m =>
    by_cases same : m = n
    · simp [same, own]
    · have other : ¬ c.Owns m := fun both => same (both.eq own)
      simp [same, other]

theorem commTable_shares (s : State) (c : Connection) (shares : ∀ n, ¬ c.Owns n) :
    commTable { s with connections := c :: s.connections } = commTable s := by
  simp [commTable, shares]

theorem CommInv.connect (h : CommInv s) (ready : Ready s c.comm c.key) :
    CommInv { s with connections := c :: s.connections } := by
  refine ⟨?_, ?_, h.filled, ?_, ?_⟩
  · by_cases own : ∃ n, c.Owns n
    · obtain ⟨n, own⟩ := own
      rw [own.1] at ready
      obtain ⟨hb, hs, free⟩ := ready n own.2
      rw [commTable_owns s c own]
      exact h.sound.adopt hb hs free
    · rw [commTable_shares s c (fun n both => own ⟨n, both⟩)]
      exact h.sound
  · intro key
    by_cases same : c.key = some key
    · rw [same] at ready
      simpa [same] using ready.2
    · simpa [same] using h.refs key
  · refine forall_mem_cons.mpr ⟨?_, h.keyed⟩
    intro key kept
    rw [kept] at ready
    exact ready.1
  · intro n
    by_cases own : c.Owns n
    · rw [own.1] at ready
      have free := (ready n own.2).2.2 (.inr n)
      have nobody : s.connections.countP (·.Owns n) = 0 := by
        refine countP_eq_zero.mpr fun c' mem both => ?_
        have both : c'.Owns n := by simpa using both
        have found : ∃ c ∈ s.connections, c.Owns n := ⟨c', mem, both⟩
        simp [commTable, found] at free
      simp [own, nobody]
    · simpa [own] using h.owned n

theorem CommInv.put (h : CommInv s) (perm : s.connections.Perm (c :: rest)) (fewer : rest.Sublist s.connections) :
    CommInv (putComm { s with connections := rest } c) := by
  have mem : c ∈ s.connections := perm.mem_iff.mpr mem_cons_self
  have owners : ∀ n, (∃ c' ∈ s.connections, c'.Owns n) ↔ c.Owns n ∨ ∃ c' ∈ rest, c'.Owns n := by
    intro n
    simp [perm.mem_iff]
  cases kept : c.key with
  | some key =>
    have used := h.used mem kept
    have refs := h.refs key
    rw [perm.countP_eq, countP_cons, if_pos (by simp [kept])] at refs
    have shares (n : Nat) : ¬ c.Owns n := by simp [Connection.Owns, kept]
    have same_owners : ∀ n, (∃ c' ∈ rest, c'.Owns n) ↔ ∃ c' ∈ s.connections, c'.Owns n := by
      simp [owners, shares]
    simp only [putComm, kept]
    refine h.of_entry ?_ fewer (Nat.le_sub_one_of_lt (Nat.lt_of_succ_le refs)) ?_ ?_
    · have table : ∀ closed, commTable { s with
          netComms := update s.netComms key ⟨(s.netComms key).comm, (s.netComms key).refCount - 1⟩
          closed
          connections := rest } =
          { (commTable s).set (.inl key) ⟨(s.netComms key).refCount - 1, (s.netComms key).comm.toList⟩ with
            released := closed } := by
        intro closed
        refine Eq.trans ?_ (commTable_netComms s key ⟨_, (s.netComms key).refCount - 1⟩ s.nextComm closed)
        simp [commTable, same_owners]
      rw [table]
      exact h.sound.drop used
    · intro hm
      have := h.filled key hm
      omega
    · intro c' hi kept'
      exact h.keyed c' (fewer.subset hi) key kept'
  | none =>
    have refs : ∀ key, rest.countP (·.key = some key) ≤ (s.netComms key).refCount := fun key =>
      Nat.le_trans fewer.countP_le (h.refs key)
    have keyed : ∀ c' ∈ rest, ∀ key, c'.key = some key → c'.comm = (s.netComms key).comm := fun c' hi =>
      h.keyed c' (fewer.subset hi)
    have owned : ∀ n, rest.countP (·.Owns n) ≤ 1 := fun n =>
      Nat.le_trans fewer.countP_le (h.owned n)
    cases comm : c.comm with
    | none =>
      have shares (n : Nat) : ¬ c.Owns n := by simp [Connection.Owns, comm]
      simp only [putComm, kept, comm]
      refine ⟨?_, refs, h.filled, keyed, owned⟩
      have table : commTable { s with connections := rest } = commTable s := by
        simp [commTable, owners, shares]
      rw [table]
      exact h.sound
    | some n =>
      have own : c.Owns n := ⟨kept, comm⟩
      simp only [putComm, kept, comm]
      refine ⟨?_, refs, h.filled, keyed, owned⟩
      have alone : ¬ ∃ c' ∈ rest, c'.Owns n := by
        rintro ⟨c', hi, both⟩
        have one := h.owned n
        have more : 0 < rest.countP (·.Owns n) := countP_pos_iff.mpr ⟨c', hi, by simpa using both⟩
        rw [perm.countP_eq, countP_cons, if_pos (by simpa using own)] at one
        omega
      have slot : (commTable s).slots (.inr n) = ⟨1, [n]⟩ := by
        have found : ∃ c' ∈ s.connections, c'.Owns n := ⟨c, mem, own⟩
        simp [commTable, found]
      have table : commTable { s with connections := rest, closed := s.closed ++ [n] } =
          ({ (commTable s).set (.inr n) ⟨0, [n]⟩ with released := s.closed ++ [n] } : Table _).set
            (.inr n) ⟨0, []⟩ := by
        simp only [commTable, Table.set, Table.mk.injEq, and_true]
        funext k
        cases k with
        | inl key => simp
        | inr m =>
          by_cases same : m = n
          · subst same
            simp [alone]
          · have other : ¬ c.Owns m := fun both => same (both.eq own)
            simp [same, owners, other]
      have released := Sound.drop (k := .inr n) h.sound (by rw [slot]; exact Nat.one_pos)
      rw [slot] at released
      rw [table]
      exact released.clear

variable {proxyState : ProxyState}

def Inv (s : State) : Prop := BuffInv s ∧ CommInv s

variable {dir : Direction}

theorem inv_getComm (h : Inv s) (fresh : FreshComm s dir req) :
    Inv (getComm s dir req).1 ∧ (getComm s dir req).1.record = s.record ∧
      ∀ comm, (getComm s dir req).2.1 = some comm →
        Ready (getComm s dir req).1 (some comm) (getComm s dir req).2.2 := by
  obtain ⟨hc, ready⟩ := h.2.get fresh
  have same : ∃ netComms nextComm, (getComm s dir req).1 = { s with netComms, nextComm } := by
    simp only [getComm]
    repeat' split
    all_goals exact ⟨_, _, rfl⟩
  obtain ⟨netComms, nextComm, same⟩ := same
  refine ⟨⟨?_, hc⟩, ?_, ready⟩
  · rw [same]
    exact { h.1 with }
  · rw [same]
    rfl

theorem inv_init (h : Inv s) {nChannels buff : Nat} (fresh : FreshBuffs s dir) (some_channel : 0 < nChannels)
    (init : sharedNetBuffersInit proxyState s cuda dir sameProcess nChannels = some (s', buff))
    {comm : Option Nat} {key : Option CommKey} (ready : Ready s comm key) :
    Inv { s' with connections := ⟨dir, buff, comm, key⟩ :: s'.connections } := by
  refine ⟨h.1.init fresh some_channel init comm key, ?_⟩
  obtain ⟨_, nextBuff, rfl, -⟩ := sharedNetBuffersInit_spec some_channel init
  have connected : CommInv { s with connections := ⟨dir, buff, comm, key⟩ :: s.connections } := h.2.connect ready
  exact { connected with }

theorem inv_proxyConnect (h : Inv s) {sameProcess : Bool} (buffs : FreshBuffs s dir)
    (comms : FreshComm s dir req) :
    Inv (proxyConnect proxyState dir sameProcess s req) := by
  have recorded : Inv { s with peer := s.record } := ⟨{ h.1 with }, { h.2 with }⟩
  have fresh : FreshComm { s with peer := s.record } dir req := comms
  obtain ⟨kept, hr, ready⟩ := inv_getComm recorded fresh
  simp only [proxyConnect]
  generalize getComm { s with peer := s.record } dir req = got at kept hr ready
  obtain ⟨s₁, comm, _⟩ := got
  cases comm with
  | none => exact kept
  | some comm =>
    cases init : sharedNetBuffersInit proxyState s₁ req.useGdr dir sameProcess proxyState.p2pnChannels with
    | none =>
      simp only [init]
      exact kept
    | some made =>
      obtain ⟨_, _⟩ := made
      have fresh : FreshBuffs s₁ dir := by
        rw [FreshBuffs, hr]
        exact buffs
      simp only [init]
      exact inv_init kept fresh proxyState.some_channel init (ready comm rfl)

theorem inv_free (h : Inv s) {i : Nat} {c : Connection} (found : s.connections[i]? = some c) :
    Inv (proxyFree { s with connections := s.connections.eraseIdx i } c) := by
  obtain ⟨hbe, at_i⟩ := List.getElem?_eq_some_iff.mp found
  have perm : s.connections.Perm (c :: s.connections.eraseIdx i) := by
    have perm := (getElem_cons_eraseIdx_perm hbe).symm
    rwa [at_i] at perm
  have fewer : (s.connections.eraseIdx i).Sublist s.connections := eraseIdx_sublist _ _
  obtain ⟨s', same, hd, hb⟩ := h.1.destroy perm
  have comms := CommInv.put (s := { s with peer := s'.peer, freed := s'.freed }) { h.2 with } perm fewer
  simp only [proxyFree, hd]
  refine ⟨?_, ?_⟩
  · unfold putComm
    split
    · exact { hb with }
    · exact { hb with }
    · exact hb
  · rw [same]
    exact comms

theorem inv_step {a : Action} (h : Inv s) (fresh : Fresh s a) (next : step proxyState s a = some s') :
    Inv s' := by
  cases a with
  | sharedInit sameProcess nChannels =>
    simp only [step] at next
    split at next
    next hs =>
      cases next
      unfold proxySharedInit
      split
      · exact h
      next init => exact inv_init h fresh hs init (fun n own => by cases own)
    · cases next
  | sendConnect req =>
    cases next
    exact inv_proxyConnect h fresh.1 fresh.2
  | recvConnect req =>
    cases next
    unfold recvProxyConnect
    split
    · exact (inv_getComm (s := { s with peer := s.record }) ⟨{ h.1 with }, { h.2 with }⟩ fresh.2).1
    · exact inv_proxyConnect h fresh.1 fresh.2
  | free i =>
    cases hf : s.connections[i]? with
    | none => simp [step, hf] at next
    | some c =>
      simp only [step, hf, some.injEq] at next
      subst next
      exact inv_free h hf

theorem inv_initial : Inv State.initial := ⟨buffInv_initial, commInv_initial⟩

/-- As long as nothing is set up again from what an earlier free left behind, no connection is given a freed
buffer or a closed communicator, and every buffer is freed once, after the last connection of its direction. -/
theorem safe_of_fresh (actions : List Action)
    (fresh : Meets (step proxyState) Fresh State.initial actions)
    (ran : run (step proxyState) State.initial actions = some s) : Safe s := by
  obtain ⟨hb, comms⟩ :=
    run_invariant Inv (fun _ _ _ h fresh next => inv_step h fresh next) actions inv_initial fresh ran
  exact safe_of_inv hb comms

instance (s : State) (a : Action) : Decidable (Fresh s a) := by
  unfold Fresh FreshBuffs FreshComm
  split <;> infer_instance

def oneChannel : ProxyState := ⟨1, 1, Nat.one_pos, Nat.one_pos⟩

def sharedWith (remoteRank : Nat) : Request := ⟨true, true, true, true, 0, remoteRank, 0⟩

def bothWays : List Action :=
  [.sendConnect (sharedWith 1), .recvConnect (sharedWith 1), .free 1, .free 0,
    .sendConnect (sharedWith 2), .recvConnect (sharedWith 2)]

theorem safe_bothWays : ∃ s, run (step oneChannel) State.initial bothWays = some s ∧
    s.connections.length = 2 ∧ Safe s := by
  obtain ⟨s, ran, hf⟩ := run_reaches (step oneChannel) State.initial bothWays
    (fun s => s.connections.length = 2) (by decide)
  exact ⟨s, ran, by simpa using hf, safe_of_fresh bothWays (by decide) ran⟩

/-- While the receives keep the record, a send that is set up again is given the buffer and the communicator
that the first one gave back, and both are given back once more. -/
theorem freed_buffer_is_returned :
    (∃ s, run (step oneChannel) State.initial
        [.sendConnect (sharedWith 1), .recvConnect (sharedWith 1), .free 1, .sendConnect (sharedWith 1)] = some s ∧
      ∃ c ∈ s.connections, c.buffer ∈ s.freed ∧ ∃ k, c.comm = some k ∧ k ∈ s.closed) ∧
    ∃ s, run (step oneChannel) State.initial
        [.sendConnect (sharedWith 1), .recvConnect (sharedWith 1), .free 1, .sendConnect (sharedWith 1),
          .free 0] = some s ∧
      ¬ s.freed.Nodup ∧ ¬ s.closed.Nodup := by
  refine ⟨⟨_, rfl, ⟨.send, 0, some 0, some ⟨0, 1, 0, .send⟩⟩, ?_, ?_, 0, rfl, ?_⟩, _, rfl, ?_, ?_⟩ <;> decide

end Vccl.Net.Shared
