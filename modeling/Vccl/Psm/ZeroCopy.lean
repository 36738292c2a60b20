import Vccl.P2p.Split
import Vccl.Psm.Progress
import Vccl.Register.Cache

/-! How each of two ranks of a node decides, for itself, whether its proxy ops of a send/recv pair
copy between the user buffers or through the FIFO (`addP2pToPlan`, `ncclRegisterP2pIpcBuffer`,
`psmIpcLocalRegisterBuffer`), and when the two decisions agree. -/
namespace Vccl.Psm.ZeroCopy

open P2p (Comm Transfer Direction planDirection protocolOf proxyNsteps)

inductive Side where
  | send
  | recv
  deriving DecidableEq

/-- A connector of index 1 as `selectTransport` and the setup and connect calls leave it. -/
inductive Connector where
  | psmP2p (intermediate useRead : Bool)
  | psmNet (llBuffers : Bool)
  deriving DecidableEq

def Connector.isNet : Connector → Bool
  | .psmP2p .. => false
  | .psmNet _ => true

/-- `psm_p2p` has buffers of the Simple protocol only. -/
def Connector.llBuffers : Connector → Bool
  | .psmP2p .. => false
  | .psmNet llBuffers => llBuffers

/-- `NCCL_P2P_READ` and `NCCL_P2P_WRITE`; the sender never uses reads here. -/
def Connector.flags (side : Side) : Connector → Bool × Bool
  | .psmP2p intermediate useRead =>
    let read := useRead && decide (side = .recv)
    (!intermediate && read, !intermediate && !read)
  | .psmNet _ => (false, false)

/-- One rank's part in the pair: its connectors to the peer, one for each part, its buffer and its
cache of registered buffers, and what the calls out of the library answer. -/
structure Endpoint where
  side : Side
  comm : Comm
  conns : List Connector
  connected : conns.length = comm.nChannelsMax
  proxySameProcess : Bool
  pxnUsed : Bool
  netFlag : Bool
  cfg : Register.Config
  buff : Register.Buffer cfg
  slots : List Register.Reg
  /-- By entry of the cache: it was registered with the peer before. -/
  psmIpcInfos : Nat → Bool
  persistent : Bool
  graphRegister : Bool
  /-- What `ncclIpcGraphRegisterBuffer` says. -/
  graphFlag : Bool
  /-- Where the peer's proxy has mapped the buffer, `none` if a call failed on the way. -/
  rmtRegAddr : Option Nat

def psmIpcRegisterBuffer (e : Endpoint) (reg : Register.Reg) : Bool :=
  if e.psmIpcInfos reg.ptr then true
  else match e.rmtRegAddr with
    | some addr => decide (addr ≠ 0)
    | none => false

def psmIpcLocalRegisterBuffer (e : Endpoint) : Bool :=
  if e.buff.data ≠ 0 ∧ 0 < e.buff.size then
    match Register.regFind e.cfg e.slots e.buff with
    | some reg => if reg.localRefs ≠ 0 then psmIpcRegisterBuffer e reg else false
    | none => false
  else false

def registerP2pIpcBuffer (e : Endpoint) : Bool :=
  let regFlag := e.persistent && e.graphRegister && e.graphFlag
  if regFlag = false ∧ e.cfg.localRegister then psmIpcLocalRegisterBuffer e else regFlag

def network (e : Endpoint) : Bool := e.conns.any Connector.isNet

/-- The registration a direction without the network asks for, by its first connector. -/
def ipcFlag (e : Endpoint) : Bool :=
  match e.conns with
  | [] => false
  | conn :: _ =>
    let (read, write) := conn.flags e.side
    if e.buff.data ≠ 0 then (if read || write then registerP2pIpcBuffer e else false) else false

def transfer (e : Endpoint) : Transfer where
  bytes := e.buff.size
  network := network e
  llBuffers := e.conns.all Connector.llBuffers
  proxySameProcess := e.proxySameProcess
  pxnUsed := e.pxnUsed
  regFlag := if network e then e.netFlag else ipcFlag e
  sized := by omega

structure Op where
  nsteps : Int
  protocol : P2p.Protocol
  reg : Bool
  regp : Bool
  deriving DecidableEq

def proxyOp (e : Endpoint) (part : Nat) : Option Op := do
  let direction ← planDirection e.comm (transfer e)
  let nsteps ← proxyNsteps direction part
  if nsteps = 0 then none
  else some ⟨nsteps, direction.protocol, direction.netRegistered, direction.ipcRegistered⟩

/-- Which branch of which progress function handles the op, after `ncclProxyOpToArgs`. -/
def opKind (e : Endpoint) (op : Op) : Kind :=
  match network e, e.side, op.regp with
  | true, .send, _ => .netSend
  | true, .recv, _ => .netRecv
  | false, _, false => .staged
  | false, .send, true => .zeroCopySend
  | false, .recv, true => .zeroCopyRecv

/-- A buffer of the rank that its peer can use: the connection is a direct one, and either the graph
registration worked, or the range is in the cache, still registered by the user, and known to the
peer or made known to it by this call. -/
def Shared (e : Endpoint) : Prop :=
  e.buff.data ≠ 0 ∧
  (∀ conn ∈ e.conns, conn.isNet = false) ∧
  (∃ useRead, e.conns.head? = some (.psmP2p false useRead)) ∧
  ((e.persistent = true ∧ e.graphRegister = true ∧ e.graphFlag = true) ∨
    e.cfg.localRegister = true ∧ ∃ reg, Register.regFind e.cfg e.slots e.buff = some reg ∧
      reg.localRefs ≠ 0 ∧ (e.psmIpcInfos reg.ptr = true ∨ ∃ addr, e.rmtRegAddr = some addr ∧ addr ≠ 0))

theorem psmIpcRegisterBuffer_iff (e : Endpoint) (reg : Register.Reg) :
    psmIpcRegisterBuffer e reg = true ↔
      e.psmIpcInfos reg.ptr = true ∨ ∃ addr, e.rmtRegAddr = some addr ∧ addr ≠ 0 := by
  unfold psmIpcRegisterBuffer
  split
  next hk =>
    simp [hk]
  rename_i unknown
  split
  next addr answer =>
    simp [unknown, answer]
  next answer =>
    simp [unknown, answer]

variable {e : Endpoint}

theorem psmIpcLocalRegisterBuffer_iff (some_bytes : 0 < e.buff.size) (valid : e.buff.data ≠ 0) :
    psmIpcLocalRegisterBuffer e = true ↔
      ∃ reg, Register.regFind e.cfg e.slots e.buff = some reg ∧ reg.localRefs ≠ 0 ∧ psmIpcRegisterBuffer e reg = true := by
  unfold psmIpcLocalRegisterBuffer
  rw [if_pos ⟨valid, some_bytes⟩]
  split
  next reg hf =>
    simp only [hf, Option.some.injEq, exists_eq_left']
    split
    next live =>
      exact ⟨fun hk => ⟨live, hk⟩, fun both => both.2⟩
    next dead =>
      exact ⟨fun h => absurd h (by simp), fun both => absurd both.1 dead⟩
  next hm =>
    simp [hm]

theorem registerP2pIpcBuffer_iff (e : Endpoint) :
    registerP2pIpcBuffer e = true ↔
      (e.persistent = true ∧ e.graphRegister = true ∧ e.graphFlag = true) ∨
        e.cfg.localRegister = true ∧ psmIpcLocalRegisterBuffer e = true := by
  unfold registerP2pIpcBuffer
  cases e.persistent <;> cases e.graphRegister <;> cases e.graphFlag <;> cases e.cfg.localRegister <;> simp

theorem ipcFlag_iff (some_bytes : 0 < e.buff.size) (here : network e = false) :
    ipcFlag e = true ↔ Shared e := by
  have near : ∀ conn ∈ e.conns, conn.isNet = false := by simpa [network] using here
  unfold ipcFlag Shared
  cases hc : e.conns with
  | nil => simp
  | cons conn rest =>
    by_cases hv : e.buff.data = 0
    · simp [hv]
    simp only [← psmIpcRegisterBuffer_iff]
    rw [← psmIpcLocalRegisterBuffer_iff some_bytes hv, ← registerP2pIpcBuffer_iff]
    rw [hc] at near
    cases conn with
    | psmNet llBuffers => simp [Connector.flags]
    | psmP2p intermediate useRead =>
      cases intermediate with
      | true => simp [Connector.flags]
      | false =>
        have flagged : (Connector.psmP2p false useRead).flags e.side = (true, false) ∨
            (Connector.psmP2p false useRead).flags e.side = (false, true) := by
          cases useRead <;> cases e.side <;> decide
        have first : ∃ read, (Connector.psmP2p false useRead :: rest).head? = some (.psmP2p false read) :=
          ⟨useRead, rfl⟩
        rcases flagged with read | hw
        · simp only [read, ne_eq, hv, not_false_eq_true]
          exact ⟨fun hr => ⟨trivial, near, first, hr⟩, fun hs => hs.2.2.2⟩
        · simp only [hw, ne_eq, hv, not_false_eq_true]
          exact ⟨fun hr => ⟨trivial, near, first, hr⟩, fun hs => hs.2.2.2⟩

theorem transfer_simple (here : network e = false) :
    protocolOf e.comm (transfer e) = .simple := by
  have near : ∀ conn ∈ e.conns, conn.isNet = false := by simpa [network] using here
  have noBuffers : e.conns.all Connector.llBuffers = false := by
    cases hc : e.conns with
    | nil =>
      have length := e.connected
      have := e.comm.someChannel
      have := e.comm.channelRange
      simp only [hc, List.length_nil] at length
      omega
    | cons conn rest =>
      have first := near conn (by simp [hc])
      cases conn with
      | psmP2p intermediate useRead => rfl
      | psmNet llBuffers => contradiction
  simp [protocolOf, transfer, noBuffers]

theorem ipcRegistered_iff {direction : Direction} (planned : planDirection e.comm (transfer e) = some direction) :
    direction.ipcRegistered = true ↔ 0 < e.buff.size ∧ Shared e := by
  obtain ⟨_, -, rfl⟩ := Option.map_eq_some_iff.mp planned
  cases here : network e with
  | true =>
    have far : ¬ Shared e := by
      intro hsh
      obtain ⟨conn, mem, net⟩ := List.any_eq_true.mp here
      simp [hsh.2.1 conn mem] at net
    simp [transfer, here, far]
  | false =>
    by_cases hs : 0 < e.buff.size
    · have simple := transfer_simple here
      simp only [simple]
      simp [transfer, here, ipcFlag_iff hs here]
    · simp [transfer, hs]

theorem proxyOp_some {part : Nat} {op : Op} (created : proxyOp e part = some op) :
    ∃ direction, planDirection e.comm (transfer e) = some direction ∧ op.regp = direction.ipcRegistered := by
  simp only [proxyOp, Option.bind_eq_bind, Option.bind_eq_some_iff] at created
  obtain ⟨direction, hp, _, -, created⟩ := created
  split at created
  · contradiction
  · cases created
    exact ⟨direction, hp, rfl⟩

/-- The two ends of a pair: the counts match, all else is up to each rank. -/
structure Pair where
  sender : Endpoint
  receiver : Endpoint
  sends : sender.side = .send
  receives : receiver.side = .recv
  sameBytes : sender.buff.size = receiver.buff.size

/-- The ops of a part agree on zero copy just if there is nothing to move, or the buffers are both
shared with the peer, or none of them is. -/
theorem zero_copy_agrees_iff (pair : Pair) (part : Nat) (sendOp recvOp : Op)
    (sent : proxyOp pair.sender part = some sendOp) (received : proxyOp pair.receiver part = some recvOp) :
    (sendOp.regp = true ↔ recvOp.regp = true) ↔
      pair.sender.buff.size = 0 ∨ (Shared pair.sender ↔ Shared pair.receiver) := by
  obtain ⟨_, hp, sendFlag⟩ := proxyOp_some sent
  obtain ⟨_, hp', recvFlag⟩ := proxyOp_some received
  rw [sendFlag, recvFlag, ipcRegistered_iff hp, ipcRegistered_iff hp', ← pair.sameBytes]
  rcases Nat.eq_zero_or_pos pair.sender.buff.size with none | pos
  · simp [none]
  · simp [pos, Nat.pos_iff_ne_zero.mp pos]

def smallComm : Comm := { P2p.singleChannel with nNodes := 1 }

def pages : Register.Config := Register.smallPages

def endpoint (side : Side) (slots : List Register.Reg) : Endpoint where
  side
  comm := smallComm
  conns := [.psmP2p false false]
  connected := rfl
  proxySameProcess := true
  pxnUsed := false
  netFlag := false
  cfg := pages
  buff := ⟨2 ^ 20, 4096, by decide⟩
  slots
  psmIpcInfos := fun _ => false
  persistent := false
  graphRegister := true
  graphFlag := false
  rmtRegAddr := some (2 ^ 30)

def registered : List Register.Reg := [⟨1, 2 ^ 20, 1, 1, 0⟩]

/-- Only the sender has registered its buffer: its op waits for an address, the receiver's for the
FIFO. -/
theorem one_side_registered : ∃ sendOp recvOp,
    proxyOp (endpoint .send registered) 0 = some sendOp ∧ proxyOp (endpoint .recv []) 0 = some recvOp ∧
      sendOp.regp = true ∧ recvOp.regp = false ∧
      opKind (endpoint .send registered) sendOp = .zeroCopySend ∧ opKind (endpoint .recv []) recvOp = .staged :=
  ⟨⟨1, .simple, false, true⟩, ⟨1, .simple, false, false⟩, by decide +kernel⟩

theorem both_sides_registered :
    (∃ op, proxyOp (endpoint .send registered) 0 = some op ∧ op.regp = true) ∧
      ∃ op, proxyOp (endpoint .recv registered) 0 = some op ∧ op.regp = true := by
  have sent : proxyOp (endpoint .send registered) 0 = some ⟨1, .simple, false, true⟩ := by decide +kernel
  have received : proxyOp (endpoint .recv registered) 0 = some ⟨1, .simple, false, true⟩ := by decide +kernel
  have shared (side : Side) : Shared (endpoint side registered) := by
    have found : Register.regFind pages registered ⟨2 ^ 20, 4096, by decide⟩ = some ⟨1, 2 ^ 20, 1, 1, 0⟩ := by
      decide +kernel
    refine ⟨by simp [endpoint], by simp [endpoint, Connector.isNet], ⟨false, rfl⟩, .inr ⟨rfl, _, found, by decide, ?_⟩⟩
    exact .inr ⟨2 ^ 30, rfl, by decide⟩
  have agree := (zero_copy_agrees_iff ⟨endpoint .send registered, endpoint .recv registered, rfl, rfl, rfl⟩ 0 _ _
    sent received).mpr (.inr (iff_of_true (shared .send) (shared .recv)))
  exact ⟨⟨_, sent, rfl⟩, ⟨_, received, agree.mp rfl⟩⟩

end Vccl.Psm.ZeroCopy
