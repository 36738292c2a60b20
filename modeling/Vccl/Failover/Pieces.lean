import Vccl.Failover.Flags
import Vccl.Lib.Wrap

/-! The data of a multi-send: `ncclIbMultiSend` builds one chain of work requests, posts it on every QP of
the message and moves the addresses on in between. -/
namespace Vccl.Failover.Pieces

open List
open Ib (maxRecvs)

/-- `send.data` and `send.size` of a request, and the address of its place in the FIFO entry. -/
structure Request where
  data : Nat
  addr : Nat
  size : Nat

structure Cursor extends Request where
  offset : Nat
  sgeAddr : Nat
  remoteAddr : Nat

inductive Opcode where
  | rdmaWrite
  | rdmaWriteWithImm
  deriving DecidableEq

/-- `request` is the request whose data is written, `sge` the local address and the length. -/
structure WorkRequest where
  opcode : Opcode
  request : Option Nat
  sge : Option (Nat × Nat)
  remoteAddr : Nat
  deriving DecidableEq

/-- Adaptive routing, and where the sizes of a multi-send are, here and at the other end. -/
structure Setup where
  ar : Bool
  arThreshold : Int
  sizes : Nat
  remSizes : Nat

def chunkSize (nqps size : Nat) : Nat := divUp (divUp size nqps) 128 * 128

variable (nqps : Nat)

def Cursor.start (q : Request) : Cursor := ⟨q, 0, q.data, q.addr⟩

def Cursor.length (c : Cursor) : Nat := min (c.size - c.offset) (chunkSize nqps c.size)

def Cursor.next (c : Cursor) : Cursor :=
  { c with
    offset := c.offset + chunkSize nqps c.size
    sgeAddr := c.sgeAddr + chunkSize nqps c.size
    remoteAddr := c.remoteAddr + chunkSize nqps c.size }

def dataWr (opcode : Opcode) (r : Nat) (c : Cursor) : WorkRequest :=
  ⟨opcode, some r, if c.length nqps = 0 then none else some (c.sgeAddr, c.length nqps), c.remoteAddr⟩

def dataWrs : Nat → List Cursor → List WorkRequest
  | _, [] => []
  | r, c :: cs => dataWr nqps .rdmaWrite r c :: dataWrs (r + 1) cs

/-- `lastWr` has the immediate: the data write of a single request, or one of its own. -/
def chain (setup : Setup) : List Cursor → List WorkRequest
  | [c] =>
    if setup.ar ∧ setup.arThreshold < c.size then [dataWr nqps .rdmaWrite 0 c, ⟨.rdmaWriteWithImm, none, none, 0⟩]
    else [dataWr nqps .rdmaWriteWithImm 0 c]
  | cs => dataWrs nqps 0 cs ++ [⟨.rdmaWriteWithImm, none, some (setup.sizes, cs.length * 4), setup.remSizes⟩]

def postAll (setup : Setup) : List Nat → List Cursor → List (Nat × List WorkRequest)
  | [], _ => []
  | qp :: qps, cs => (qp, chain nqps setup cs) :: postAll setup qps (cs.map (Cursor.next nqps))

def multiSend (cfg : Config) (setup : Setup) (qpIndex : Nat) (reqs : List Request) :
    Option (List (Nat × List WorkRequest)) :=
  if reqs = [] ∨ maxRecvs < reqs.length then none
  else some (postAll cfg.sendQpsPerMessage setup (qpRun cfg.sendNqps cfg.sendQpsPerMessage qpIndex)
    (reqs.map Cursor.start))

structure Piece where
  sgeAddr : Nat
  remoteAddr : Nat
  length : Nat

def pieceOf (r : Nat) (wr : WorkRequest) : Option Piece :=
  if wr.request = some r then wr.sge.map fun sge => ⟨sge.1, wr.remoteAddr, sge.2⟩ else none

def pieces (r : Nat) (posted : List (Nat × List WorkRequest)) : List Piece :=
  posted.flatMap fun p => p.2.filterMap (pieceOf r)

/-- The pieces follow one another from `offset` to the end, at equal offsets of both ranges, all but
the last a multiple of 128 bytes. -/
def Tiled (q : Request) : Nat → List Piece → Prop
  | offset, [] => offset = q.size
  | offset, p :: rest => p.sgeAddr = q.data + offset ∧ p.remoteAddr = q.addr + offset ∧ 0 < p.length ∧
    (rest = [] ∨ 128 ∣ p.length) ∧ Tiled q (offset + p.length) rest

def OneImm (wrs : List WorkRequest) : Prop :=
  ∃ before last, wrs = before ++ [last] ∧ last.opcode = .rdmaWriteWithImm ∧ ∀ wr ∈ before, wr.opcode = .rdmaWrite

def Cursor.piece (nqps : Nat) (c : Cursor) : Option Piece :=
  if c.length nqps = 0 then none else some ⟨c.sgeAddr, c.remoteAddr, c.length nqps⟩

variable {nqps} {q : Request} {c : Cursor} {r : Nat}

theorem le_chunkSize (some' : 0 < nqps) (size : Nat) : size ≤ nqps * chunkSize nqps size := by
  have inner := (divUp_bounds size some').1
  have outer := (divUp_bounds (divUp size nqps) (show 0 < 128 by decide)).1
  calc size ≤ nqps * divUp size nqps := by rwa [Nat.mul_comm]
    _ ≤ nqps * chunkSize nqps size := Nat.mul_le_mul_left _ outer

variable {ps : List Piece}

theorem Tiled.le {offset : Nat} (h : Tiled q offset ps) : offset ≤ q.size := by
  induction ps generalizing offset with
  | nil => exact Nat.le_of_eq h
  | cons p rest ih =>
    have := ih h.2.2.2.2
    omega

theorem Tiled.nil_of_end (h : Tiled q q.size ps) : ps = [] := by
  cases ps with
  | nil => rfl
  | cons p rest =>
    have := h.2.2.2.2.le
    have := h.2.2.1
    omega

structure Cursor.At (q : Request) (c : Cursor) : Prop where
  request : c.toRequest = q
  sgeAddr : c.sgeAddr = q.data + c.offset
  remoteAddr : c.remoteAddr = q.addr + c.offset

theorem Cursor.At.next (at' : c.At q) : (c.next nqps).At q where
  request := at'.request
  sgeAddr := by simp only [Cursor.next, at'.sgeAddr, Nat.add_assoc]
  remoteAddr := by simp only [Cursor.next, at'.remoteAddr, Nat.add_assoc]

@[simp] theorem pieceOf_dataWr (opcode : Opcode) (r' : Nat) :
    pieceOf r (dataWr nqps opcode r' c) = if r' = r then c.piece nqps else none := by
  by_cases same : r' = r <;> by_cases he : c.length nqps = 0 <;> simp [pieceOf, dataWr, Cursor.piece, same, he]

@[simp] theorem pieceOf_none (opcode : Opcode) (sge : Option (Nat × Nat)) (addr : Nat) :
    pieceOf r ⟨opcode, none, sge, addr⟩ = none := rfl

theorem pieces_dataWrs (cs : List Cursor) (first : Nat) : (dataWrs nqps first cs).filterMap (pieceOf r) =
    if first ≤ r then (cs[r - first]?.bind (Cursor.piece nqps)).toList else [] := by
  induction cs generalizing first with
  | nil => simp [dataWrs]
  | cons c cs ih =>
    rcases Nat.lt_trichotomy first r with hb | rfl | ha
    · rw [show r - first = r - (first + 1) + 1 by omega]
      simp [dataWrs, ih, hb.le, hb.ne, show first + 1 ≤ r from hb]
    · cases piece : c.piece nqps <;> simp [dataWrs, ih, piece]
    · simp [dataWrs, ih, ha.ne', ha.not_ge, show ¬ first + 1 ≤ r by omega]

theorem pieces_chain (setup : Setup) {cs : List Cursor} (found : cs[r]? = some c) :
    (chain nqps setup cs).filterMap (pieceOf r) = (c.piece nqps).toList := by
  unfold chain
  split
  · cases r with
    | zero =>
      cases found
      cases piece : c.piece nqps <;> split <;> simp [piece]
    | succ r => simp at found
  · simp [pieces_dataWrs, found]

theorem tiled_postAll (setup : Setup) (qps : List Nat) (cs : List Cursor) (found : cs[r]? = some c) (at' : c.At q)
    (enough : q.size ≤ c.offset + qps.length * chunkSize nqps q.size) :
    Tiled q (min c.offset q.size) (pieces r (postAll nqps setup qps cs)) := by
  induction qps generalizing cs c with
  | nil =>
    rw [length_nil, Nat.zero_mul] at enough
    exact Nat.min_eq_right enough
  | cons qp qps ih =>
    have size : c.size = q.size := by rw [← at'.request]
    have offset : (c.next nqps).offset = c.offset + chunkSize nqps q.size := by rw [← size]; rfl
    have there : (cs.map (Cursor.next nqps))[r]? = some (c.next nqps) := by simp [found]
    rw [length_cons, Nat.succ_mul] at enough
    have rest := ih _ there at'.next (by omega)
    rw [offset] at rest
    have first : pieces r (postAll nqps setup (qp :: qps) cs) =
        (c.piece nqps).toList ++ pieces r (postAll nqps setup qps (cs.map (Cursor.next nqps))) := by
      simp [pieces, postAll, pieces_chain setup found]
    have length : c.length nqps = min (q.size - c.offset) (chunkSize nqps q.size) := by rw [← size]; rfl
    rw [first]
    by_cases he : c.length nqps = 0
    · rw [show min c.offset q.size = min (c.offset + chunkSize nqps q.size) q.size by omega]
      simpa [Cursor.piece, he] using rest
    rw [show min c.offset q.size = c.offset by omega]
    simp only [Cursor.piece, if_neg he]
    refine ⟨at'.sgeAddr, at'.remoteAddr, Nat.pos_of_ne_zero he, ?_, ?_⟩
    · by_cases hw : chunkSize nqps q.size ≤ q.size - c.offset
      · right
        rw [length, Nat.min_eq_right hw]
        exact Nat.dvd_mul_left ..
      · left
        rw [show min (c.offset + chunkSize nqps q.size) q.size = q.size by omega] at rest
        exact rest.nil_of_end
    · rwa [show c.offset + c.length nqps = min (c.offset + chunkSize nqps q.size) q.size by omega]

theorem dataWrs_opcode (cs : List Cursor) (first : Nat) :
    ∀ wr ∈ dataWrs nqps first cs, wr.opcode = .rdmaWrite := by
  induction cs generalizing first with
  | nil => simp [dataWrs]
  | cons c cs ih => exact forall_mem_cons.mpr ⟨rfl, ih (first + 1)⟩

theorem oneImm_chain (setup : Setup) (cs : List Cursor) : OneImm (chain nqps setup cs) := by
  unfold chain
  split
  · split
    · exact ⟨[_], _, rfl, rfl, by simp [dataWr]⟩
    · exact ⟨[], _, rfl, rfl, by simp⟩
  · exact ⟨_, _, rfl, rfl, dataWrs_opcode cs 0⟩

theorem postAll_qps (setup : Setup) (qps : List Nat) (cs : List Cursor) :
    (postAll nqps setup qps cs).map Prod.fst = qps ∧ ∀ p ∈ postAll nqps setup qps cs, OneImm p.2 := by
  induction qps generalizing cs with
  | nil => simp [postAll]
  | cons qp qps ih =>
    obtain ⟨same, imms⟩ := ih (cs.map (Cursor.next nqps))
    exact ⟨congrArg (qp :: ·) same, forall_mem_cons.mpr ⟨oneImm_chain setup cs, imms⟩⟩

theorem length_qpRun (nqps count q : Nat) : (qpRun nqps count q).length = count := by
  induction count generalizing q with
  | zero => rfl
  | succ count ih => simp [qpRun, ih]

theorem qpRun_nodup {count : Nat} (few : count ≤ nqps) (qpIndex : Nat) : (qpRun nqps count qpIndex).Nodup := by
  apply Nodup.of_map (· % nqps)
  rw [qpRun_mod (dvd_refl nqps)]
  refine nodup_range.map_on fun i hb j hb' same => ?_
  rw [mem_range] at hb hb'
  exact Nat.add_left_cancel (Wrap.slot_inj same (by omega) (by omega))

theorem sendQpsPerMessage_le (cfg : Config) : cfg.sendQpsPerMessage ≤ cfg.sendNqps := by
  have own := Nat.mul_le_mul_right cfg.send.ndevs cfg.oneQp
  have remote := Nat.mul_le_mul_right cfg.recv.ndevs cfg.oneQp
  simp only [Config.sendQpsPerMessage, Config.sendNqps, nqps, nDataQps]
  split
  · exact Nat.le_refl _
  · split <;> omega

/-- On distinct QPs, the data of every request is written once over all of them, and each QP ends with
its only immediate. -/
theorem multiSend_exact (cfg : Config) (setup : Setup) (qpIndex : Nat) {reqs : List Request} (some' : reqs ≠ [])
    (few : reqs.length ≤ maxRecvs) : ∃ posted, multiSend cfg setup qpIndex reqs = some posted ∧
      posted.length = cfg.sendQpsPerMessage ∧ (posted.map Prod.fst).Nodup ∧ (∀ p ∈ posted, OneImm p.2) ∧
        ∀ r q, reqs[r]? = some q → Tiled q 0 (pieces r posted) := by
  have positive : 0 < cfg.sendQpsPerMessage := lt_of_lt_of_le cfg.send.positive (ndevs_le_sendQpsPerMessage cfg)
  have count := length_qpRun cfg.sendNqps cfg.sendQpsPerMessage qpIndex
  obtain ⟨same, imms⟩ := @postAll_qps cfg.sendQpsPerMessage setup
    (qpRun cfg.sendNqps cfg.sendQpsPerMessage qpIndex) (reqs.map Cursor.start)
  refine ⟨_, if_neg (by simp [some', few]), ?_, ?_, imms, ?_⟩
  · rw [← length_map Prod.fst, same, count]
  · rw [same]
    exact qpRun_nodup (sendQpsPerMessage_le cfg) qpIndex
  · intro r q hf
    have there : (reqs.map Cursor.start)[r]? = some (Cursor.start q) := by simp [hf]
    have enough := le_chunkSize positive q.size
    refine tiled_postAll setup _ _ there ⟨rfl, rfl, rfl⟩ ?_
    rwa [count, show (Cursor.start q).offset = 0 from rfl, Nat.zero_add]

theorem two_requests_exact : ∃ posted, multiSend merged ⟨true, 8192, 0, 0⟩ 1 [⟨0, 4096, 1000⟩, ⟨8192, 65536, 0⟩] =
    some posted ∧ posted.length = 4 ∧ ∀ p ∈ posted, OneImm p.2 := by
  obtain ⟨posted, sent, hc, -, imms, -⟩ := @multiSend_exact merged ⟨true, 8192, 0, 0⟩ 1
    [⟨0, 4096, 1000⟩, ⟨8192, 65536, 0⟩] (by simp) (by decide)
  exact ⟨posted, sent, hc, imms⟩

end Vccl.Failover.Pieces
