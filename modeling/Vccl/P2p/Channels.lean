import Vccl.P2p.Delivery
import Vccl.P2p.Schedule

/-! Which part of a transfer a channel moves. The host goes from parts to channels and the device
back; an `int` is a word here and a `size_t` wraps. -/
namespace Vccl.P2p

open BitVec Topo

def bswap32 (x : BitVec 32) : BitVec 32 :=
  x <<< 24 ||| (x &&& 0xff00) <<< 8 ||| (x >>> 8 &&& 0xff00) ||| x >>> 24

/-- The instances of `reverseSubBits` below the byte: groups of half the width change places. -/
def reverseSubBits : Nat → BitVec 32 → BitVec 32
  | 0, x => x
  | log + 1, x =>
    let half := 2 ^ log
    let m := allOnes 32 / (1#32 <<< half + 1)
    reverseSubBits log ((x &&& m) <<< half ||| (x &&& ~~~m) >>> half)

/-- The host reverses a word by swaps, the device by `__brev`. -/
inductive Side where
  | host
  | device

def Side.reverse : Side → BitVec 32 → BitVec 32
  | .host, x => reverseSubBits 3 (bswap32 x)
  | .device, x => x.reverse

def reverseBits (side : Side) (x : BitVec 32) (nBits : Nat) : BitVec 32 :=
  if nBits = 0 then 0 else side.reverse x >>> (32 - nBits)

def countOneBits (x : BitVec 32) : Nat := (List.range 32).countP x.getLsbD

def channelForPart (nP2pChannels base part : BitVec 32) : BitVec 32 :=
  let nChannelsLog2 := countOneBits (nP2pChannels - 1)
  let delta := reverseBits .host part nChannelsLog2
  (base + delta) &&& (nP2pChannels - 1)

def channelToPart (nP2pChannels base channel : BitVec 32) : BitVec 32 :=
  let nChannelsLog2 := countOneBits (nP2pChannels - 1)
  let delta := (channel - base) &&& (nP2pChannels - 1)
  reverseBits .device delta nChannelsLog2

def partBounds (nParts part bytes : Nat) : Nat × Nat :=
  let partBytes := ((bytes + nParts - 1) % 2 ^ 64 / nParts + 4095) % 2 ^ 64 / 4096 * 4096
  (min (part * partBytes % 2 ^ 64) bytes, min ((part + 1) * partBytes % 2 ^ 64) bytes)

theorem Side.reverse_eq (side : Side) (x : BitVec 32) : side.reverse x = x.reverse := by
  cases side with
  | device => rfl
  | host =>
    apply eq_of_getLsbD_eq
    intro i hi
    interval_cases i <;>
      simp [reverse, reverseSubBits, bswap32, getElem_reverse, getMsbD_eq_getLsbD]

def below (k : Nat) : Set (BitVec 32) := {x | x < twoPow 32 k}

variable {k : Nat}

theorem setWidth_mem_below (inWord : k < 32) (y : BitVec k) : y.setWidth 32 ∈ below k := by
  have fits : 2 ^ k < 2 ^ 32 := Nat.pow_lt_pow_right (by omega) inWord
  rw [below, Set.mem_ofPred_eq, lt_def, toNat_setWidth, toNat_twoPow_of_lt inWord, Nat.mod_eq_of_lt (y.isLt.trans fits)]
  exact y.isLt

theorem setWidth_setWidth_word (inWord : k < 32) (y : BitVec k) : (y.setWidth 32).setWidth k = y := by
  rw [setWidth_setWidth_of_le _ inWord.le, setWidth_eq]

theorem reverseBits_eq (side : Side) (inWord : k < 32) (x : BitVec 32) :
    reverseBits side x k = (x.setWidth k).reverse.setWidth 32 := by
  apply eq_of_getLsbD_eq
  intro i hi
  unfold reverseBits
  split
  · simp_all
  · rw [getLsbD_ushiftRight, side.reverse_eq, getLsbD_reverse, getMsbD_eq_getLsbD, getLsbD_setWidth,
      getLsbD_reverse, getMsbD_eq_getLsbD]
    have here : 32 - k + i < 32 ↔ i < k := by omega
    have mirrored : 32 - 1 - (32 - k + i) = k - 1 - i := by omega
    simp [hi, here, mirrored, show k - 1 - i < k by omega]

theorem and_mask (inWord : k < 32) (x : BitVec 32) : x &&& (twoPow 32 k - 1) = (x.setWidth k).setWidth 32 := by
  have mask : (twoPow 32 k - 1).toNat = 2 ^ k - 1 := by interval_cases k <;> rfl
  have fits : 2 ^ k < 2 ^ 32 := Nat.pow_lt_pow_right (by omega) inWord
  rw [← toNat_inj, toNat_and, mask, Nat.and_two_pow_sub_one_eq_mod, toNat_setWidth, toNat_setWidth,
    Nat.mod_eq_of_lt ((Nat.mod_lt _ (Nat.two_pow_pos k)).trans fits)]

theorem countOneBits_mask (inWord : k < 32) : countOneBits (twoPow 32 k - 1) = k := by
  interval_cases k <;> decide

variable {base : BitVec 32}

theorem channelForPart_eq (inWord : k < 32) (part : BitVec 32) : channelForPart (twoPow 32 k) base part =
    (base.setWidth k + (part.setWidth k).reverse).setWidth 32 := by
  rw [channelForPart, countOneBits_mask inWord, and_mask inWord, reverseBits_eq _ inWord,
    setWidth_add _ _ inWord.le, setWidth_setWidth_word inWord]

theorem channelToPart_eq (inWord : k < 32) (channel : BitVec 32) : channelToPart (twoPow 32 k) base channel =
    (channel.setWidth k - base.setWidth k).reverse.setWidth 32 := by
  rw [channelToPart, countOneBits_mask inWord, and_mask inWord, reverseBits_eq _ inWord,
    setWidth_setWidth_word inWord, BitVec.sub_eq_add_neg, setWidth_add _ _ inWord.le,
    setWidth_neg_of_le inWord.le, ← BitVec.sub_eq_add_neg]

theorem channelToPart_inverts (inWord : k < 32) (base : BitVec 32) :
    Set.InvOn (channelToPart (twoPow 32 k) base) (channelForPart (twoPow 32 k) base) (below k) (below k) := by
  constructor
  · intro part hv
    rw [channelForPart_eq inWord, channelToPart_eq inWord, setWidth_setWidth_word inWord, BitVec.add_comm,
      BitVec.add_sub_cancel, reverse_reverse_eq]
    exact setWidth_setWidth_eq_self hv
  · intro channel hv
    rw [channelToPart_eq inWord, channelForPart_eq inWord, setWidth_setWidth_word inWord, reverse_reverse_eq,
      BitVec.add_comm, BitVec.sub_add_cancel]
    exact setWidth_setWidth_eq_self hv

variable {nParts bytes : Nat}

/-- The byte counts of `addP2pToPlan` are signed, so nothing wraps. -/
theorem partBounds_eq {part : Nat} (count : nParts < 2 ^ 31) (inside : part < nParts)
    (sized : bytes < 2 ^ 63) :
    partBounds nParts part bytes = (partBeg nParts part bytes, partEnd nParts part bytes) := by
  have share := (divUp_bounds bytes (y := nParts) (by omega)).2
  have aligned : partBytes nParts bytes ≤ divUp bytes nParts + 4095 := Nat.div_mul_le_self _ _
  have parts : (part + 1) * partBytes nParts bytes ≤ (divUp bytes nParts + 4095) * nParts := by
    rw [Nat.mul_comm _ nParts]
    exact Nat.mul_le_mul inside aligned
  have total : (divUp bytes nParts + 4095) * nParts < 2 ^ 64 := by
    rw [Nat.add_mul]
    omega
  have before : part * partBytes nParts bytes ≤ (part + 1) * partBytes nParts bytes :=
    Nat.mul_le_mul_right _ (Nat.le_succ part)
  have small : divUp bytes nParts + 4095 < 2 ^ 64 := lt_of_le_of_lt (Nat.le_mul_of_pos_right _ (by omega)) total
  have width : ((bytes + nParts - 1) % 2 ^ 64 / nParts + 4095) % 2 ^ 64 / 4096 * 4096 = partBytes nParts bytes := by
    rw [Nat.mod_eq_of_lt (show bytes + nParts - 1 < 2 ^ 64 by omega)]
    exact congrArg (· / 4096 * 4096) (Nat.mod_eq_of_lt small)
  rw [partBounds, width, Nat.mod_eq_of_lt (by omega), Nat.mod_eq_of_lt (by omega), partBeg, partEnd]

theorem existsUnique_part (parts : 0 < nParts) {b : Nat} (inside : b < bytes) :
    ∃! part, part < nParts ∧ partBeg nParts part bytes ≤ b ∧ b < partEnd nParts part bytes := by
  have width := partBytes_pos parts (Nat.zero_lt_of_lt inside)
  have cover := lt_of_lt_of_le inside (partBytes_covers nParts bytes parts)
  have within : ∀ part, partBeg nParts part bytes ≤ b ∧ b < partEnd nParts part bytes ↔
      b / partBytes nParts bytes = part := by
    intro part
    rw [Nat.div_eq_iff width, partBeg, partEnd, Nat.add_mul]
    omega
  refine ⟨b / partBytes nParts bytes, ⟨?_, (within _).mpr rfl⟩, ?_⟩
  · exact Nat.div_lt_of_lt_mul (by rwa [Nat.mul_comm] at cover)
  · rintro part ⟨-, here⟩
    exact ((within part).mp here).symm

/-- The channels of a round are a rearrangement of the parts that the device undoes, the two ends of
a transfer begin at the same channel, and each byte is in one part. -/
theorem channels_cover_parts :
    (∀ k < 31, ∀ base : BitVec 32,
      Set.BijOn (channelForPart (twoPow 32 k) base) (below k) (below k) ∧
      Set.InvOn (channelToPart (twoPow 32 k) base) (channelForPart (twoPow 32 k) base) (below k)
        (below k)) ∧
    (∀ (l : Layout), ∀ a < l.nRanks, ∀ b < l.nRanks, ∀ round round' : Nat,
      ((p2pSchedule l a)[round]?).map SchedulePair.sendRank = some b →
      ((p2pSchedule l b)[round']?).map SchedulePair.recvRank = some a →
        channelBaseForRound l round = channelBaseForRound l round') ∧
    ∀ nParts bytes : Nat, 0 < nParts → nParts < 2 ^ 31 → bytes < 2 ^ 63 →
      (partBounds nParts 0 bytes).1 = 0 ∧ (partBounds nParts (nParts - 1) bytes).2 = bytes ∧
      (∀ part, part + 1 < nParts →
        (partBounds nParts part bytes).2 = (partBounds nParts (part + 1) bytes).1) ∧
      ∀ b < bytes, ∃! part, part < nParts ∧
        (partBounds nParts part bytes).1 ≤ b ∧ b < (partBounds nParts part bytes).2 := by
  refine ⟨?_, ?_, ?_⟩
  · intro k fits base
    have inWord : k < 32 := by omega
    have inverse := channelToPart_inverts inWord base
    refine ⟨inverse.bijOn ?_ ?_, inverse⟩
    · intro part _
      rw [channelForPart_eq inWord]
      exact setWidth_mem_below inWord _
    · intro channel _
      rw [channelToPart_eq inWord]
      exact setWidth_mem_below inWord _
  · intro l a ha b hb round round' sends hr
    rw [round_unique l ha hb sends hr]
  · intro nParts bytes parts count hs
    have bounds := fun part (hi : part < nParts) => partBounds_eq count hi hs
    refine ⟨?_, ?_, ?_, ?_⟩
    · simp [bounds 0 parts, partBeg]
    · rw [bounds _ (Nat.sub_one_lt parts.ne'), partEnd, Nat.sub_add_cancel parts]
      exact Nat.min_eq_right (partBytes_covers nParts bytes parts)
    · intro part next
      rw [bounds part (by omega), bounds (part + 1) next]
      rfl
    intro b hi
    obtain ⟨part, ⟨hv, _⟩, unique⟩ := existsUnique_part parts hi
    refine ⟨part, ⟨hv, by rwa [bounds part hv]⟩, ?_⟩
    rintro other ⟨hv', here'⟩
    rw [bounds other hv'] at here'
    exact unique other ⟨hv', here'⟩

inductive Dir where
  | recv
  | send

structure Connector where
  llBuffers : Bool
  network : Bool
  sameProcess : Bool

structure Rank where
  rank : Nat
  pxnUsed : Bool
  connector : Dir → BitVec 32 → Nat → Connector

/-- What a rank has for one direction of a round: `-1` bytes for nothing, and how its registration calls end. -/
structure Op where
  bytes : Int
  regFlag : Bool
  sized : -1 ≤ bytes

def SchedulePair.peer (pair : SchedulePair) : Dir → Nat
  | .recv => pair.recvRank
  | .send => pair.sendRank

/-- What a direction comes to: channel and bounds of each part, and the chunk as it is decoded. -/
structure Choice where
  direction : Direction
  parts : List (BitVec 32 × Nat × Nat)
  chunk : Nat

section

variable (comm : Comm) (nP2pChannels : BitVec 32) (l : Layout)

def channelOf (p2pRound part : Nat) : BitVec 32 :=
  channelForPart nP2pChannels (.ofNat 32 (channelBaseForRound l p2pRound)) (.ofNat 32 part)

def transferOf (r : Rank) (p2pRound : Nat) (pair : SchedulePair) (ops : Dir → Op) (dir : Dir) : Transfer :=
  let selfSend := decide (pair.sendRank = r.rank)
  let conns := (List.range comm.nChannelsMax).map fun part =>
    r.connector dir (channelOf nP2pChannels l p2pRound part) (pair.peer dir)
  { bytes := (ops dir).bytes
    network := !selfSend && conns.any Connector.network
    llBuffers := !selfSend && conns.all Connector.llBuffers
    proxySameProcess := selfSend || conns.all Connector.sameProcess
    pxnUsed := r.pxnUsed
    regFlag := (ops dir).regFlag
    sized := (ops dir).sized }

def choose (r : Rank) (p2pRound : Nat) (pair : SchedulePair) (ops : Dir → Op) (dir : Dir) : Option Choice :=
  (planDirection comm (transferOf comm nP2pChannels l r p2pRound pair ops dir)).map fun direction =>
    { direction
      parts := (List.range direction.nParts).map fun part =>
        (channelOf nP2pChannels l p2pRound part, partBounds direction.nParts part direction.bytes)
      chunk := u32fp8Decode direction.chunkSizeU32fp8 }

end

theorem planDirection_congr {comm : Comm} {t t' : Transfer} (bytes : t.bytes = t'.bytes) (network : t.network = t'.network)
    (llBuffers : t.llBuffers = t'.llBuffers) (plain : t.regFlag = false) (plain' : t'.regFlag = false) :
    planDirection comm t = planDirection comm t' := by
  have protocol : protocolOf comm t = protocolOf comm t' := by simp [protocolOf, bytes, llBuffers]
  have chunk (p : Protocol) : chunkDataSizeOf comm t p = chunkDataSizeOf comm t' p := by
    cases p <;> simp only [chunkDataSizeOf, chunkSizeOf, bytes, network]
  simp [planDirection, protocol, chunk, bytes, plain, plain']

def netRank (rank : Nat) : Rank := ⟨rank, false, fun _ _ _ => ⟨true, true, true⟩⟩

def oneWay : Dir → Op
  | .recv => ⟨128, false, oneMessage⟩
  | .send => ⟨-1, false, by decide⟩

end Vccl.P2p
