import Vccl.P2p.Split

namespace Vccl.P2p

theorem growChannels_le (comm : Comm) (stepSize bytes fuel : Nat) (n : Int) (partSize : Nat)
    (start : n ≤ comm.nChannelsMax) :
    growChannels comm stepSize bytes fuel n partSize ≤ comm.nChannelsMax := by
  induction fuel generalizing n partSize with
  | zero => exact start
  | succ fuel ih =>
    simp only [growChannels]
    split
    next ha =>
      exact ih _ _ (by omega)
    · exact start

variable {comm : Comm}

theorem chooseChannels_le {stepSize : Nat} {bytes n : Int} (chosen : chooseChannels comm stepSize bytes = some n) :
    n ≤ comm.nChannelsMax := by
  have range := comm.channelRange
  have some' := comm.someChannel
  simp only [chooseChannels] at chosen
  split at chosen
  · cases chosen
    omega
  split at chosen
  · cases chosen
    omega
  split at chosen
  · cases chosen
  · split at chosen
    · cases chosen
    · simp only [Option.some.injEq] at chosen
      subst chosen
      exact growChannels_le comm _ _ _ _ _ (by omega)

theorem chunkSizeOf_lt (comm : Comm) (t : Transfer) (protocol : Protocol) :
    chunkSizeOf comm t protocol < 2 ^ 31 := by
  have chunk := comm.chunkFits
  have ll := comm.llFits
  have param := comm.paramFits
  have step : stepSizeOf comm protocol < 2 ^ 31 := by
    cases protocol <;> simp only [stepSizeOf, ncclSteps] at chunk ⊢ <;> omega
  simp only [chunkSizeOf]
  repeat' split
  all_goals omega

theorem chunkDataSizeOf_lt (comm : Comm) (t : Transfer) (protocol : Protocol) :
    chunkDataSizeOf comm t protocol < 2 ^ 31 := by
  have bound := chunkSizeOf_lt comm t protocol
  cases protocol with
  | ll =>
    simp only [chunkDataSizeOf]
    omega
  | simple => exact bound

variable {t : Transfer} {d : Direction}

theorem planDirection_some (planned : planDirection comm t = some d) :
    chooseChannels comm (stepSizeOf comm (protocolOf comm t)) t.bytes = some d.nChannels ∧
      d.bytes = t.bytes.toNat ∧
      d.chunkSizeU32fp8 = u32fp8Encode (chunkDataSizeOf comm t (protocolOf comm t)) ∧
      (t.network = true → d.ipcRegistered = false) ∧
      (d.netRegistered = true → 0 < t.bytes ∧ protocolOf comm t = .simple) := by
  simp only [planDirection, Option.map_eq_some_iff] at planned
  obtain ⟨n, hc, rfl⟩ := planned
  refine ⟨hc, ?_, rfl, ?_, ?_⟩
  · by_cases none : t.bytes = -1
    · simp [none]
    · simp [none]
  · intro network
    simp [network]
  · intro hr
    simp only [Bool.and_eq_true, decide_eq_true_eq, beq_iff_eq] at hr
    exact ⟨hr.1.1.1.1.2, hr.1.1.2⟩

theorem deviceChunk_eq (planned : planDirection comm t = some d) (network : t.network = true) :
    deviceChunk comm d = d.hostChunk := by
  obtain ⟨-, -, code, hl', -⟩ := planDirection_some planned
  have bound := chunkDataSizeOf_lt comm t (protocolOf comm t)
  have decoded : u32fp8Decode d.chunkSizeU32fp8 < 2 ^ 31 := by
    rw [code]
    exact lt_of_le_of_lt (u32fp8_le (by omega)) bound
  simp only [deviceChunk, Direction.hostChunk, hl' network, Bool.false_and, Bool.false_or]
  split
  · rfl
  · rw [toInt32_of_lt decoded, toSizeT_of_lt (by omega)]

theorem nParts_eq (planned : planDirection comm t = some d) (some' : 0 < d.nChannels) :
    (d.nParts : Int) = d.nChannels := by
  have limit := chooseChannels_le (planDirection_some planned).1
  have most := comm.maxChannels
  unfold Direction.nParts
  omega

theorem partBytes_pos {nParts bytes : Nat} (parts : 0 < nParts) (nonempty : 0 < bytes) :
    0 < partBytes nParts bytes := by
  have share : 0 < divUp bytes nParts := by
    exact (Chunks.lt_ceilDiv nParts bytes 0 parts).mpr (by omega)
  exact lt_of_lt_of_le share (alignUp_ge _ _ (by decide))

theorem partSize_eq_zero (d : Direction) (part : Nat) (parts : 0 < d.nParts) (nonempty : 0 < d.bytes) :
    d.partSize part = 0 ↔ d.bytes ≤ part * partBytes d.nParts d.bytes := by
  have width := partBytes_pos parts nonempty
  have next : (part + 1) * partBytes d.nParts d.bytes =
      part * partBytes d.nParts d.bytes + partBytes d.nParts d.bytes := Nat.succ_mul _ _
  unfold Direction.partSize partEnd partBeg
  omega

theorem toInt32_eq_self_iff (k : Nat) : toInt32 k = k ↔ k < 2 ^ 31 := by
  constructor
  · intro same
    have := toInt32_lt k
    omega
  · exact toInt32_of_lt

theorem divUp_lt_iff (size chunk m : Nat) (pos : 0 < chunk) :
    divUp size chunk < m + 1 ↔ size ≤ chunk * m := by
  rw [Nat.lt_succ_iff, divUp_eq_ceilDiv, ceilDiv_le_iff_le_mul pos]

/-- Host and device count the same steps for a part unless the rounding of the part bounds
left the part empty, or the count does not fit the `int` field of the proxy op. -/
theorem proxyNsteps_eq_deviceNsteps_iff (comm : Comm) (t : Transfer) (d : Direction)
    (planned : planDirection comm t = some d) (network : t.network = true)
    (part : Nat) (below : (part : Int) < d.nChannels)
    (n : Int) (op : proxyNsteps d part = some n) :
    (deviceNsteps comm d part).map Int.ofNat = some n ↔
      t.bytes = 0 ∨
        part * partBytes d.nChannels.toNat t.bytes.toNat < t.bytes.toNat ∧
          d.partSize part ≤ d.hostChunk * (2 ^ 31 - 1) := by
  obtain ⟨hc, bytes, -, -, _⟩ := planDirection_some planned
  have parts := nParts_eq planned (by omega)
  have inside : part < d.nParts := by omega
  have count : d.nChannels.toNat = d.nParts := by omega
  have lower := t.sized
  have device := deviceChunk_eq planned network
  rw [count, ← bytes]
  simp only [proxyNsteps, partNsteps, if_neg (not_le.mpr inside)] at op
  simp only [deviceNsteps, deviceCalls, if_pos inside, device]
  by_cases hn : d.bytes = 0
  · have zero : t.bytes = 0 := by
      by_contra other
      have : t.bytes = -1 := by omega
      rw [this] at hc
      simp only [chooseChannels, if_true, Option.some.injEq] at hc
      omega
    have empty : d.partSize part = 0 := by simp [Direction.partSize, partEnd, hn]
    rw [if_pos hn] at op
    cases op
    simp [empty, Chunks.doWhile_empty, zero, toInt32]
  · have nonempty : 0 < d.bytes := Nat.pos_of_ne_zero hn
    have some' : ¬ t.bytes = 0 := by omega
    rw [if_neg hn] at op
    split at op
    · contradiction
    rename_i chunk
    have pos : 0 < d.hostChunk := Nat.pos_of_ne_zero chunk
    have exhausted := partSize_eq_zero d part (by omega) nonempty
    rw [← Option.some.inj op]
    by_cases empty : d.partSize part = 0
    · have none : divUp 0 d.hostChunk = 0 := by
        exact (Chunks.ceilDiv_eq_zero pos).mpr rfl
      simp only [empty, Chunks.doWhile_empty, none]
      have gone := exhausted.mp empty
      simp [toInt32, some', gone]
    · have walk := Chunks.doWhile_pieces pos (Nat.pos_of_ne_zero empty)
        (Nat.le_succ_of_le (Chunks.ceilDiv_le_self pos))
      have fits := divUp_lt_iff (d.partSize part) d.hostChunk (2 ^ 31 - 1) pos
      have ahead : part * partBytes d.nParts d.bytes < d.bytes := by omega
      rw [walk]
      simp only [Option.map_some, Chunks.length_pieces, Option.some.injEq,
        some', false_or, ahead, true_and, ← fits]
      rw [eq_comm]
      exact toInt32_eq_self_iff _

def twoNodeComm : Comm where
  nNodes := 2
  isAllNvlink := false
  p2pChunkSize := 131072
  llBuffSize := 524288
  paramChunkSize := 0
  paramP2pLLThreshold := 16384
  nChannelsMin := 32
  nChannelsMax := 32
  chunkFits := by decide
  llFits := by decide
  paramFits := singleChannel.paramFits
  someChannel := by decide
  channelRange := by decide
  maxChannels := by decide

/- One byte more than 32 parts of 64 KiB: the parts are rounded up to 68 KiB, so the
last one starts behind the end of the buffer. -/
def unevenTransfer : Transfer where
  bytes := 2097153
  network := true
  llBuffers := false
  proxySameProcess := true
  pxnUsed := false
  regFlag := false
  sized := by decide

def unevenDirection : Direction where
  protocol := .simple
  bytes := 2097153
  chunkSizeU32fp8 := u32fp8Encode 131072
  netRegistered := false
  ipcRegistered := false
  nChannels := 32

theorem unevenDirection_last_part_differs :
    planDirection twoNodeComm unevenTransfer = some unevenDirection ∧
      (31 : Int) < unevenDirection.nChannels ∧ proxyNsteps unevenDirection 31 = some 0 ∧
      deviceNsteps twoNodeComm unevenDirection 31 = some 1 := by
  refine ⟨by decide, by decide, by decide, by decide⟩

theorem unevenDirection_first_part_agrees :
    (deviceNsteps twoNodeComm unevenDirection 0).map Int.ofNat = some 1 :=
  (proxyNsteps_eq_deviceNsteps_iff twoNodeComm unevenTransfer unevenDirection (by decide) rfl 0
    (by decide) 1 (by decide)).mpr (Or.inr ⟨by decide, by decide⟩)

end Vccl.P2p
