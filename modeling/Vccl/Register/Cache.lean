import Vccl.Bitops

/-! The cache of registered buffers of a communicator (`register.cc`): how an address range is
rounded to pages, and what the three loops over the slots do. -/
namespace Vccl.Register

open List

/-- `pageSize` is what `sysconf` says, a power of two; `localRegister` and `checkPointers` are
parameters of the library. -/
structure Config where
  pageShift : Nat
  shift : pageShift < 64
  localRegister : Bool
  checkPointers : Bool

def smallPages : Config := ⟨12, by decide, true, false⟩

def Config.pageSize (cfg : Config) : Nat := 2 ^ cfg.pageShift

/-- A buffer of the address space; the last page is not memory of a user. -/
structure Buffer (cfg : Config) where
  data : Nat
  size : Nat
  fits : data + size + cfg.pageSize ≤ 2 ^ 64

/-- `ncclReg`, with the address it is allocated at; the reference counts are integers here. -/
structure Reg where
  ptr : Nat
  addr : Nat
  pages : Nat
  localRefs : Int
  graphRefs : Int
  deriving DecidableEq

def Reg.refs (r : Reg) (isGraph : Bool) : Int := if isGraph then r.graphRefs else r.localRefs

def Reg.addRefs (r : Reg) (isGraph : Bool) (n : Int) : Reg :=
  if isGraph then { r with graphRefs := r.graphRefs + n } else { r with localRefs := r.localRefs + n }

def addrOf (cfg : Config) (data : Nat) : Nat := data &&& (2 ^ 64 - cfg.pageSize)

def pagesOf (cfg : Config) (data size : Nat) : Nat :=
  toSizeT (data + size - addrOf cfg data + cfg.pageSize - 1) / cfg.pageSize

def inside (cfg : Config) (addr pages : Nat) (r : Reg) : Bool :=
  decide (r.addr ≤ addr) && decide (toSizeT ((addr - r.addr : Nat) / cfg.pageSize + pages) ≤ r.pages)

def findFrom (cfg : Config) (addr pages : Nat) : List Reg → Option Reg
  | [] => none
  | r :: rest =>
    if addr < r.addr then none
    else if inside cfg addr pages r then some r
    else findFrom cfg addr pages rest

def regFind (cfg : Config) (slots : List Reg) (b : Buffer cfg) : Option Reg :=
  findFrom cfg (addrOf cfg b.data) (pagesOf cfg b.data b.size) slots

def newReg (ptr addr pages : Nat) (isGraph : Bool) : Reg :=
  Reg.addRefs ⟨ptr, addr, pages, 0, 0⟩ isGraph 1

/-- The loop of `ncclRegister`: the slots after it and the handle. -/
def registerFrom (cfg : Config) (ptr addr pages : Nat) (isGraph : Bool) : List Reg → List Reg × Nat
  | [] => ([newReg ptr addr pages isGraph], ptr)
  | r :: rest =>
    if addr < r.addr then (newReg ptr addr pages isGraph :: r :: rest, ptr)
    else if inside cfg addr pages r then (r.addRefs isGraph 1 :: rest, r.ptr)
    else
      let (slots, handle) := registerFrom cfg ptr addr pages isGraph rest
      (r :: slots, handle)

/-- The loop of `commDeregister` and what follows it: the slots, and whether `regCleanup` was called;
`none` if the handle is not found. -/
def deregisterFrom (handle : Nat) (isGraph : Bool) : List Reg → Option (List Reg × Bool)
  | [] => none
  | r :: rest =>
    if r.ptr = handle then
      let r := r.addRefs isGraph (-1)
      if r.localRefs ≠ 0 ∨ r.graphRefs ≠ 0 then some (r :: rest, false) else some (rest, true)
    else
      (deregisterFrom handle isGraph rest).map fun (slots, cleaned) => (r :: slots, cleaned)

variable {cfg : Config}

def Covers (cfg : Config) (r : Reg) (b : Buffer cfg) : Prop :=
  r.addr ≤ b.data ∧ b.data + b.size ≤ r.addr + r.pages * cfg.pageSize

theorem pageSize_pos (cfg : Config) : 0 < cfg.pageSize := Nat.two_pow_pos _

theorem addrOf_eq {data : Nat} (word : data < 2 ^ 64) :
    addrOf cfg data = data / cfg.pageSize * cfg.pageSize := by
  unfold addrOf Config.pageSize
  have low : 2 ^ 64 - 2 ^ cfg.pageShift = 2 ^ 64 - ((2 ^ cfg.pageShift - 1) + 1) := by
    have := Nat.two_pow_pos cfg.pageShift
    omega
  have bound : 2 ^ cfg.pageShift - 1 < 2 ^ 64 := by
    have := Nat.pow_lt_pow_right (show 1 < 2 by decide) cfg.shift
    omega
  rw [low, ← Nat.shiftRight_eq_div_pow, ← Nat.shiftLeft_eq]
  refine Nat.eq_of_testBit_eq fun i => ?_
  rw [Nat.testBit_and, Nat.testBit_two_pow_sub_succ bound]
  by_cases high : cfg.pageShift ≤ i
  · have index : cfg.pageShift + (i - cfg.pageShift) = i := by omega
    by_cases top : i < 64
    · simp [high, top]
    · have zero : data.testBit i = false :=
        Nat.testBit_lt_two_pow (lt_of_lt_of_le word (Nat.pow_le_pow_right (by decide) (by omega)))
      simp [index, zero]
  · simp [Nat.lt_of_not_le high]

theorem Buffer.word (b : Buffer cfg) : b.data < 2 ^ 64 := by
  have := b.fits
  have := pageSize_pos cfg
  omega

theorem addrOf_le (b : Buffer cfg) : addrOf cfg b.data ≤ b.data := by
  rw [addrOf_eq b.word]
  exact Nat.div_mul_le_self _ _

theorem pages_end (b : Buffer cfg) (limit : Nat) :
    addrOf cfg b.data + pagesOf cfg b.data b.size * cfg.pageSize ≤ limit * cfg.pageSize ↔
      b.data + b.size ≤ limit * cfg.pageSize := by
  have pos := pageSize_pos cfg
  have low := addrOf_le b
  have fits := b.fits
  have exact : pagesOf cfg b.data b.size =
      (b.data + b.size - addrOf cfg b.data + cfg.pageSize - 1) / cfg.pageSize := by
    unfold pagesOf
    have same : (b.data + b.size - addrOf cfg b.data + cfg.pageSize - 1 : Int) =
        ((b.data + b.size - addrOf cfg b.data + cfg.pageSize - 1 : Nat) : Int) := by omega
    rw [same, toSizeT_of_lt (by omega)]
  rw [exact, addrOf_eq b.word]
  have rounded : b.data / cfg.pageSize * cfg.pageSize ≤ b.data := Nat.div_mul_le_self _ _
  have shift : b.data + b.size - b.data / cfg.pageSize * cfg.pageSize + cfg.pageSize - 1 =
      b.data + b.size + cfg.pageSize - 1 - b.data / cfg.pageSize * cfg.pageSize := by omega
  rw [shift, mul_comm (b.data / cfg.pageSize), Nat.sub_mul_div, mul_comm _ cfg.pageSize,
    mul_comm limit, ← Nat.mul_add]
  have order : b.data / cfg.pageSize ≤ (b.data + b.size + cfg.pageSize - 1) / cfg.pageSize :=
    Nat.div_le_div_right (by omega)
  rw [Nat.add_sub_cancel' order, Nat.mul_le_mul_left_iff pos]
  rw [← Nat.lt_succ_iff, Nat.div_lt_iff_lt_mul pos, Nat.succ_mul, mul_comm limit]
  omega

def Reg.Aligned (cfg : Config) (r : Reg) : Prop := ∃ base, r.addr = base * cfg.pageSize

theorem aligned_addrOf (b : Buffer cfg) : ∃ base, addrOf cfg b.data = base * cfg.pageSize :=
  ⟨_, addrOf_eq b.word⟩

variable {r : Reg}

theorem addr_le_iff (aligned : r.Aligned cfg) (b : Buffer cfg) :
    r.addr ≤ addrOf cfg b.data ↔ r.addr ≤ b.data := by
  obtain ⟨_, border⟩ := aligned
  rw [addrOf_eq b.word, border, Nat.mul_le_mul_right_iff (pageSize_pos cfg),
    Nat.le_div_iff_mul_le (pageSize_pos cfg)]

theorem pages_word (b : Buffer cfg) :
    b.data / cfg.pageSize + pagesOf cfg b.data b.size < 2 ^ 64 := by
  have pos := pageSize_pos cfg
  have space : 2 ^ (64 - cfg.pageShift) * cfg.pageSize = 2 ^ 64 := by
    rw [Config.pageSize, ← pow_add, Nat.sub_add_cancel cfg.shift.le]
  have small : 2 ^ (64 - cfg.pageShift) ≤ 2 ^ 64 := Nat.pow_le_pow_right (by decide) (by omega)
  have fits := b.fits
  have below := (pages_end b (2 ^ (64 - cfg.pageShift) - 1)).mpr (by rw [Nat.sub_mul]; omega)
  rw [addrOf_eq b.word, ← Nat.add_mul, Nat.mul_le_mul_right_iff pos] at below
  omega

theorem inside_iff (aligned : r.Aligned cfg) (b : Buffer cfg) :
    inside cfg (addrOf cfg b.data) (pagesOf cfg b.data b.size) r = true ↔ Covers cfg r b := by
  have pos := pageSize_pos cfg
  have low := addr_le_iff aligned b
  have word := pages_word b
  have pages := pages_end b
  obtain ⟨base, border⟩ := aligned
  rw [inside, Bool.and_eq_true, decide_eq_true_eq, decide_eq_true_eq, low]
  refine and_congr_right fun starts => ?_
  rw [border, addrOf_eq b.word] at *
  have starts : base ≤ b.data / cfg.pageSize := (Nat.le_div_iff_mul_le pos).mpr starts
  have offset : (b.data / cfg.pageSize * cfg.pageSize - base * cfg.pageSize) / cfg.pageSize =
      b.data / cfg.pageSize - base := by
    rw [← Nat.sub_mul, Nat.mul_div_cancel _ pos]
  have sum : toSizeT (((b.data / cfg.pageSize * cfg.pageSize - base * cfg.pageSize : Nat) : Int) /
      cfg.pageSize + pagesOf cfg b.data b.size) =
      b.data / cfg.pageSize - base + pagesOf cfg b.data b.size := by
    rw [← Int.natCast_ediv, offset]
    exact toSizeT_of_lt (by omega)
  rw [← Nat.add_mul, ← pages, ← Nat.add_mul, Nat.mul_le_mul_right_iff pos]
  omega

def Sorted (slots : List Reg) : Prop := slots.Pairwise fun r r' => r.addr ≤ r'.addr

variable {slots : List Reg}

theorem findFrom_some {addr pages : Nat} (found : findFrom cfg addr pages slots = some r) :
    r ∈ slots ∧ inside cfg addr pages r = true := by
  induction slots with
  | nil => contradiction
  | cons first rest ih =>
    obtain ⟨-, found⟩ := Option.ite_none_left_eq_some.mp found
    split at found
    next hit =>
      cases found
      exact ⟨mem_cons_self, hit⟩
    · obtain ⟨mem, hit⟩ := ih found
      exact ⟨mem_cons_of_mem _ mem, hit⟩

theorem findFrom_none {addr pages : Nat} (sorted : Sorted slots) (missed : findFrom cfg addr pages slots = none) :
    ∀ r ∈ slots, inside cfg addr pages r = false := by
  induction slots with
  | nil => simp
  | cons first rest ih =>
    obtain ⟨hl, sorted⟩ := pairwise_cons.mp sorted
    rw [findFrom] at missed
    intro r mem
    split at missed
    next hb =>
      have later : first.addr ≤ r.addr := by
        rcases mem_cons.mp mem with rfl | mem
        · exact le_rfl
        · exact hl r mem
      have above : ¬ r.addr ≤ addr := by omega
      simp [inside, above]
    · split at missed
      · contradiction
      next miss =>
        rcases mem_cons.mp mem with rfl | mem
        · exact Bool.eq_false_iff.mpr miss
        · exact ih sorted missed r mem

def FindsCovering (cfg : Config) (slots : List Reg) (b : Buffer cfg) : Prop :=
  match regFind cfg slots b with
  | some r => r ∈ slots ∧ Covers cfg r b
  | none => ∀ r ∈ slots, ¬ Covers cfg r b

theorem regFind_covering (sorted : Sorted slots) (aligned : ∀ r ∈ slots, r.Aligned cfg) (b : Buffer cfg) :
    FindsCovering cfg slots b := by
  unfold FindsCovering
  split
  next r hf =>
    obtain ⟨mem, hit⟩ := findFrom_some hf
    exact ⟨mem, (inside_iff (aligned r mem) b).mp hit⟩
  next hm =>
    intro r mem covers
    have miss := findFrom_none sorted hm r mem
    rw [(inside_iff (aligned r mem) b).mpr covers] at miss
    contradiction

end Vccl.Register
