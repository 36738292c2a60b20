import Vccl.Ib.Requests

/-! The backup of a merged device, as `ncclIbConnect` and `ncclIbAccept` choose it with fault tolerance on. -/
namespace Vccl.Ib.Backup

def maxIbVDevs : Nat := 32 * 8

structure Host where
  mergeNics : Bool
  nIbDevs : Nat
  link : Nat → Bool

abbrev Table := List (List Nat)

def makeVDevice (host : Host) (table : Table) (devs : List Nat) : Table :=
  if host.mergeNics = false ∧ 1 < devs.length ∨ devs = [] ∨ table.length = maxIbVDevs ∨ maxDevsPerNic < devs.length ∨
      devs.tail.any (fun dev => decide (host.nIbDevs ≤ dev ∨ host.link dev ≠ host.link (devs.headD 0))) then table
  else table ++ [devs]

/-- `ncclIbInit` makes one for every physical device; others are made of several. -/
def mergedDevs (host : Host) (merges : List (List Nat)) : Table :=
  ((List.range host.nIbDevs).map ([·]) ++ merges).foldl (makeVDevice host) []

/-- The backup is there, has a device for each one of the primary, and none of those. -/
def BackupServes (table : Table) (dev : Nat) : Prop :=
  ∃ primary backup, table[dev]? = some primary ∧ table[dev ^^^ 1]? = some backup ∧
    primary.length ≤ backup.length ∧ ∀ d ∈ primary, d ∉ backup

/-- Devices come in pairs of equal width without a physical device in common. -/
structure Paired (table : Table) : Prop where
  even : 2 ∣ table.length
  pairs : ∀ k first second, table[2 * k]? = some first → table[2 * k + 1]? = some second →
    first.length = second.length ∧ ∀ d ∈ first, d ∉ second

theorem xor_even (k : Nat) : (2 * k) ^^^ 1 = 2 * k + 1 := Nat.xor_one_of_even ⟨k, Nat.two_mul k⟩

theorem xor_odd (k : Nat) : (2 * k + 1) ^^^ 1 = 2 * k := Nat.xor_one_of_odd ⟨k, rfl⟩

theorem serves_of_paired {table : Table} (paired : Paired table) {dev : Nat} (inside : dev < table.length) :
    BackupServes table dev := by
  obtain ⟨n, even⟩ := paired.even
  obtain ⟨k, rfl | rfl⟩ := Nat.even_or_odd' dev
  · have next : 2 * k + 1 < table.length := by omega
    obtain ⟨same, ha⟩ := paired.pairs k _ _ (List.getElem?_eq_getElem inside) (List.getElem?_eq_getElem next)
    refine ⟨_, _, List.getElem?_eq_getElem inside, ?_, same.le, ha⟩
    rw [xor_even, List.getElem?_eq_getElem next]
  · have before : 2 * k < table.length := by omega
    obtain ⟨same, ha⟩ := paired.pairs k _ _ (List.getElem?_eq_getElem before) (List.getElem?_eq_getElem inside)
    refine ⟨_, _, List.getElem?_eq_getElem inside, ?_, same.ge, fun d here ht => ha d ht here⟩
    rw [xor_odd, List.getElem?_eq_getElem before]

theorem paired_of_serves {table : Table} (serves : ∀ dev < table.length, BackupServes table dev) : Paired table := by
  constructor
  · by_contra odd
    obtain ⟨_, backup, -, hf, -⟩ := serves (2 * (table.length / 2)) (by omega)
    rw [xor_even] at hf
    obtain ⟨_, -⟩ := List.getElem?_eq_some_iff.mp hf
    omega
  · intro k first hs atFirst atSecond
    obtain ⟨hin, -⟩ := List.getElem?_eq_some_iff.mp atFirst
    obtain ⟨hi, -⟩ := List.getElem?_eq_some_iff.mp atSecond
    obtain ⟨_, backup, _, hf, wide, _⟩ := serves _ hin
    obtain ⟨_, _, _, hf', wide', -⟩ := serves _ hi
    rw [xor_odd] at hf'
    simp_all
    exact Nat.le_antisymm wide wide'

theorem backups_serve_iff (host : Host) (merges : List (List Nat)) :
    (∀ dev < (mergedDevs host merges).length, BackupServes (mergedDevs host merges) dev) ↔
      Paired (mergedDevs host merges) :=
  ⟨paired_of_serves, fun hp _ hi => serves_of_paired hp hi⟩

/-- With three devices the last has no backup; when both pairs are merged, the backup of the pair is the pair. -/
theorem third_device_unserved :
    ¬ BackupServes (mergedDevs ⟨true, 3, fun _ => true⟩ []) 2 ∧
    ¬ BackupServes (mergedDevs ⟨true, 2, fun _ => true⟩ [[0, 1], [0, 1]]) 2 := by
  constructor
  · rintro ⟨_, _, -, hf, -⟩
    cases hf
  · rintro ⟨_, _, own, hf, -, ha⟩
    cases own
    cases hf
    exact ha 0 (by decide) (by decide)

end Vccl.Ib.Backup
