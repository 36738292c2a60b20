import Vccl.Lib.Transition

/-! The reference count of the net plugin over calls of ncclNetPluginLoad and ncclNetPluginUnload. -/
namespace Vccl.Net.Plugin

open Transition Function

inductive Status where
  | failed | ready | success
deriving DecidableEq

structure State where
  refCount : Int
  status : Status
  /-- The library is open. -/
  lib : Bool
  /-- netPluginLoaded of each communicator -/
  loaded : Nat → Bool
  locked : Bool
  /-- The communicators that loaded the plugin and have not unloaded it. -/
  holders : Finset Nat
  /-- The count and the library before the last call. -/
  last : Int × Bool

def initial (refCount : Int) : State := ⟨refCount, .ready, false, fun _ => false, false, ∅, (refCount, false)⟩

/-- A call, with what the library calls in it answer: ncclClosePluginLib does not find the handle if the tuner plugin,
which may share it, has closed it. -/
inductive Call where
  | load (comm : Nat) (opens hasNet closes : Bool)
  | unload (comm : Nat) (closes : Bool)

def ncclNetPluginLoad (s : State) (comm : Nat) (opens hasNet closes : Bool) : State :=
  match s.status with
  | .failed => s
  | .success => { s with refCount := s.refCount + 1, holders := insert comm s.holders }
  | .ready =>
    if opens && hasNet then
      { s with
        lib := true, refCount := s.refCount + 1, status := .success, loaded := update s.loaded comm true
        holders := insert comm s.holders }
    else if opens && !closes then { s with lib := true, locked := true }
    else { s with status := .failed }

def ncclNetPluginUnload (s : State) (comm : Nat) (closes : Bool) : State :=
  let s := { s with holders := s.holders.erase comm }
  if s.loaded comm then
    let s := { s with refCount := s.refCount - 1 }
    if s.refCount = 0 then
      -- NCCLCHECK returns with the lock held
      if closes then { s with lib := false, status := .ready, loaded := update s.loaded comm false }
      else { s with locked := true }
    else s
  else s

def step (s : State) (call : Call) : Option State :=
  if s.locked then none
  else
    let s := { s with last := (s.refCount, s.lib) }
    match call with
    | .load comm opens hasNet closes => some (ncclNetPluginLoad s comm opens hasNet closes)
    | .unload comm closes => some (ncclNetPluginUnload s comm closes)

/-- The count is the initial one and one for each holder, the last call closed the library exactly if it took the count
down to zero, there is a library as long as there is a holder, and the lock is free. -/
structure Balanced (refCount : Int) (s : State) : Prop where
  count : s.refCount = refCount + s.holders.card
  closed : s.last.2 = true ∧ s.lib = false ↔ s.refCount < s.last.1 ∧ s.refCount = 0
  held : s.holders ≠ ∅ → s.lib = true
  free : s.locked = false
  opened : s.lib = true ↔ s.status = .success
  flag : ∀ a, s.loaded a = true → s.lib = true ∧ ∀ b, s.loaded b = true → a = b

/-- Only a communicator that does not hold the plugin loads it, a library without a net can be closed, the flag of one
that unloads says whether it holds the plugin, and one that takes the count to zero is the last and can close. -/
def Granted (s : State) : Call → Prop
  | .load comm opens hasNet closes =>
    (s.status = .success → comm ∉ s.holders) ∧
      (s.status = .ready → opens = true → hasNet = false → closes = true)
  | .unload comm closes =>
    (s.loaded comm = true ↔ comm ∈ s.holders) ∧
      (comm ∈ s.holders → s.refCount = 1 → s.holders = {comm} ∧ closes = true)

variable {refCount : Int} {s s' : State}

theorem load_balanced_iff (h : Balanced refCount s) (comm : Nat) (opens hasNet closes : Bool) :
    Balanced refCount (ncclNetPluginLoad { s with last := (s.refCount, s.lib) } comm opens hasNet closes) ↔
      Granted s (.load comm opens hasNet closes) := by
  obtain ⟨count, -, held, free, opened, flag⟩ := h
  unfold ncclNetPluginLoad Granted
  cases hs : s.status with
  | failed => exact ⟨fun _ => by simp, fun _ => ⟨count, by simp, held, free, by simpa [hs] using opened, flag⟩⟩
  | success =>
    constructor
    · rintro ⟨_, -, -, -, -, -⟩
      grind
    · intro hg
      have := Finset.card_insert_of_notMem (hg.1 rfl)
      constructor <;> grind
  | ready =>
    have empty : s.holders = ∅ := by grind
    constructor
    · rintro ⟨-, -, -, _, -, -⟩
      grind
    · intro hg
      dsimp only
      split_ifs <;> constructor <;> grind

theorem unload_balanced_iff (h : Balanced refCount s) (comm : Nat) (closes : Bool) :
    Balanced refCount (ncclNetPluginUnload { s with last := (s.refCount, s.lib) } comm closes) ↔
      Granted s (.unload comm closes) := by
  obtain ⟨count, -, held, free, opened, flag⟩ := h
  have card := Finset.card_erase_add_one (a := comm) (s := s.holders)
  have same := Finset.erase_eq_of_notMem (a := comm) (s := s.holders)
  simp only [ncclNetPluginUnload, Granted]
  split_ifs
  all_goals
    constructor
    · rintro ⟨_, _, _, _, -, -⟩
      grind [Finset.erase_eq_empty_iff]
    · intro hg
      constructor <;> grind

end Vccl.Net.Plugin
