import Mathlib

/-! The memory-region caches of the IB devices: `ncclIbRegMrDmaBuf` and `ncclIbDeregMr` take and give
back one region on each device of a connection, `ncclIbDestroyBase` drops what is left with the last
connection of a device. -/
namespace Vccl.Mr

/-- `ncclIbMr`. Regions the driver hands out are named by numbers. -/
structure Slot where
  addr : Nat
  pages : Nat
  refs : Nat
  mr : Nat
  deriving DecidableEq

/-- The loop of `ncclIbRegMrDmaBufInternal`; `fresh` is the region the driver would register, `none`
if it fails. -/
def register (pageSize addr pages : Nat) (fresh : Option Nat) : List Slot → Option (List Slot × Nat)
  | [] => fresh.map fun mr => ([⟨addr, pages, 1, mr⟩], mr)
  | slot :: rest =>
    if addr < slot.addr then fresh.map fun mr => (⟨addr, pages, 1, mr⟩ :: slot :: rest, mr)
    else if (addr - slot.addr) / pageSize + pages ≤ slot.pages then
      some ({ slot with refs := slot.refs + 1 } :: rest, slot.mr)
    else (register pageSize addr pages fresh rest).map fun (rest', mr) => (slot :: rest', mr)

/-- `ncclIbDeregMrInternal`: the slots, and whether the region is deregistered. The last slot takes the
place of one that is not used any more. -/
def deregister (mr : Nat) (slots : List Slot) : Option (List Slot × Bool) :=
  if slots = [] then some ([], false)
  else
    match slots.findIdx? fun slot => slot.mr = mr with
    | none => none
    | some i =>
      match slots[i]?, slots.getLast? with
      | some slot, some last =>
        if slot.refs = 1 then some ((slots.set i last).dropLast, true)
        else some (slots.set i { slot with refs := slot.refs - 1 }, false)
      | _, _ => none

abbrev Region := Nat × Nat

structure Handle where
  conn : Nat
  mrs : List Region
  deriving DecidableEq

/-- The devices of a connection: each device of its merged device, followed by its backup with fault
tolerance on. -/
structure Conn where
  devs : List (Nat × Nat)
  faultTolerance : Bool

def Conn.devices (c : Conn) : List Nat :=
  c.devs.flatMap fun (dev, backup) => if c.faultTolerance then [dev, backup] else [dev]

/-- `live` has the handles that were returned and not given back; `registered` and `deregistered` are
history. -/
structure State where
  caches : Nat → List Slot
  pdRefs : Nat → Nat
  nextMr : Nat
  opened : List Nat
  live : List Handle
  registered : List Region
  deregistered : List Region

def initial : State where
  caches := fun _ => []
  pdRefs := fun _ => 0
  nextMr := 0
  opened := []
  live := []
  registered := []
  deregistered := []

def State.take (s : State) (pageSize addr pages : Nat) (ok : Bool) (dev : Nat) : Option (State × Region) :=
  let fresh := if ok then some s.nextMr else none
  (register pageSize addr pages fresh (s.caches dev)).map fun (slots, mr) =>
    ({ s with
        caches := Function.update s.caches dev slots
        nextMr := if mr = s.nextMr then s.nextMr + 1 else s.nextMr
        registered := if mr = s.nextMr then s.registered ++ [(dev, mr)] else s.registered },
      (dev, mr))

def State.takeAll (s : State) (pageSize addr pages : Nat) (ok : Nat → Bool) :
    Nat → List Nat → State × Option (List Region)
  | _, [] => (s, some [])
  | i, dev :: rest =>
    match s.take pageSize addr pages (ok i) dev with
    | none => (s, none)
    | some (s', region) =>
      match s'.takeAll pageSize addr pages ok (i + 1) rest with
      | (s'', none) => (s'', none)
      | (s'', some regions) => (s'', some (region :: regions))

/-- `ncclIbDeregMrInternal` on a device; `false` for an error, which is also what a failing driver
gives. -/
def State.giveBack (s : State) (ok : Bool) (region : Region) : State × Bool :=
  match deregister region.2 (s.caches region.1) with
  | none => (s, false)
  | some (slots, gone) =>
    let s := { s with caches := Function.update s.caches region.1 slots }
    if gone then
      if ok then ({ s with deregistered := s.deregistered ++ [region] }, true) else (s, false)
    else (s, true)

def State.giveBackAll (s : State) (ok : Nat → Bool) : Nat → List Region → State × Bool
  | _, [] => (s, true)
  | i, region :: rest =>
    match s.giveBack (ok i) region with
    | (s', false) => (s', false)
    | (s', true) => s'.giveBackAll ok (i + 1) rest

def State.destroyBase (s : State) (dev : Nat) : State :=
  let s := { s with pdRefs := Function.update s.pdRefs dev (s.pdRefs dev - 1) }
  if s.pdRefs dev = 0 then
    { s with
      caches := Function.update s.caches dev []
      deregistered := s.deregistered ++ (s.caches dev).map fun slot => (dev, slot.mr) }
  else s

/-- `ok` is what the driver answers for each device in turn. -/
inductive Action where
  | connect (c : Nat)
  | close (c : Nat)
  | regMr (c data size : Nat) (ok : Nat → Bool)
  | deregMr (handle : Handle) (ok : Nat → Bool)

section

variable (conns : Nat → Conn) (pageSize : Nat)

def call (s : State) : Action → State × Bool
  | .connect c =>
    ({ s with
        opened := c :: s.opened
        pdRefs := fun dev => s.pdRefs dev + (conns c).devices.count dev }, true)
  | .close c =>
    ((conns c).devices.foldl State.destroyBase { s with opened := s.opened.erase c }, true)
  | .regMr c data size ok =>
    let addr := data / pageSize * pageSize
    let pages := (data + size - addr + pageSize - 1) / pageSize
    match s.takeAll pageSize addr pages ok 0 (conns c).devices with
    | (s', none) => (s', false)
    | (s', some regions) => ({ s' with live := ⟨c, regions⟩ :: s'.live }, true)
  | .deregMr handle ok =>
    let given := s.giveBackAll ok 0 handle.mrs
    ({ given.1 with live := given.1.live.erase handle }, given.2)

def enabled (s : State) : Action → Bool
  | .connect c => !s.opened.contains c
  | .close c => s.opened.contains c
  | .regMr c _ _ _ => s.opened.contains c
  | .deregMr handle _ => s.live.contains handle

def step (s : State) (action : Action) : Option State :=
  if enabled s action then some (call conns pageSize s action).1 else none

end

end Vccl.Mr
