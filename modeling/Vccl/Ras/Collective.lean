import Vccl.Lib.Transition

/-! One RAS collective from its forwarded requests to its response: what the handler of responses, the purging of
connections and the timeouts do to the forwarding slots and their counter. -/
namespace Vccl.Ras

open Transition List

variable {C : Type} [DecidableEq C]

/-- A collective whose requester is lost is freed without a response. -/
inductive Status where
  | active
  | released
  | dropped
  deriving DecidableEq

/-- `fwdConns` has the first `nFwdSent` slots; `gaveUp` says that the overall timeout fired. -/
structure Collective (C : Type) where
  fromConn : Option C
  fwdConns : List (Option C)
  nFwdRecv : Nat
  nLegTimeouts : Int
  gaveUp : Bool
  status : Status
  deriving DecidableEq

/-- `rasCollReadyResp`, when the counters are equal. -/
def Collective.ready (coll : Collective C) : Collective C :=
  if coll.fwdConns.length = coll.nFwdRecv then { coll with status := .released } else coll

def rasNetSendCollReq (fromConn : Option C) (conns : List C) : Collective C :=
  Collective.ready ⟨fromConn, conns.map some, 0, 0, false, .active⟩

def Collective.clear (coll : Collective C) (conn : C) (legs : Int) : Collective C :=
  Collective.ready { coll with
    fwdConns := coll.fwdConns.replace (some conn) none
    nFwdRecv := coll.nFwdRecv + 1
    nLegTimeouts := coll.nLegTimeouts + legs }

/-- The slots of connections that are not `fine` are given up; with the longer timeout so is all that is left. -/
def rasCollsHandleTimeouts (coll : Collective C) (fine : C → Bool) (extra : Bool) : Collective C :=
  let late := coll.fwdConns.countP (·.any (!fine ·))
  let coll := Collective.ready { coll with
    fwdConns := coll.fwdConns.map (·.filter fine)
    nFwdRecv := coll.nFwdRecv + late
    nLegTimeouts := coll.nLegTimeouts + late }
  if coll.status = .active ∧ extra then
    { coll with
      nLegTimeouts := coll.nLegTimeouts + (coll.fwdConns.length - coll.nFwdRecv)
      nFwdRecv := coll.fwdConns.length
      gaveUp := true
      status := .released }
  else coll

inductive Event (C : Type) where
  | response (conn : C) (nLegTimeouts : Int)
  | purge (conn : C)
  | timeout (fine : C → Bool) (extra : Bool)

/-- A response to a collective that is no longer there is ignored. -/
def step (coll : Collective C) (event : Event C) : Option (Collective C) :=
  some <| if coll.status ≠ .active then coll
  else match event with
    | .response conn legs => coll.clear conn legs
    | .purge conn =>
      if coll.fromConn = some conn then { coll with status := .dropped }
      else if some conn ∈ coll.fwdConns then coll.clear conn 1
      else coll
    | .timeout fine extra => rasCollsHandleTimeouts coll fine extra

/-- Before the release the counter is the number of empty slots, and some are not; the release comes when all are, or with
the overall timeout. -/
def Accounted (coll : Collective C) : Prop :=
  match coll.status with
  | .active =>
    coll.nFwdRecv = coll.fwdConns.count none ∧ coll.nFwdRecv < coll.fwdConns.length ∧ coll.gaveUp = false
  | .released => coll.gaveUp = true ∨ ∀ slot ∈ coll.fwdConns, slot = none
  | .dropped => True

def Awaited (coll : Collective C) : Event C → Prop
  | .response conn _ => coll.status = .active → some conn ∈ coll.fwdConns
  | _ => True

theorem ready_accounted {coll : Collective C} (active : coll.status = .active) (waits : coll.gaveUp = false) :
    Accounted coll.ready ↔ coll.nFwdRecv = coll.fwdConns.count none := by
  have most : coll.fwdConns.count none ≤ _ := count_le_length
  unfold Collective.ready
  split
  next all =>
    have empty := @count_eq_length _ _ _ none coll.fwdConns
    simp only [Accounted, waits, Bool.false_eq_true, false_or, ← all, @eq_comm _ (_ : Option C) none, ← empty]
    exact eq_comm
  · simp only [Accounted, active, waits, and_true]
    omega

theorem count_given_up (fine : C → Bool) (slots : List (Option C)) :
    (slots.map (·.filter fine)).count none = slots.count none + slots.countP (·.any (!fine ·)) := by
  induction slots with
  | nil => rfl
  | cons slot rest ih =>
    cases slot with
    | none => simp [ih, Nat.add_right_comm]
    | some conn =>
      cases good : fine conn <;> simp [ih, good, Option.filter_some, Nat.add_assoc]

variable {coll coll' : Collective C}

theorem step_accounted (event : Event C) (h : Accounted coll) (next : step coll event = some coll') :
    Accounted coll' ↔ Awaited coll event := by
  cases next
  split
  next over' => cases event <;> simp [Awaited, h, over']
  next active =>
    rw [not_not] at active
    have fields := h
    simp only [Accounted, active] at fields
    obtain ⟨hc, _, waits⟩ := fields
    have cleared (conn : C) (legs : Int) : Accounted (coll.clear conn legs) ↔ some conn ∈ coll.fwdConns := by
      rw [Collective.clear, ready_accounted (by exact active) (by exact waits)]
      simp only [count_replace, hc]
      by_cases mem : some conn ∈ coll.fwdConns <;> simp [mem]
    cases event with
    | response conn legs => simp [Awaited, active, cleared]
    | purge conn =>
      simp only [Awaited, iff_true]
      split
      · trivial
      · split
        next mem => exact (cleared conn 1).mpr mem
        · exact h
    | timeout fine extra =>
      simp only [Awaited, iff_true, rasCollsHandleTimeouts]
      split
      · exact .inl rfl
      · rw [ready_accounted (by exact active) (by exact waits), count_given_up, hc]

/-- Every request is accounted for once, and the response is released when all are, exactly in the runs in which no
response comes over a connection that was given up on. -/
theorem accounted_iff_awaited (fromConn : Option C) (conns : List C) (events : List (Event C)) :
    (∀ k coll, run step (rasNetSendCollReq fromConn conns) (events.take k) = some coll → Accounted coll) ↔
      Meets step Awaited (rasNetSendCollReq fromConn conns) events := by
  apply always_iff_meets Accounted
  · exact fun _ event _ h next => step_accounted event h next
  · nofun
  · exact (ready_accounted rfl rfl).mpr (count_eq_zero.mpr (by simp)).symm

/-- A response over a connection that was purged before is counted again, and the other one is not waited for. -/
theorem late_response_releases :
    ∃ coll, run step (rasNetSendCollReq none [0, 1]) [.purge 0, .response 0 0] = some coll ∧
      coll.status = .released ∧ coll.gaveUp = false ∧ coll.fwdConns = [none, some 1] :=
  ⟨_, rfl, rfl, rfl, rfl⟩

end Vccl.Ras
