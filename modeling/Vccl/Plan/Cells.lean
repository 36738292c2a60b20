import Vccl.Plan.Schedule

/-! How the cells of a collective are spread over channels, from a cursor that stands on one of them. -/
namespace Vccl.Plan

structure CollTask.Sized (task : CollTask) : Prop where
  cells : 0 < task.cells
  cellSize : 0 < task.cellSize
  rate : 0 < task.trafficRate

variable {comm : Comm} {task : CollTask} {cur : Cursor} {nMax : Nat}

theorem divUp_pos {x y : Nat} (left : 0 < x) (right : 0 < y) : 0 < divUp x y := by
  exact Nat.div_pos (by omega) right

theorem CollTask.sized (count : 0 < task.count) (elementSize : 0 < task.elementSize)
    (traffic : 0 < task.trafficPerByte) : task.Sized := by
  have rate : 0 < task.trafficRate := by
    unfold CollTask.trafficRate
    split <;> omega
  have inner : 0 < divUp minTrafficPerChannel task.trafficRate := divUp_pos (by decide) rate
  have size : 0 < task.cellSize := Nat.mul_pos (divUp_pos inner (by decide)) (by decide)
  exact ⟨divUp_pos (Nat.mul_pos count elementSize) size, size, rate⟩

structure Cursor.Ok (nMax : Nat) (cur : Cursor) : Prop where
  inside : cur.channelId < nMax
  vacant : cur.channelId + 1 ≠ nMax → cur.currentTraffic < cur.trafficPerChannel
  positive : 0 < cur.trafficPerChannel

structure Cells.Cut (total : Nat) (cells : Cells) : Prop where
  lo : 0 < cells.lo
  perChannel : 0 < cells.perChannel
  sum : cells.lo + cells.perChannel * cells.nMid + cells.hi = total

structure Cells.Ok (nMax total : Nat) (cells : Cells) : Prop where
  lo : 0 < cells.lo
  sum : cells.lo + cells.perChannel * cells.nMid + cells.hi = total
  mid : cells.nMid ≠ 0 → 0 < cells.perChannel ∧ 0 < cells.hi
  inside : cells.channelId + cells.nChannels ≤ nMax

theorem fillHigh_ok {cells : Cells} {total : Nat} (cut : cells.Cut total)
    (inside : cells.channelId + cells.nChannels ≤ nMax) : (fillHigh cells).Ok nMax total := by
  obtain ⟨lo, perChannel, sum⟩ := cut
  unfold fillHigh
  split
  next hm =>
    obtain ⟨hi, nMid⟩ := hm
    obtain ⟨n, more⟩ := Nat.exists_eq_succ_of_ne_zero nMid
    rw [more, Nat.mul_succ] at sum
    refine ⟨lo, ?_, fun _ => ⟨perChannel, perChannel⟩, ?_⟩
    · simp only [more, Nat.succ_sub_one]
      omega
    · simp only [Cells.nChannels, perChannel.ne', ne_eq, not_false_eq_true, if_true] at inside ⊢
      omega
  next hs =>
    refine ⟨lo, sum, fun nMid => ⟨perChannel, ?_⟩, inside⟩
    exact Nat.pos_of_ne_zero fun hi => hs ⟨hi, nMid⟩

section Sized

variable (sized : task.Sized) (ok : cur.Ok nMax)
include sized ok

theorem cutCells_cut : (cutCells nMax cur task).Cut task.cells := by
  obtain ⟨some', size, rate⟩ := sized
  have cell := Nat.mul_pos size rate
  have lo : 0 < (cutCells nMax cur task).lo ∧ (cutCells nMax cur task).lo ≤ task.cells := by
    simp only [cutCells]
    split
    · exact ⟨some', Nat.le_refl _⟩
    next hn =>
      have vacant := ok.vacant hn
      have room := divUp_pos (show 0 < cur.trafficPerChannel - cur.currentTraffic by omega) cell
      omega
  refine ⟨lo.1, ?_, ?_⟩
  · have room := divUp_pos ok.positive cell
    simp only [cutCells]
    omega
  · have whole := Nat.div_add_mod (task.cells - (cutCells nMax cur task).lo) (cutCells nMax cur task).perChannel
    have lo := lo.2
    simp only [cutCells] at whole lo ⊢
    omega

theorem room_of_overflow (tooMany : nMax < cur.channelId + (cutCells nMax cur task).nChannels) :
    cur.channelId + 2 ≤ nMax := by
  obtain ⟨lo, hp, sum⟩ := cutCells_cut sized ok
  have inside := ok.inside
  by_contra tight
  have last : (cutCells nMax cur task).lo = task.cells := if_pos (by omega)
  have each := Nat.le_mul_of_pos_left (cutCells nMax cur task).nMid hp
  have none : (cutCells nMax cur task).nMid = 0 ∧ (cutCells nMax cur task).hi = 0 := by omega
  rw [Cells.nChannels, none.2] at tooMany
  simp only [lo.ne', ne_eq, not_false_eq_true, if_true, not_true, if_false] at tooMany
  omega

theorem clampCells_cut :
    let cells := clampCells nMax task.cells (cutCells nMax cur task)
    cells.Cut task.cells ∧ cells.channelId + cells.nChannels ≤ nMax := by
  obtain ⟨lo, hp, sum⟩ := cutCells_cut sized ok
  have room := room_of_overflow sized ok
  change nMax < (cutCells nMax cur task).channelId + _ → (cutCells nMax cur task).channelId + 2 ≤ nMax at room
  generalize cutCells nMax cur task = cells at *
  have nChannels : cells.nChannels = 1 + cells.nMid + if cells.hi ≠ 0 then 1 else 0 := by
    simp [Cells.nChannels, lo.ne']
  simp only [clampCells]
  by_cases ht : nMax < cells.channelId + cells.nChannels
  · rw [if_pos ht]
    have each := Nat.le_mul_of_pos_left cells.nMid hp
    have room := room ht
    have more : nMax - cells.channelId - 2 + 1 ≤ task.cells - cells.lo := by
      rw [nChannels] at ht
      split at ht <;> omega
    have high : 0 < (task.cells - cells.lo) / (nMax - cells.channelId - 2 + 1) :=
      Nat.div_pos more (Nat.succ_pos _)
    have whole := Nat.div_add_mod (task.cells - cells.lo) (nMax - cells.channelId - 2 + 1)
    refine ⟨⟨lo, high, ?_⟩, ?_⟩
    · simp only
      rw [Nat.mul_comm, Nat.mul_add] at whole
      omega
    · simp only [Cells.nChannels, lo.ne', ne_eq, not_false_eq_true, if_true]
      split <;> omega
  · rw [if_neg ht]
    exact ⟨⟨lo, hp, sum⟩, by omega⟩

theorem splitCells_ok : (splitCells nMax cur task).Ok nMax task.cells := by
  obtain ⟨cut, inside⟩ := clampCells_cut sized ok
  have filled := fillHigh_ok cut inside
  rw [splitCells, skipLow, if_pos filled.lo.ne']
  exact filled

theorem splitCells_fits : (countCells task (splitCells nMax cur task)).nChannels ≤ nMax := by
  obtain ⟨lo, -, -, inside⟩ := splitCells_ok sized ok
  rw [Cells.nChannels, if_pos lo.ne'] at inside
  simp only [countCells]
  split_ifs at inside ⊢ <;> omega

end Sized

def Cursor.Follows (comm : Comm) (cur : Cursor) : Prop :=
  ∀ kind, cur.kindPrev = some kind → cur.Ok (maxChannelsOf comm kind)

theorem turn_ok (est : Estimate) (nvls : task.isNvls = true → 0 < comm.nvlsChannels) (follows : cur.Follows comm) :
    (cur.turn est task.kind).Ok (maxChannelsOf comm task.kind) ∧
      (cur.turn est task.kind).kindPrev = some task.kind := by
  unfold Cursor.turn
  split
  next same =>
    exact ⟨follows _ same, same⟩
  have channels : 0 < maxChannelsOf comm task.kind := by
    unfold maxChannelsOf CollTask.kind
    split
    next like => exact nvls like
    · exact comm.someChannel
  have least : 0 < minTrafficPerChannel := by decide
  refine ⟨⟨channels, fun _ => ?_, ?_⟩, rfl⟩
  all_goals
    simp only
    omega

end Vccl.Plan
