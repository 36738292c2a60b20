import Vccl.Plan.Ops

/-! What one turn of each scheduling loop does to the tasks, the work and the kernel of the
plan; which channels and batches are used does not matter for it. -/
namespace Vccl.Plan

open Proxy (ProxyOp)

structure SameTasks (p q : KernelPlan) : Prop where
  kernelFn : q.kernelFn = p.kernelFn
  kernelSpecialized : q.kernelSpecialized = p.kernelSpecialized
  workBytes : q.workBytes = p.workBytes
  collOpCount : q.collOpCount = p.collOpCount
  collTasks : q.collTasks = p.collTasks
  p2pTasks : q.p2pTasks = p.p2pTasks

namespace SameTasks

theorem refl (p : KernelPlan) : SameTasks p p := ⟨rfl, rfl, rfl, rfl, rfl, rfl⟩

theorem trans {p q r : KernelPlan} (left : SameTasks p q) (right : SameTasks q r) :
    SameTasks p r :=
  ⟨right.kernelFn.trans left.kernelFn, right.kernelSpecialized.trans left.kernelSpecialized,
    right.workBytes.trans left.workBytes, right.collOpCount.trans left.collOpCount,
    right.collTasks.trans left.collTasks, right.p2pTasks.trans left.p2pTasks⟩

theorem foldl {α : Type} {f : KernelPlan → α → KernelPlan} (step : ∀ p a, SameTasks p (f p a))
    (items : List α) (p : KernelPlan) : SameTasks p (items.foldl f p) := by
  induction items generalizing p with
  | nil => exact refl p
  | cons a rest ih => exact (step p a).trans (ih (f p a))

end SameTasks

theorem addWorkBatchToPlan_same (plan : KernelPlan) (c : Nat) (workType : WorkType) (fn : DevFunc)
    (workOffset p2pRound : Nat) :
    SameTasks plan (addWorkBatchToPlan plan c workType fn workOffset p2pRound) :=
  ⟨rfl, rfl, rfl, rfl, rfl, rfl⟩

theorem addProxyOps_same (comm : Comm) (plan : KernelPlan) (op : ProxyOp) :
    SameTasks plan (addProxyOps comm plan op) :=
  ⟨rfl, rfl, rfl, rfl, rfl, rfl⟩

theorem addCollChannels_same (comm : Comm) (task : CollTask) (opOf : Nat → ProxyOp)
    (plan : KernelPlan) (lo n : Nat) : SameTasks plan (addCollChannels comm task opOf plan lo n) :=
  SameTasks.foldl (fun wip c => (addWorkBatchToPlan_same wip c _ _ _ _).trans
    (addProxyOps_same comm _ _)) _ plan

theorem addPartOp_same (comm : Comm) (side : Proxy.Side) (root part c : Nat) (plan : KernelPlan)
    (task : Option P2pTask) : SameTasks plan (addPartOp comm side root part c plan task) := by
  cases task with
  | none => exact .refl plan
  | some task =>
    simp only [addPartOp]
    split
    · exact .refl plan
    · exact addProxyOps_same comm plan _

theorem addP2pPart_same (comm : Comm) (workOffset p2pRound sendRank recvRank : Nat)
    (send recv : Option P2pTask) (wip : KernelPlan) (part : Nat) :
    SameTasks wip (addP2pPart comm workOffset p2pRound sendRank recvRank send recv wip part) := by
  simp only [addP2pPart]
  split
  · exact ⟨rfl, rfl, rfl, rfl, rfl, rfl⟩
  · refine SameTasks.trans ?_ (addPartOp_same comm .send _ part _ _ send)
    refine SameTasks.trans ?_ (addPartOp_same comm .recv _ part _ _ recv)
    exact ⟨rfl, rfl, rfl, rfl, rfl, rfl⟩

theorem addP2pToPlan_same (comm : Comm) (plan : KernelPlan) (p2pRound sendRank recvRank : Nat)
    (send recv : Option P2pTask) :
    SameTasks { plan with workBytes := plan.workBytes + devWorkSize .p2p }
      (addP2pToPlan comm plan p2pRound sendRank recvRank send recv) :=
  SameTasks.foldl (addP2pPart_same comm plan.workBytes p2pRound sendRank recvRank send recv) _ _

structure PlacesColl (p : KernelPlan) (task : CollTask) (q : KernelPlan) : Prop where
  kernelFn : q.kernelFn = if p.kernelSpecialized then p.kernelFn else some (kernelForFunc task.fn)
  kernelSpecialized :
    q.kernelSpecialized = (p.kernelSpecialized || kernelForFuncIsSpecialized task.fn)
  workBytes : q.workBytes = p.workBytes + devWorkSize task.workType
  collTasks : q.collTasks = p.collTasks ++ [task]
  p2pTasks : q.p2pTasks = p.p2pTasks
  ops : (∀ c, CollOps c p.collOpCount (p.channels c)) → ∀ c, CollOps c q.collOpCount (q.channels c)

theorem placeColl_places {p q : KernelPlan} (same : SameTasks p q) (task : CollTask) (lo n : Nat)
    (ops : (∀ c, CollOps c p.collOpCount (p.channels c)) →
      ∀ c, CollOps c (q.collOpCount + 1) (q.channels c)) :
    PlacesColl p task (placeColl task lo n q) :=
  ⟨by simp only [placeColl, same.kernelFn, same.kernelSpecialized],
    by simp only [placeColl, same.kernelSpecialized],
    by simp only [placeColl, same.workBytes], by simp only [placeColl, same.collTasks],
    by simp only [placeColl, same.p2pTasks], ops⟩

theorem addCollChannels_places (comm : Comm) (plan : KernelPlan) (task : CollTask)
    (opOf : Nat → ProxyOp) (lo n : Nat) :
    PlacesColl plan task (placeColl task lo n (addCollChannels comm task opOf plan lo n)) := by
  refine placeColl_places (addCollChannels_same comm task opOf plan lo n) task lo n ?_
  intro ops
  rw [(addCollChannels_same comm task opOf plan lo n).collOpCount]
  exact addCollChannels_ops lo n ops

variable {task : CollTask}

theorem scheduleColl_places {comm : Comm} {budget : Budget} {est : Estimate} {plan plan' : KernelPlan}
    {cur cur' : Cursor} (taken : scheduleColl comm budget est plan cur task = some (plan', cur')) :
    PlacesColl plan task plan' := by
  simp only [scheduleColl] at taken
  split at taken
  · split at taken
    · obtain ⟨rfl, _⟩ := taken
      exact addCollChannels_places comm plan task _ _ _
    · cases taken
  · split at taken
    · simp only [Option.some.injEq, Prod.mk.injEq] at taken
      obtain ⟨rfl, _⟩ := taken
      exact addCollChannels_places comm plan task _ _ _
    · cases taken

/-- A plan that holds collectives only: without a task it is blank, with one its kernel is
the kernel of a collective. -/
structure CollPlan (plan : KernelPlan) : Prop where
  p2pTasks : plan.p2pTasks = []
  blank : plan.collTasks = [] → plan.kernelSpecialized = false ∧ plan.workBytes = 0
  kernel : plan.collTasks ≠ [] → plan.callback = false ∧ plan.workBytes ≠ 0
  specialized : plan.kernelSpecialized = plan.collTasks.any fun t => kernelForFuncIsSpecialized t.fn
  ops : ∀ c, CollOps c plan.collOpCount (plan.channels c)

theorem CollPlan.empty : CollPlan .empty :=
  ⟨rfl, fun _ => ⟨rfl, rfl⟩, fun some' => absurd rfl some', rfl, CollOps.empty⟩

theorem coll_kernel (task : CollTask) :
    (some (kernelForFunc task.fn) == some (kernelForFunc .sendRecv)) = false := by
  have different : kernelForFunc task.fn ≠ kernelForFunc .sendRecv := by
    intro same
    exact task.isColl (kernelForFunc_eq_sendRecv.mp same)
  simpa using different

theorem CollPlan.places {p q : KernelPlan} (h : CollPlan p) (placed : PlacesColl p task q) : CollPlan q := by
  refine ⟨placed.p2pTasks.trans h.p2pTasks, ?_, ?_, ?_, placed.ops h.ops⟩
  · intro none'
    rw [placed.collTasks] at none'
    simp at none'
  · intro _
    refine ⟨?_, ?_⟩
    · unfold KernelPlan.callback
      rw [placed.kernelFn]
      split
      next hs =>
        by_cases none' : p.collTasks = []
        · rw [(h.blank none').1] at hs
          cases hs
        · exact (h.kernel none').1
      · exact coll_kernel task
    · have size := devWorkSize_pos task.workType
      rw [placed.workBytes]
      omega
  · rw [placed.kernelSpecialized, placed.collTasks, h.specialized]
    simp

theorem scheduleColls_induct {comm : Comm} {budget : Budget} {est : Estimate} {P : KernelPlan → List CollTask → Prop}
    (step : ∀ {plan cur task rest next}, P plan (task :: rest) →
      scheduleColl comm budget est plan cur task = some next → P next.1 rest)
    (n : Nat) (tasks : List CollTask) {plan : KernelPlan} (cur : Cursor) (h : P plan tasks) :
    P (scheduleColls comm budget est n tasks plan cur).1 (scheduleColls comm budget est n tasks plan cur).2 := by
  induction n generalizing tasks plan cur with
  | zero => cases tasks <;> exact h
  | succ n ih =>
    cases tasks with
    | nil => exact h
    | cons task rest =>
      simp only [scheduleColls]
      cases taken : scheduleColl comm budget est plan cur task with
      | none => exact h
      | some next => exact ih rest next.2 (step h taken)

theorem scheduleCollTasksToPlan_spec (comm : Comm) (budget : Budget) (tasks : List CollTask) :
    CollPlan (scheduleCollTasksToPlan comm budget tasks .empty).1 ∧
      tasks = (scheduleCollTasksToPlan comm budget tasks .empty).1.collTasks ++
        (scheduleCollTasksToPlan comm budget tasks .empty).2 := by
  apply scheduleColls_induct (P := fun plan rest => CollPlan plan ∧ tasks = plan.collTasks ++ rest)
  · intro plan cur task rest next h taken
    have placed := scheduleColl_places taken
    refine ⟨h.1.places placed, ?_⟩
    rw [placed.collTasks, List.append_assoc]
    exact h.2
  · exact ⟨CollPlan.empty, rfl⟩

theorem drainColls_spec (comm : Comm) (budget : Budget) (colls : List CollTask) :
    CollPlan (drainColls comm budget colls).1 ∧
      colls = (drainColls comm budget colls).1.collTasks ++ (drainColls comm budget colls).2 := by
  cases colls with
  | nil => exact ⟨CollPlan.empty, rfl⟩
  | cons task rest => exact scheduleCollTasksToPlan_spec comm budget (task :: rest)

structure PlacesP2p (p : KernelPlan) (tasks : List P2pTask) (q : KernelPlan) : Prop where
  kernelFn : q.kernelFn = p.kernelFn
  workBytes : q.workBytes = p.workBytes + devWorkSize .p2p
  collTasks : q.collTasks = p.collTasks
  p2pTasks : q.p2pTasks = p.p2pTasks ++ tasks
  ops : (∀ c, P2pOps c (p.channels c)) → ∀ c, P2pOps c (q.channels c)

def fitsPair (comm : Comm) (budget : Budget) (plan : KernelPlan) : Bool :=
  testBudget budget (plan.nWorkBatches + comm.p2pnChannelsPerPeer)
    (plan.workBytes + devWorkSize .p2p)

def inPlace (comm : Comm) (sendRank : Nat) : Option P2pTask → Option P2pTask → Prop
  | some send, some recv => sendRank = comm.rank ∧ send.buff = recv.buff
  | _, _ => False

def withP2p (comm : Comm) (plan : KernelPlan) (p2pRound sendRank recvRank : Nat) (send recv : Option P2pTask)
    (copies : List SelfCopy) : KernelPlan :=
  let added := addP2pToPlan comm { plan with selfCopies := copies } p2pRound sendRank recvRank send recv
  { added with p2pTasks := added.p2pTasks ++ send.toList ++ recv.toList }

theorem withP2p_places (comm : Comm) (plan : KernelPlan) (p2pRound sendRank recvRank : Nat)
    (send recv : Option P2pTask) (copies : List SelfCopy) :
    PlacesP2p plan (send.toList ++ recv.toList)
      (withP2p comm plan p2pRound sendRank recvRank send recv copies) := by
  have same := addP2pToPlan_same comm { plan with selfCopies := copies } p2pRound sendRank recvRank
    send recv
  refine ⟨same.kernelFn, same.workBytes, same.collTasks, ?_, fun ops => addP2pToPlan_ops ops⟩
  simp [withP2p, same.p2pTasks]

section Round

variable (comm : Comm) (budget : Budget) (plan : KernelPlan) (queues : P2pQueues) (p2pRound sendRank recvRank : Nat)

variable (send recv : Option P2pTask)

inductive PairStep : RoundResult → Prop where
  | idle (noSend : send = none) (noRecv : recv = none) : PairStep (.next plan queues)
  | skip (copy : inPlace comm sendRank send recv) : PairStep (.next plan (queues.dequeue sendRank recvRank))
  | add (copies : List SelfCopy) (some' : send ≠ none ∨ recv ≠ none) (real : ¬ inPlace comm sendRank send recv)
      (fits : fitsPair comm budget plan = true) :
      PairStep (.next (withP2p comm plan p2pRound sendRank recvRank send recv copies)
        (queues.dequeue sendRank recvRank))
  | full (some' : send ≠ none ∨ recv ≠ none) (real : ¬ inPlace comm sendRank send recv)
      (tight : fitsPair comm budget plan = false) : PairStep (.planFull plan queues)
  | invalid (self : sendRank = comm.rank) (unpaired : send.isSome ≠ recv.isSome) : PairStep .invalidUsage

theorem schedulePair_step {send recv : Option P2pTask} (some' : send ≠ none ∨ recv ≠ none) :
    PairStep comm budget plan queues p2pRound sendRank recvRank send recv
      (schedulePair comm budget plan queues p2pRound sendRank recvRank send recv) := by
  unfold schedulePair
  by_cases self : sendRank = comm.rank
  · rw [if_pos self]
    cases send with
    | none =>
      cases recv with
      | none => simp at some'
      | some recv => exact .invalid self nofun
    | some send =>
      cases recv with
      | none => exact .invalid self nofun
      | some recv =>
        simp only
        split
        next same => exact .skip ⟨self, same⟩
        next hd =>
          have real : ¬ inPlace comm sendRank (some send) (some recv) := fun both => hd both.2
          split
          next fits => exact .add _ some' real fits
          next ht => exact .full some' real (by simpa [fitsPair] using ht)
  · rw [if_neg self]
    have real : ¬ inPlace comm sendRank send recv := by
      cases send <;> cases recv <;> simp [inPlace, self]
    split
    next fits => exact .add plan.selfCopies some' real fits
    next ht => exact .full some' real (by simpa [fitsPair] using ht)

abbrev RoundStep : RoundResult → Prop :=
  PairStep comm budget plan queues p2pRound sendRank recvRank (queues.send sendRank).head? (queues.recv recvRank).head?

theorem scheduleRound_step : RoundStep comm budget plan queues p2pRound sendRank recvRank
    (scheduleRound comm budget plan queues p2pRound sendRank recvRank) := by
  unfold scheduleRound RoundStep
  split
  next hs hr => exact .idle hs hr
  next some' => exact schedulePair_step comm budget plan queues p2pRound sendRank recvRank (by grind)

end Round

end Vccl.Plan
