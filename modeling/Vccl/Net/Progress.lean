import Vccl.Lib.Transition

/-! `sendProxyProgress` and `recvProxyProgress` in runs without errors. What the GPU and the
network answer is an argument of every pass; no relation between two passes is assumed. -/
namespace Vccl.Net

def ncclSteps : Nat := 8
def ncclSharedSteps : Nat := 16

def maxDepth (nsubs : Nat) : Nat := min ncclSteps (ncclSharedSteps / nsubs)

/-- The fixed part of `ncclProxyArgs`. Only ops of shared P2P connections, with one step per
slice, are merged into several subs, so the depth is a whole number of slices. -/
structure Config where
  sliceSteps : Nat
  nsubs : Nat
  positive : 0 < sliceSteps
  aligned : sliceSteps ∣ maxDepth nsubs

def Config.depth (cfg : Config) : Nat := maxDepth cfg.nsubs

def Config.sharedSlot (cfg : Config) (s step : Nat) : Nat := step % cfg.depth * cfg.nsubs + s

inductive OpState where
  | progress
  | none
  deriving DecidableEq

structure SendSub where
  nsteps : Nat
  base : Nat
  posted : Nat
  transmitted : Nat
  done : Nat
  deriving DecidableEq

structure SendArgs where
  subs : List SendSub
  done : Nat
  state : OpState
  deriving DecidableEq

/-- `filled`: the GPU has written the step (size, tail and flags); `sent`: `isend` returned a
request; `tested`: the oldest request is complete. -/
structure SendAnswer where
  filled : Bool
  sent : Bool
  tested : Bool

def sendSub (cfg : Config) (answer : SendAnswer) (sub : SendSub) : SendSub × Nat :=
  if sub.done = sub.nsteps then (sub, 0)
  else if sub.posted < sub.nsteps ∧ sub.posted < sub.done + cfg.depth then
    ({ sub with posted := sub.posted + cfg.sliceSteps }, 0)
  else if sub.transmitted < sub.posted ∧ sub.transmitted < sub.done + ncclSteps ∧
      answer.filled ∧ answer.sent then
    ({ sub with transmitted := sub.transmitted + cfg.sliceSteps }, 0)
  else if sub.done < sub.transmitted ∧ answer.tested then
    ({ sub with done := sub.done + cfg.sliceSteps },
      if sub.done + cfg.sliceSteps = sub.nsteps then 1 else 0)
  else (sub, 0)

def sendSubs (cfg : Config) (answers : Nat → SendAnswer) : Nat → List SendSub → List SendSub × Nat
  | _, [] => ([], 0)
  | s, sub :: rest =>
    let first := sendSub cfg (answers s) sub
    let others := sendSubs cfg answers (s + 1) rest
    (first.1 :: others.1, first.2 + others.2)

def sendProxyProgress (cfg : Config) (args : SendArgs) (answers : Nat → SendAnswer) : SendArgs :=
  match args.state with
  | .none => args
  | .progress =>
    let pass := sendSubs cfg answers 0 args.subs
    let done := args.done + pass.2
    { subs := pass.1, done, state := if done = cfg.nsubs then .none else .progress }

structure RecvSub where
  nsteps : Nat
  base : Nat
  posted : Nat
  received : Nat
  transmitted : Nat
  done : Nat
  deriving DecidableEq

/-- Consecutive subs on one `netRecvComm`; the first one holds the requests. -/
abbrev Group := List RecvSub

structure RecvArgs where
  groups : List Group
  done : Nat
  state : OpState
  deriving DecidableEq

/-- `bufferReady`: a registered buffer may be accessed (always so for an unregistered one);
`posted`: `irecv` returned a request; `tested`, `flushed`: the request of the step is complete;
`head`: the value read from the GPU. By group and by sub of the group. -/
structure RecvAnswers where
  bufferReady : Nat → Nat → Bool
  posted : Nat → Bool
  tested : Nat → Bool
  flushed : Nat → Bool
  head : Nat → Nat → Nat

def countPosts (cfg : Config) (ready : Nat → Bool) : Nat → Group → Nat → Nat
  | _, [], subCount => subCount
  | i, sub :: rest, subCount =>
    if sub.posted < sub.nsteps then
      if sub.done + cfg.depth ≤ sub.posted then 0
      else if ready i then countPosts cfg ready (i + 1) rest (subCount + 1)
      else countPosts cfg ready (i + 1) rest subCount
    else countPosts cfg ready (i + 1) rest subCount

def postGroup (cfg : Config) (answers : RecvAnswers) (s : Nat) (g : Group) : Option Group :=
  if countPosts cfg (answers.bufferReady s) 0 g 0 ≠ 0 ∧ answers.posted s then
    some (g.map fun sub => { sub with posted := sub.posted + cfg.sliceSteps })
  else none

def testGroup (cfg : Config) (answers : RecvAnswers) (s : Nat) : Group → Option Group
  | [] => none
  | first :: rest =>
    if first.received < first.posted ∧ answers.tested s then
      some ((first :: rest).map fun sub => { sub with received := sub.received + cfg.sliceSteps })
    else none

def flushGroup (cfg : Config) (answers : RecvAnswers) (s : Nat) : Group → Option Group
  | [] => none
  | first :: rest =>
    if first.transmitted < first.received ∧ answers.flushed s then
      some ((first :: rest).map fun sub =>
        { sub with transmitted := sub.transmitted + cfg.sliceSteps })
    else none

def phase (act : Nat → Group → Option Group) : Nat → List Group → List Group × Bool
  | _, [] => ([], false)
  | s, g :: rest =>
    let others := phase act (s + 1) rest
    match act s g with
    | some g' => (g' :: others.1, true)
    | none => (g :: others.1, others.2)

/-- The loop that follows the head of the GPU; it is left within `transmitted - done` turns. -/
def advanceDone (cfg : Config) (head : Nat) : Nat → RecvSub → RecvSub × Nat
  | 0, sub => (sub, 0)
  | fuel + 1, sub =>
    if sub.base + sub.done < head ∧ sub.done < sub.transmitted then
      let sub' := { sub with done := sub.done + cfg.sliceSteps }
      if sub'.done = sub'.nsteps then (sub', 1) else advanceDone cfg head fuel sub'
    else (sub, 0)

def doneSub (cfg : Config) (head : Nat) (sub : RecvSub) : RecvSub × Nat :=
  if sub.done = sub.nsteps then (sub, 0)
  else advanceDone cfg head (sub.transmitted - sub.done) sub

def doneGroup (cfg : Config) (head : Nat → Nat) : Nat → Group → Group × Nat
  | _, [] => ([], 0)
  | i, sub :: rest =>
    let first := doneSub cfg (head i) sub
    let others := doneGroup cfg head (i + 1) rest
    (first.1 :: others.1, first.2 + others.2)

def doneGroups (cfg : Config) (head : Nat → Nat → Nat) : Nat → List Group → List Group × Nat
  | _, [] => ([], 0)
  | s, g :: rest =>
    let first := doneGroup cfg (head s) 0 g
    let others := doneGroups cfg head (s + 1) rest
    (first.1 :: others.1, first.2 + others.2)

def recvProxyProgress (cfg : Config) (args : RecvArgs) (answers : RecvAnswers) : RecvArgs :=
  match args.state with
  | .none => args
  | .progress =>
    -- a phase that made progress ends the pass
    let posted := phase (postGroup cfg answers) 0 args.groups
    if posted.2 then { args with groups := posted.1 } else
    let tested := phase (testGroup cfg answers) 0 posted.1
    if tested.2 then { args with groups := tested.1 } else
    let flushed := phase (flushGroup cfg answers) 0 tested.1
    if flushed.2 then { args with groups := flushed.1 } else
    let finished := doneGroups cfg answers.head 0 flushed.1
    let done := args.done + finished.2
    { groups := finished.1, done, state := if done = cfg.nsubs then .none else .progress }

/-- The step count and the base of every sub of a send op. No op has zero steps. -/
structure SendOp (cfg : Config) where
  subs : List (Nat × Nat)
  count : subs.length = cfg.nsubs
  steps : ∀ sub ∈ subs, 0 < sub.1

structure RecvOp (cfg : Config) where
  groups : List (List (Nat × Nat))
  count : groups.flatten.length = cfg.nsubs
  steps : ∀ sub ∈ groups.flatten, 0 < sub.1

def SendOp.start {cfg : Config} (op : SendOp cfg) : SendArgs where
  subs := op.subs.map fun p => ⟨p.1, p.2, 0, 0, 0⟩
  done := 0
  state := .progress

def RecvOp.start {cfg : Config} (op : RecvOp cfg) : RecvArgs where
  groups := op.groups.map fun g => g.map fun p => ⟨p.1, p.2, 0, 0, 0, 0⟩
  done := 0
  state := .progress

def sendStep (cfg : Config) (args : SendArgs) (answers : Nat → SendAnswer) : Option SendArgs :=
  some (sendProxyProgress cfg args answers)

def recvStep (cfg : Config) (args : RecvArgs) (answers : RecvAnswers) : Option RecvArgs :=
  some (recvProxyProgress cfg args answers)

end Vccl.Net
