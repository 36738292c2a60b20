import Vccl.Bitops
import Vccl.Proxy.Op

/-! The progress functions of the PASS_SM transports, and which of them subtract from the
`proxyOpCount` of the plan. What CUDA, the network and the peer answer is an argument of each
call. Counters are natural numbers; a step count is compared with them as 64 bits. -/
namespace Vccl.Psm

open Proxy (AppendPtr)

inductive OpState where
  | ready
  | progress
  | none
  deriving DecidableEq

/-- Which progress function and which of its branches handles the args. The staged copies of
both sides of `psm_p2p` follow one scheme. -/
inductive Kind where
  | staged
  | zeroCopySend
  | zeroCopyRecv
  | netSend
  | netRecv
  | other
  deriving DecidableEq

def Kind.isPsm : Kind → Bool
  | .other => false
  | _ => true

structure Sub where
  nbytes : Nat
  reg : Bool
  nsteps : Nat
  posted : Nat
  received : Nat
  transmitted : Nat
  done : Nat
  deriving DecidableEq

/-- `supported`: the ops of the args agree, and use the Simple protocol if the progress function
asks for it. Otherwise an append or the first pass ends with an error. -/
structure Args where
  kind : Kind
  ptr : AppendPtr
  supported : Bool
  sliceSteps : Nat
  groups : List (List Sub)
  state : OpState
  done : Nat
  deriving DecidableEq

def Args.nsubs (args : Args) : Nat := args.groups.flatten.length

/-- `regroup` is the initialisation loop of the receive side, which orders the subs by
connection. -/
structure Env where
  psmBufferSize : Nat
  psmP2pNetChunkSize : Nat
  regroup : List Sub → List (List Sub)
  regroup_perm : ∀ subs, (regroup subs).flatten.Perm subs

structure Answers where
  receiverReady : Bool
  credit : Nat → Bool
  copied : Nat → Nat → Bool
  sent : Nat → Bool
  tested : Nat → Bool
  posted : Nat → Bool
  flushed : Nat → Bool
  finished : Bool

def psmSteps : Nat := 1
def psmNetSteps : Nat := 8
def psmNetSharedSteps : Nat := 16

def maxDepth (nsubs : Nat) : Nat := min psmNetSteps (psmNetSharedSteps / nsubs)

def adjustFactor (nbytes : Nat) : Nat :=
  let msize := nbytes / 2 ^ 20
  if 32 ≤ msize then 1
  else if 16 ≤ msize then 2
  else if 8 ≤ msize then 4
  else if 4 ≤ msize then 8
  else if 2 ≤ msize then 16
  else if 1 ≤ msize then 32
  else 64

def computeChunksize (env : Env) (nbytes : Nat) : Nat :=
  (if env.psmBufferSize ≤ nbytes then env.psmBufferSize
    else env.psmBufferSize / adjustFactor nbytes) / psmSteps

/-- The `int` step count as it compares with the counters. -/
def storedSteps (n : Nat) : Nat := toSizeT (toInt32 n)

def initSteps (env : Env) (kind : Kind) (sub : Sub) : Nat :=
  match kind with
  | .staged => storedSteps (divUp sub.nbytes (computeChunksize env sub.nbytes))
  | .zeroCopySend | .zeroCopyRecv => 1
  | .netSend | .netRecv =>
    if sub.reg then sub.nsteps else storedSteps (divUp sub.nbytes env.psmP2pNetChunkSize)
  | .other => sub.nsteps

def initSub (env : Env) (kind : Kind) (sub : Sub) : Sub :=
  { sub with nsteps := initSteps env kind sub, posted := 0, received := 0, transmitted := 0, done := 0 }

def subLoop (turn : Nat → Sub → Sub × Nat) : Nat → List Sub → List Sub × Nat
  | _, [] => ([], 0)
  | s, sub :: rest =>
    let first := turn s sub
    let others := subLoop turn (s + 1) rest
    (first.1 :: others.1, first.2 + others.2)

def startCopy (sliceSteps : Nat) (answers : Answers) (s : Nat) (sub : Sub) : Sub :=
  if sub.transmitted < sub.done + psmSteps ∧ sub.transmitted < sub.nsteps ∧ answers.credit s then
    { sub with transmitted := sub.transmitted + sliceSteps }
  else sub

def queryCopy (sliceSteps : Nat) (answers : Answers) (s : Nat) (sub : Sub) : Sub × Nat :=
  if sub.done < sub.transmitted then
    let sub := if answers.copied 0 s then { sub with done := sub.done + sliceSteps } else sub
    (sub, if sub.done = sub.nsteps then 1 else 0)
  else (sub, 0)

def stagedTurn (sliceSteps : Nat) (answers : Answers) (s : Nat) (sub : Sub) : Sub × Nat :=
  queryCopy sliceSteps answers s (startCopy sliceSteps answers s sub)

def zeroCopyTurn (answers : Answers) (s : Nat) (sub : Sub) : Sub × Nat :=
  if answers.copied 0 s ∧ sub.done = 0 then ({ sub with done := 1 }, 1) else (sub, 0)

def netSendTurn (sliceSteps depth : Nat) (answers : Answers) (s : Nat) (sub : Sub) : Sub × Nat :=
  if sub.done = sub.nsteps then (sub, 0)
  else if sub.posted < sub.nsteps ∧ sub.posted < sub.done + depth then
    ({ sub with posted := sub.posted + sliceSteps }, 0)
  else if sub.transmitted < sub.posted ∧ sub.transmitted < sub.done + psmNetSteps ∧
      (sub.reg ∨ answers.copied 0 s) ∧ answers.sent s then
    ({ sub with transmitted := sub.transmitted + sliceSteps }, 0)
  else if sub.done < sub.transmitted ∧ answers.tested s then
    ({ sub with done := sub.done + sliceSteps },
      if sub.done + sliceSteps = sub.nsteps then 1 else 0)
  else (sub, 0)

def countPosts (depth : Nat) : List Sub → Nat → Nat
  | [], subCount => subCount
  | sub :: rest, subCount =>
    if sub.posted < sub.nsteps then
      if sub.done + depth ≤ sub.posted then 0 else countPosts depth rest (subCount + 1)
    else countPosts depth rest subCount

def postGroup (sliceSteps depth : Nat) (answers : Answers) (s : Nat) (g : List Sub) :
    Option (List Sub) :=
  if countPosts depth g 0 ≠ 0 ∧ answers.posted s then
    some (g.map fun sub => { sub with posted := sub.posted + sliceSteps })
  else none

def testGroup (sliceSteps : Nat) (answers : Answers) (s : Nat) : List Sub → Option (List Sub)
  | [] => none
  | first :: rest =>
    if first.received < first.posted ∧ answers.tested s then
      some ((first :: rest).map fun sub => { sub with received := sub.received + sliceSteps })
    else none

def flushGroup (sliceSteps : Nat) (answers : Answers) (s : Nat) : List Sub → Option (List Sub)
  | [] => none
  | first :: rest =>
    if first.transmitted < first.received ∧ answers.flushed s then
      some ((first :: rest).map fun sub => { sub with transmitted := sub.transmitted + sliceSteps })
    else none

def phase (act : Nat → List Sub → Option (List Sub)) :
    Nat → List (List Sub) → List (List Sub) × Bool
  | _, [] => ([], false)
  | s, g :: rest =>
    let others := phase act (s + 1) rest
    match act s g with
    | some g' => (g' :: others.1, true)
    | none => (g :: others.1, others.2)

/-- One step per sub; the loop over the group is left when a sub finishes. -/
def doneGroup (sliceSteps : Nat) (copied : Nat → Bool) : Nat → List Sub → List Sub × Nat
  | _, [] => ([], 0)
  | i, sub :: rest =>
    if sub.done = sub.nsteps ∨ sub.transmitted ≤ sub.done ∨ ¬ (sub.reg ∨ copied i) then
      let others := doneGroup sliceSteps copied (i + 1) rest
      (sub :: others.1, others.2)
    else
      let sub := { sub with done := sub.done + sliceSteps }
      if sub.done = sub.nsteps then (sub :: rest, 1)
      else
        let others := doneGroup sliceSteps copied (i + 1) rest
        (sub :: others.1, others.2)

def doneGroups (sliceSteps : Nat) (copied : Nat → Nat → Bool) :
    Nat → List (List Sub) → List (List Sub) × Nat
  | _, [] => ([], 0)
  | s, g :: rest =>
    let first := doneGroup sliceSteps (copied s) 0 g
    let others := doneGroups sliceSteps copied (s + 1) rest
    (first.1 :: others.1, first.2 + others.2)

def netRecvPass (sliceSteps depth : Nat) (answers : Answers) (groups : List (List Sub)) :
    List (List Sub) × Nat :=
  let posted := phase (postGroup sliceSteps depth answers) 0 groups
  if posted.2 then (posted.1, 0) else
  let tested := phase (testGroup sliceSteps answers) 0 posted.1
  if tested.2 then (tested.1, 0) else
  let flushed := phase (flushGroup sliceSteps answers) 0 tested.1
  if flushed.2 then (flushed.1, 0) else
  doneGroups sliceSteps answers.copied 0 flushed.1

def passSubs (args : Args) (answers : Answers) : List (List Sub) × Nat :=
  let flat (turn : Nat → Sub → Sub × Nat) :=
    let pass := subLoop turn 0 args.groups.flatten
    ([pass.1], pass.2)
  let depth := maxDepth args.nsubs
  if args.supported then
    match args.kind with
    | .staged => flat (stagedTurn args.sliceSteps answers)
    | .zeroCopySend | .zeroCopyRecv => flat (zeroCopyTurn answers)
    | .netSend => flat (netSendTurn args.sliceSteps depth answers)
    | .netRecv => netRecvPass args.sliceSteps depth answers args.groups
    | .other => (args.groups, if answers.finished then args.nsubs - args.done else 0)
  else (args.groups, 0)

/-- A pass, and the end of the op: what is subtracted from `proxyOpCount` on behalf of args. -/
def pass (args : Args) (answers : Answers) : Args × Nat :=
  let subs := passSubs args answers
  let args' := { args with groups := subs.1, done := args.done + subs.2 }
  if args'.done = args'.nsubs then
    ({ args' with state := .none }, if args.kind.isPsm then args'.nsubs else 0)
  else (args', 0)

def start (env : Env) (args : Args) : Args :=
  let subs := args.groups.flatten.map (initSub env args.kind)
  { args with
    groups := if args.kind = .netRecv then env.regroup subs else [subs]
    state := .progress
    done := 0 }

/-- One call of the progress function, once the callback has set `proxyReadyEvent`. The
zero-copy branches return after they left the ready state; the sender leaves it when its
receivers are ready. -/
def proxyProgress (env : Env) (args : Args) (answers : Answers) : Args × Nat :=
  match args.state with
  | .none => (args, 0)
  | .progress => pass args answers
  | .ready =>
    match args.kind with
    | .zeroCopySend => (if answers.receiverReady then start env args else args, 0)
    | .zeroCopyRecv => (start env args, 0)
    | _ => pass (start env args) answers

end Vccl.Psm
