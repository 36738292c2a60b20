import Vccl.Lib.Transition
import Vccl.Plan.Lines
import Vccl.Proxy.Wiring

/-! How the ops of plans reach the args of the progress threads: `uploadProxyOps`,
`ncclLocalOpAppend`, `ncclProxyStart` on the side of the ranks and `ncclProxyGetPostedOps` on the side
of the threads, in any interleaving. The lists of free ops of a pool are left out: a rank that finds
none waits. -/
namespace Vccl.Proxy

open Plan (KernelPlan)

def maxOpsPerPeer : Nat := 2 * Plan.maxChannels * 2 * Plan.maxDevWorkP2pPerBatch

def maxSubs : Nat := Plan.maxChannels

structure Site (nLocal : Nat) where
  comm : Plan.Comm
  wiring : Wiring comm.toComm
  regular : comm.Regular
  peered : comm.toComm.Peered
  inNode : ∀ ptr, wiring.proxyRank ptr < nLocal

structure Counters where
  collOpCount : Nat
  p2pOpCount : Nat → Nat

/-- Opcounts are zero-based within the plan; they are moved to the tip of the history. -/
def Counters.translate (counters : Counters) (op : ProxyOp) : ProxyOp :=
  { op with
    opCount := op.opCount + 2 *
      if op.opCount % 2 = 1 then counters.p2pOpCount op.channelId else counters.collOpCount }

/-- `p2pOpBump[c]`, set by the last p2p of the channel. -/
def p2pOpBump (queue : List ProxyOp) (c : Nat) : Nat :=
  queue.foldl (fun bump op =>
    if op.opCount % 2 = 1 ∧ op.channelId = c then op.opCount / 2 + 1 else bump) 0

def uploadEntries {nLocal : Nat} (site : Site nLocal) (counters : Counters) (plan : KernelPlan) :
    List Entry :=
  plan.proxyOpQueue.flatMap fun op => site.wiring.saveOp (counters.translate op)

/-- The host side of a rank. While it is `busy` with a plan, `pending` is what is not appended yet;
`chains` are the chains of `proxyOps`, one for each thread, and `count` is the length of a chain.
`uploaded` is the history. -/
structure Producer where
  counters : Counters
  bump : Nat → Nat
  busy : Bool
  failed : Bool
  pending : List Entry
  chains : Nat → List Entry
  uploaded : List Entry

def Producer.initial : Producer := ⟨⟨0, fun _ => 0⟩, fun _ => 0, false, false, [], fun _ => [], []⟩

def lastChange (lastOpCount : Nat) : List Entry → Nat → Nat → Nat
  | [], _, toSend => toSend
  | e :: rest, ops, toSend =>
    lastChange lastOpCount rest (ops + 1) (if e.op.opCount ≠ lastOpCount then ops + 1 else toSend)

/-- What is posted and what stays in the chain; `false` for "Unable to post incomplete proxy op
chain". -/
def localOpAppend (chain : List Entry) (e : Entry) : List Entry × List Entry × Bool :=
  if chain.length + 1 = maxOpsPerPeer then
    -- Ops of the last opCount are not posted, as more of them could come.
    let toSend := lastChange e.op.opCount chain 0 0
    if toSend = 0 then ([], chain ++ [e], false)
    else ((chain ++ [e]).take toSend, (chain ++ [e]).drop toSend, true)
  else ([], chain ++ [e], true)

inductive ArgsState where
  | ready
  | progress
  deriving DecidableEq

/-- `ncclProxyArgs`, with those of the fields compared by `ncclProxyOpToArgs` that ops have here. -/
structure Args where
  opCount : Nat
  sliceSteps : Nat
  protocol : Protocol
  forRecv : Bool
  state : ArgsState
  subs : List Entry
  deriving DecidableEq

inductive AppendError where
  | outOfBounds
  | mismatch
  | running
  deriving DecidableEq

def newArgs (e : Entry) : Args where
  opCount := e.op.opCount
  sliceSteps := e.op.sliceSteps
  protocol := e.op.protocol
  forRecv := e.op.forRecv
  state := .ready
  subs := [e]

/-- `ncclProxyOpToArgs` with args that have subs. On a mismatch the op is among them already. -/
def Args.join (args : Args) (e : Entry) : Args × Option AppendError :=
  if maxSubs ≤ args.subs.length then (args, some .outOfBounds)
  else
    ({ args with subs := args.subs ++ [e] },
      if args.sliceSteps ≠ e.op.sliceSteps ∨ args.protocol ≠ e.op.protocol ∨
          args.forRecv ≠ e.op.forRecv then some .mismatch
      else if args.state ≠ .ready then some .running
      else none)

/-- A progress thread with its pool. Ops stand with the rank that posted them. The args of an append
pointer are those linked by `nextPeer`: the first is active, the last is the one pointed to.
`removed` and `errors` are history. -/
structure Thread where
  pool : List (Nat × Entry)
  nextOps : List (Nat × Entry)
  queues : Nat → AppendPtr → List Args
  removed : Nat → AppendPtr → List Args
  errors : List AppendError

def Thread.initial : Thread := ⟨[], [], fun _ _ => [], fun _ _ => [], []⟩

def Thread.setQueue (t : Thread) (q : Nat) (ptr : AppendPtr) (queue : List Args) : Thread :=
  { t with queues := fun q' ptr' => if q' = q ∧ ptr' = ptr then queue else t.queues q' ptr' }

def appendTo (queue : List Args) (e : Entry) : List Args × Option AppendError :=
  match queue.getLast? with
  | none => ([newArgs e], none)
  | some args =>
    if e.shared = true ∧ args.opCount = e.op.opCount then
      (queue.dropLast ++ [(args.join e).1], (args.join e).2)
    else (queue ++ [newArgs e], none)

def proxyAppend (t : Thread) (q : Nat) (e : Entry) : Thread × Option AppendError :=
  let appended := appendTo (t.queues q e.ptr) e
  (t.setQueue q e.ptr appended.1, appended.2)

/-- The loop over the ops at hand. An op that fails is met again by the next call. -/
def appendLoop (batchSize : Int) :
    List (Nat × Entry) → (lastOpCount : Nat) → (lastPeer : Option Nat) → (count : Nat) → Thread → Thread
  | [], _, _, _, t => { t with nextOps := [] }
  | (q, e) :: rest, lastOpCount, lastPeer, count, t =>
    let count := if (lastOpCount ≠ 0 ∧ e.op.opCount ≠ lastOpCount) ∨
        (lastPeer ≠ none ∧ lastPeer ≠ some q) then count + 1 else count
    if (count : Int) = batchSize + 1 then { t with nextOps := (q, e) :: rest }
    else
      match proxyAppend t q e with
      | (t', some error) => { t' with nextOps := (q, e) :: rest, errors := t'.errors ++ [error] }
      | (t', none) => appendLoop batchSize rest e.op.opCount (some q) count t'

/-- `ncclProxyGetPostedOps`, with `batchSize` for `NCCL_PROXY_APPEND_BATCH_SIZE`. -/
def getPostedOps (batchSize : Int) (t : Thread) : Thread :=
  if t.nextOps = [] then appendLoop batchSize t.pool 0 none 0 { t with pool := [] }
  else appendLoop batchSize t.nextOps 0 none 0 t

structure Node where
  producers : Nat → Producer
  threads : Nat → Thread

def Node.initial : Node := ⟨fun _ => .initial, fun _ => .initial⟩

def Node.setProducer (s : Node) (q : Nat) (producer : Producer) : Node :=
  { s with producers := fun q' => if q' = q then producer else s.producers q' }

def Node.setThread (s : Node) (p : Nat) (thread : Thread) : Node :=
  { s with threads := fun p' => if p' = p then thread else s.threads p' }

def Node.post (s : Node) (q p : Nat) (ops : List Entry) : Node :=
  s.setThread p { s.threads p with pool := (s.threads p).pool ++ ops.map (q, ·) }

/-- Ranks are `q`, threads are `p`. A progress function takes args out of the ready state; they are
removed when they are done or fail. -/
inductive Action where
  | upload (q : Nat) (plan : KernelPlan)
  | append (q : Nat)
  | post (q p : Nat)
  | finish (q : Nat)
  | getPosted (p : Nat)
  | progress (p q : Nat) (ptr : AppendPtr)
  | remove (p q : Nat) (ptr : AppendPtr)

section

variable {nLocal : Nat} (site : Nat → Site nLocal) (batchSize : Int)

def Node.upload (s : Node) (q : Nat) (plan : KernelPlan) : Node :=
  let producer := s.producers q
  let entries := uploadEntries (site q) producer.counters plan
  s.setProducer q
    { producer with
      counters := { producer.counters with
        collOpCount := producer.counters.collOpCount + plan.collOpCount }
      bump := p2pOpBump plan.proxyOpQueue
      busy := true
      pending := entries
      uploaded := producer.uploaded ++ entries }

def Node.append (s : Node) (q : Nat) (e : Entry) (rest : List Entry) : Node :=
  let producer := s.producers q
  let p := e.proxyRank
  let appended := localOpAppend (producer.chains p) e
  let chains := fun p' => if p' = p then appended.2.1 else producer.chains p'
  -- `uploadProxyOps` returns at an error: the rest is not appended and no count moves on.
  (s.setProducer q
    { producer with
      pending := rest
      chains
      busy := appended.2.2
      failed := producer.failed || !appended.2.2 }).post q p appended.1

def step (s : Node) : Action → Option Node
  | .upload q plan => if (s.producers q).busy then none else some (s.upload site q plan)
  | .append q =>
    match (s.producers q).busy, (s.producers q).pending with
    | true, e :: rest => some (s.append q e rest)
    | _, _ => none
  | .post q p =>
    let producer := s.producers q
    if producer.busy = true ∧ producer.pending = [] then
      some ((s.setProducer q
        { producer with chains := fun p' => if p' = p then [] else producer.chains p' }).post q p
          (producer.chains p))
    else none
  | .finish q =>
    let producer := s.producers q
    if producer.busy = true ∧ producer.pending = [] ∧ ∀ p < nLocal, producer.chains p = [] then
      some (s.setProducer q
        { producer with
          busy := false
          counters := { producer.counters with
            p2pOpCount := fun c => producer.counters.p2pOpCount c + producer.bump c } })
    else none
  | .getPosted p => some (s.setThread p (getPostedOps batchSize (s.threads p)))
  | .progress p q ptr =>
    match (s.threads p).queues q ptr with
    | [] => none
    | args :: rest =>
      if args.state = .ready then
        some (s.setThread p ((s.threads p).setQueue q ptr ({ args with state := .progress } :: rest)))
      else none
  | .remove p q ptr =>
    match (s.threads p).queues q ptr with
    | [] => none
    | args :: rest =>
      some (s.setThread p
        { (s.threads p).setQueue q ptr rest with
          removed := fun q' ptr' => if q' = q ∧ ptr' = ptr then (s.threads p).removed q ptr ++ [args]
            else (s.threads p).removed q' ptr' })

end

end Vccl.Proxy
