import Mathlib

/-!
# Promises and the microtask queue

The promise core of `promise.cpp` and the queue of `microtask.cpp`, as a machine whose steps are
chosen by the program. User code runs inside a `then` getter, a handler, a capability's function,
a thenable's `then`, a cleanup callback and the embedder's rejection hook; each is a frame of the
control stack, and while such a frame is on top the program may do whatever a program can do with
promises before it returns or throws.

The queue is that of one stack. Rooting, allocation and the text of a report are left out.
-/

namespace Bronze.Promise

/-- What a promise can be resolved with, or a reaction made of. -/
inductive Value
  | undefined
  | primitive (n : Nat)
  | object (o : Nat)
  | promise (p : Nat)
  | function (f : Nat)
  /-- `rtMakeResolvingFunction`: the pair whose latch is the promise's own. -/
  | resolvingFunction (p : Nat) (isReject : Bool)
  /-- One half of a thenable job's pair. -/
  | pairFunction (q : Nat) (isReject : Bool)
  /-- The wrapper that runs a function in the embedder's context. -/
  | contextCall (context : Nat) (fn : Value)
  /-- A capability record; the two functions are `undefined` for `%Promise%`. -/
  | capability (promise resolve reject : Value)
  | typeError (message : String)
  deriving DecidableEq, Repr

namespace Value

def isObject : Value → Bool
  | undefined => false
  | primitive _ => false
  | _ => true

def isCallable : Value → Bool
  | function _ => true
  | resolvingFunction _ _ => true
  | pairFunction _ _ => true
  | contextCall _ _ => true
  | _ => false

end Value

/-! ## The heap and the queue -/

inductive PromiseState
  | pending
  | fulfilled
  | rejected
  deriving DecidableEq, Repr

def PromiseState.settled (reject : Bool) : PromiseState :=
  if reject then .rejected else .fulfilled

/-- The slots of a promise. A reaction list is `undefined` until the first subscription and
flattened from then on: handler, capability, handler, capability. -/
structure PromiseRecord where
  state : PromiseState
  result : Value
  fulfillReactions : Option (List Value)
  rejectReactions : Option (List Value)
  isHandled : Bool
  alreadyResolved : Bool
  reported : Bool
  deriving DecidableEq, Repr

/-- A promise as `rtNewPromiseWithShape` leaves it. -/
def PromiseRecord.fresh : PromiseRecord where
  state := .pending
  result := .undefined
  fulfillReactions := none
  rejectReactions := none
  isHandled := false
  alreadyResolved := false
  reported := false

/-- The environment of a thenable job's pair (`PairSlot`). -/
structure PairEnv where
  promise : Nat
  latch : Bool
  deriving DecidableEq, Repr

inductive Job
  | reactionFulfill (handler capability argument : Value)
  | reactionReject (handler capability argument : Value)
  | thenable (promise : Nat) (thenable thenFn : Value)
  deriving DecidableEq, Repr

/-- A call the runtime is waiting on, or a loop of its own. -/
inductive Frame
  /-- `runResolutionSteps` reads `then` of the value. -/
  | getThen (promise : Nat) (value : Value)
  /-- `rtRunReactionJob` calls the handler. -/
  | handler (handler argument capability : Value)
  /-- `rtSettleCapability` calls the captured function. -/
  | capability (fn value : Value)
  /-- `rtRunThenableJob` calls `then` with the functions of the pair. -/
  | thenable (pair : Nat) (thenable thenFn : Value)
  /-- A FinalizationRegistry callback. -/
  | cleanupCallback
  /-- The rejection hook, told that a promise was handled after all. -/
  | handledHook (promise : Nat)
  /-- The rejection hook, told of a rejection nothing handled. -/
  | reportHook (promise : Nat)
  /-- The loop of `rtDrainMicrotasks`. -/
  | drain
  /-- The loop of `rtRunFinalizationCleanupJob`. -/
  | cleanups (remaining : Nat)
  /-- The loop of `reportParkedRejections`. -/
  | report (remaining : Nat)
  deriving DecidableEq, Repr

/-- User code is running on top of the frame. -/
def Frame.runsUserCode : Frame → Bool
  | drain => false
  | cleanups _ => false
  | report _ => false
  | _ => true

/-- A subscription: what `rtPerformPromiseThen` made of its arguments. -/
structure Reaction where
  onFulfilled : Value
  onRejected : Value
  capability : Value
  deriving DecidableEq, Repr

def Reaction.job (r : Reaction) (rejected : Bool) (result : Value) : Job :=
  if rejected then .reactionReject r.onRejected r.capability result
  else .reactionFulfill r.onFulfilled r.capability result

/-- What a history of the run records. No operation reads it. -/
inductive Event
  | subscribed (promise : Nat) (reaction : Reaction)
  /-- A job was enqueued; for a reaction, the promise it was subscribed to. -/
  | enqueued (source : Option Nat) (job : Job)
  | started (job : Job)
  deriving DecidableEq, Repr

/-- The promises, the pairs, the queue, the registry of rejections and the control stack. -/
structure World where
  promises : Nat → PromiseRecord
  nextPromise : Nat
  pairs : List PairEnv
  queue : List Job
  parked : List Nat
  rejectionHook : Bool
  /-- What `capture` answers; `0` is no context, or no hooks installed. -/
  jobContext : Nat
  pendingCleanups : Nat
  stack : List Frame
  log : List Event

namespace World

/-- Before the program starts. -/
def initial : World where
  promises := fun _ => .fresh
  nextPromise := 0
  pairs := []
  queue := []
  parked := []
  rejectionHook := false
  jobContext := 0
  pendingCleanups := 0
  stack := []
  log := []

variable (w : World)

/-- `writeSlot`, for any of a promise's slots. -/
def modifyPromise (p : Nat) (f : PromiseRecord → PromiseRecord) : World :=
  { w with promises := Function.update w.promises p (f (w.promises p)) }

def push (frame : Frame) : World :=
  { w with stack := frame :: w.stack }

def rtNewPromise : World :=
  { w with
    promises := Function.update w.promises w.nextPromise .fresh
    nextPromise := w.nextPromise + 1 }

def enqueue (source : Option Nat) (job : Job) : World :=
  { w with queue := w.queue ++ [job], log := w.log ++ [.enqueued source job] }

def rtEnqueueReactionJob (source : Nat) (handler capability argument : Value) (rejected : Bool) :
    World :=
  w.enqueue (some source) (if rejected then .reactionReject handler capability argument
    else .reactionFulfill handler capability argument)

def rtEnqueueThenableJob (p : Nat) (thenable thenFn : Value) : World :=
  w.enqueue none (.thenable p thenable thenFn)

def rtParkRejection (p : Nat) : World :=
  if p ∈ w.parked then w else { w with parked := w.parked ++ [p] }

def rtUnparkRejection (p : Nat) : World :=
  { w with parked := w.parked.erase p }

def rtNotifyRejectionHandled (p : Nat) : World :=
  if w.rejectionHook then w.push (.handledHook p) else w

/-- The walk over a flattened reaction list, two elements at a time. -/
def reactionsOf : List Value → List (Value × Value)
  | handler :: capability :: rest => (handler, capability) :: reactionsOf rest
  | _ => []

def settleInternal (p : Nat) (value : Value) (reject : Bool) : World :=
  if (w.promises p).state ≠ .pending then w
  else
    let w₁ := w.modifyPromise p fun r =>
      { r with result := value, state := .settled reject }
    let w₂ := if reject && !(w₁.promises p).isHandled then w₁.rtParkRejection p else w₁
    let list := if reject then (w₂.promises p).rejectReactions
      else (w₂.promises p).fulfillReactions
    let w₃ := (reactionsOf (list.getD [])).foldl
      (fun w r => w.rtEnqueueReactionJob p r.1 r.2 value reject) w₂
    w₃.modifyPromise p fun r => { r with fulfillReactions := none, rejectReactions := none }

/-- `runResolutionSteps`, up to the read of `then`. -/
def runResolutionSteps (p : Nat) (value : Value) : World :=
  if value = .promise p then
    w.settleInternal p (.typeError "Chaining cycle detected for promise") true
  else if !value.isObject then w.settleInternal p value false
  else w.push (.getThen p value)

def inJobContext (fn : Value) : Value :=
  if !fn.isCallable then fn
  else if w.jobContext = 0 then fn
  else .contextCall w.jobContext fn

/-- `runResolutionSteps`, from the value of `then` on. -/
def gotThen (p : Nat) (value thenFn : Value) : World :=
  if !thenFn.isCallable then w.settleInternal p value false
  else w.rtEnqueueThenableJob p value (w.inJobContext thenFn)

def takePromiseLatch (p : Nat) : Option World :=
  if (w.promises p).alreadyResolved then none
  else some (w.modifyPromise p fun r => { r with alreadyResolved := true })

def takePairLatch (q : Nat) : Option (Nat × World) :=
  match w.pairs[q]? with
  | some env =>
    if env.latch then none
    else some (env.promise, { w with pairs := w.pairs.set q { env with latch := true } })
  | none => none

def rtResolvePromise (p : Nat) (value : Value) : World :=
  match w.takePromiseLatch p with
  | some w => w.runResolutionSteps p value
  | none => w

/-- `rtRejectPromise`, and the body of `resolvingReject` -/
def rtRejectPromise (p : Nat) (reason : Value) : World :=
  match w.takePromiseLatch p with
  | some w => w.settleInternal p reason true
  | none => w

def pairResolve (q : Nat) (value : Value) : World :=
  match w.takePairLatch q with
  | some (p, w) => w.runResolutionSteps p value
  | none => w

def pairReject (q : Nat) (reason : Value) : World :=
  match w.takePairLatch q with
  | some (p, w) => w.settleInternal p reason true
  | none => w

/-- `appendReaction`, on the list of one slot. -/
def appendReaction (list : Option (List Value)) (handler capability : Value) :
    Option (List Value) :=
  some (list.getD [] ++ [handler, capability])

/-- What `rtPerformPromiseThen` makes of its arguments. -/
def reaction (onFulfilled onRejected capability : Value) : Reaction where
  onFulfilled := w.inJobContext (if onFulfilled.isCallable then onFulfilled else .undefined)
  onRejected := w.inJobContext (if onRejected.isCallable then onRejected else .undefined)
  capability := capability

/-- The `switch` of `rtPerformPromiseThen`. -/
def subscribe (p : Nat) (r : Reaction) : World :=
  let w₁ : World := { w with log := w.log ++ [.subscribed p r] }
  match (w.promises p).state with
  | .pending => w₁.modifyPromise p fun rec =>
    { rec with
      fulfillReactions := appendReaction rec.fulfillReactions r.onFulfilled r.capability
      rejectReactions := appendReaction rec.rejectReactions r.onRejected r.capability }
  | .fulfilled =>
    w₁.rtEnqueueReactionJob p r.onFulfilled r.capability (w.promises p).result false
  | .rejected =>
    w₁.rtEnqueueReactionJob p r.onRejected r.capability (w.promises p).result true

def rtPerformPromiseThen (p : Nat) (onFulfilled onRejected capability : Value) : World :=
  let state := (w.promises p).state
  let w₁ := w.subscribe p (w.reaction onFulfilled onRejected capability)
  let wasHandled := (w₁.promises p).isHandled
  let w₂ := (w₁.modifyPromise p fun r => { r with isHandled := true }).rtUnparkRejection p
  if !wasHandled && state = .rejected && (w₂.promises p).reported then
    (w₂.modifyPromise p fun r => { r with reported := false }).rtNotifyRejectionHandled p
  else w₂

def rtSettleCapability (capability value : Value) (reject : Bool) : World :=
  match capability with
  | .capability promise resolveFn rejectFn =>
    let fn := if reject then rejectFn else resolveFn
    if fn.isCallable then w.push (.capability fn value)
    else match promise with
      | .promise p =>
        -- the test is `isObject`: a value names no promise that is yet to be made
        if w.nextPromise ≤ p then w
        else if reject then w.rtRejectPromise p value
        else w.rtResolvePromise p value
      | _ => w
  | _ => w

/-- `rtRunReactionJob`, from the completion of the handler on. -/
def finishReactionJob (capability result : Value) (resultRejected : Bool) : World :=
  if !capability.isObject then w
  else w.rtSettleCapability capability result resultRejected

/-- `rtRunReactionJob`, up to the call of the handler. -/
def rtRunReactionJob (handler capability argument : Value) (rejected : Bool) : World :=
  if handler.isCallable then w.push (.handler handler argument capability)
  else w.finishReactionJob capability argument rejected

/-- `rtRunThenableJob`, up to the call of `then`: a fresh pair with a fresh latch. -/
def rtRunThenableJob (p : Nat) (thenable thenFn : Value) : World :=
  { w with
    pairs := w.pairs ++ [{ promise := p, latch := false }]
    stack := .thenable w.pairs.length thenable thenFn :: w.stack }

/-- The `switch` over the kind of a job. -/
def runJob : Job → World
  | .reactionFulfill handler capability argument =>
    w.rtRunReactionJob handler capability argument false
  | .reactionReject handler capability argument =>
    w.rtRunReactionJob handler capability argument true
  | .thenable p thenable thenFn => w.rtRunThenableJob p thenable thenFn

/-- `reportParkedRejections`, up to its loop. -/
def reportParkedRejections : World :=
  match w.parked with
  | [] => w
  | _ => if w.rejectionHook then w.push (.report w.parked.length) else { w with parked := [] }

/-- One pass through the loop of `rtDrainMicrotasks`, the frames below it in `rest`. -/
def drainStep (rest : List Frame) : World :=
  match w.queue with
  | job :: queue =>
    ({ w with queue := queue, log := w.log ++ [.started job] } : World).runJob job
  | [] =>
    if w.pendingCleanups ≠ 0 then w.push (.cleanups w.pendingCleanups)
    else ({ w with stack := rest } : World).reportParkedRejections

/-- One pass through the loop of `rtRunFinalizationCleanupJob`. -/
def cleanupStep (remaining : Nat) (rest : List Frame) : World :=
  match remaining, w.pendingCleanups with
  | remaining + 1, pending + 1 =>
    { w with
      pendingCleanups := pending
      stack := .cleanupCallback :: .cleanups remaining :: rest }
  | _, _ => { w with stack := rest }

/-- One pass through the loop of `reportParkedRejections`. -/
def reportStep (remaining : Nat) (rest : List Frame) : World :=
  match remaining, w.parked with
  | remaining + 1, p :: parked =>
    let w₁ := w.modifyPromise p fun r => { r with reported := true }
    { w₁ with parked := parked, stack := .reportHook p :: .report remaining :: rest }
  | _, _ => { w with stack := rest }

end World

/-- How a call of user code ended. -/
inductive Outcome
  | returned (value : Value)
  | threw (value : Value)
  deriving DecidableEq, Repr

/-- What can happen next. All but `tick` are choices of the running user code, which include
a drain inside a job. -/
inductive Action
  | newPromise
  | resolvePromise (p : Nat) (value : Value)
  | rejectPromise (p : Nat) (reason : Value)
  | pairResolve (q : Nat) (value : Value)
  | pairReject (q : Nat) (reason : Value)
  | performThen (p : Nat) (onFulfilled onRejected capability : Value)
  | settleCapability (capability value : Value) (reject : Bool)
  | drainMicrotasks
  | setRejectionHook (installed : Bool)
  | setJobContext (context : Nat)
  /-- A collection found `n` targets of a FinalizationRegistry dead. -/
  | collect (n : Nat)
  /-- The user code on top of the stack ends. -/
  | outcome (o : Outcome)
  /-- The runtime's own loop on top of the stack takes one pass. -/
  | tick
  deriving DecidableEq, Repr

namespace World

variable (w : World)

/-- User code is running: the program's, the embedder's, or a callback's. -/
def runsUserCode : Bool :=
  match w.stack with
  | [] => true
  | frame :: _ => frame.runsUserCode

/-- What the runtime does when the user code on top of a frame ends, the frame being off the
stack. -/
def resume : Frame → Outcome → World
  | .getThen p value, .returned thenFn => w.gotThen p value thenFn
  | .getThen p _, .threw thrown => w.settleInternal p thrown true
  | .handler _ _ capability, .returned result => w.finishReactionJob capability result false
  | .handler _ _ capability, .threw thrown => w.finishReactionJob capability thrown true
  | .thenable q _ _, .threw thrown =>
    match w.takePairLatch q with
    | some (p, w) => w.settleInternal p thrown true
    | none => w
  -- a throw out of the hook leaves the loop that called it, and the drain with it
  | .reportHook _, .threw _ =>
    match w.stack with
    | .report _ :: rest => { w with stack := rest }
    | _ => w
  -- a throw out of a capability's function or a callback is reported, or is the caller's to see
  | _, _ => w

/-- What the running user code may do. -/
def act : Action → Option World
  | .newPromise => some w.rtNewPromise
  | .resolvePromise p value => if p < w.nextPromise then some (w.rtResolvePromise p value) else none
  | .rejectPromise p reason => if p < w.nextPromise then some (w.rtRejectPromise p reason) else none
  | .pairResolve q value => if q < w.pairs.length then some (w.pairResolve q value) else none
  | .pairReject q reason => if q < w.pairs.length then some (w.pairReject q reason) else none
  | .performThen p onFulfilled onRejected capability =>
    if p < w.nextPromise then some (w.rtPerformPromiseThen p onFulfilled onRejected capability)
    else none
  | .settleCapability capability value reject => some (w.rtSettleCapability capability value reject)
  | .drainMicrotasks => some (w.push .drain)
  | .setRejectionHook installed => some { w with rejectionHook := installed }
  | .setJobContext context => some { w with jobContext := context }
  | .collect n => some { w with pendingCleanups := w.pendingCleanups + n }
  | .outcome o =>
    match w.stack with
    | frame :: rest => some (({ w with stack := rest } : World).resume frame o)
    | [] => none
  | .tick => none

/-- One pass of the loop on top of the stack. -/
def tick : Option World :=
  match w.stack with
  | .drain :: rest => some (w.drainStep rest)
  | .cleanups remaining :: rest => some (w.cleanupStep remaining rest)
  | .report remaining :: rest => some (w.reportStep remaining rest)
  | _ => none

/-- **What an action does, in the states where it can be taken.** -/
def step (a : Action) : Option World :=
  if w.runsUserCode then w.act a
  else if a = .tick then w.tick
  else none

end World

def Step (w : World) (a : Action) (w' : World) : Prop :=
  w.step a = some w'

end Bronze.Promise
