import Bronze.Promise.Invariant
import Bronze.Table.Run

/-!
# What the log says of a run

The log of a world is written along with what it records. Here the two are compared: the
subscriptions in it are those of the `performThen` actions of the run, and the jobs it has started
are those whose code the run has called.

## Main definitions

* `performed`: the reactions the actions of a run subscribe to a promise
* `entered`: the calls of jobs that a run puts on the control stack
* `Recorded`: the log of a world is that of the run that reached it

## Main results

* `Step.chronicle`: what a step adds to the log and to the stack
* `recorded`: a run, by its actions and its calls
-/

namespace Bronze.Promise

open Transition (Run)
open List Option World

/-- The call of a handler, or of the `then` of a thenable. -/
def Frame.runsJob : Frame → Bool
  | handler .. => true
  | thenable .. => true
  | _ => false

/-- The job calls code. One without a handler hands its argument on. -/
def Job.callsBack : Job → Bool
  | reactionFulfill handler _ _ => handler.isCallable
  | reactionReject handler _ _ => handler.isCallable
  | thenable .. => true

/-- The call that a job makes; the pair of a thenable is made with it. -/
inductive Job.Enters : Job → Frame → Prop
  | fulfill (handler capability argument : Value) :
    Enters (.reactionFulfill handler capability argument) (.handler handler argument capability)
  | reject (handler capability argument : Value) :
    Enters (.reactionReject handler capability argument) (.handler handler argument capability)
  | thenable (p q : Nat) (thenable thenFn : Value) :
    Enters (.thenable p thenable thenFn) (.thenable q thenable thenFn)

/-- What an action subscribes to the promise. -/
def Action.reactions (w : World) (p : Nat) : Action → List Reaction
  | performThen p' onFulfilled onRejected capability =>
    if p' = p then [w.reaction onFulfilled onRejected capability] else []
  | _ => []

/-- The calls of jobs on the control stack. -/
def World.jobFrames (w : World) : List Frame := w.stack.filter Frame.runsJob

/-- The calls of jobs that are new on the stack. -/
def World.newCalls (w w' : World) : List Frame :=
  w'.jobFrames.take (w'.jobFrames.length - w.jobFrames.length)

section Collect

variable {α : Type}

/-- What the steps of a run give, one after the other. -/
def collect (out : World → Action → World → List α) : World → List Action → List α
  | _, [] => []
  | w, a :: as => match w.step a with
    | none => []
    | some w' => out w a w' ++ collect out w' as

variable {out : World → Action → World → List α} {w w' w'' : World} {as : List Action} {a : Action}

theorem collect_cons (h : Step w a w') (as : List Action) :
    collect out w (a :: as) = out w a w' ++ collect out w' as := by
  rw [Step] at h
  rw [collect, h]

theorem collect_append (h : Run Step w as w') (bs : List Action) :
    collect out w (as ++ bs) = collect out w as ++ collect out w' bs := by
  induction h generalizing bs with
  | nil => rfl
  | snoc _ hstep ih =>
    rw [append_assoc, ih, ih, singleton_append, collect_cons hstep, collect_cons hstep, collect,
      append_nil, append_assoc]

theorem collect_snoc (h : Run Step w as w') (hstep : Step w' a w'') :
    collect out w (as ++ [a]) = collect out w as ++ out w' a w'' := by
  rw [collect_append h, collect_cons hstep, collect, append_nil]

end Collect

/-- **The reactions that are subscribed to a promise**, by the actions of a run. -/
def performed (p : Nat) : World → List Action → List Reaction :=
  collect fun w a _ => a.reactions w p

/-- **The calls of jobs in a run**, by what comes onto the control stack. -/
def entered : World → List Action → List Frame :=
  collect fun w _ w' => w.newCalls w'

/-! ## What an operation records -/

/-- Jobs are enqueued, and calls are made that are no job's. -/
structure Calm (w w' : World) : Prop where
  log : ∃ jobs : List (Option Nat × Job), w'.log = w.log ++ jobs.map fun e => .enqueued e.1 e.2
  stack : ∃ frames, w'.stack = frames ++ w.stack ∧ ∀ f ∈ frames, f.runsJob = false

namespace Calm

variable {w w' w'' : World}

theorem of_same (hlog : w'.log = w.log) (hstack : w'.stack = w.stack) : Calm w w' where
  log := ⟨[], by simp [hlog]⟩
  stack := ⟨[], hstack, nofun⟩

theorem refl (w : World) : Calm w w := of_same rfl rfl

theorem trans (h : Calm w w') (h' : Calm w' w'') : Calm w w'' where
  log := by
    obtain ⟨jobs, hjobs⟩ := h.log
    obtain ⟨jobs', hjobs'⟩ := h'.log
    exact ⟨jobs ++ jobs', by simp [hjobs', hjobs]⟩
  stack := by
    obtain ⟨frames, hframes, hcalls⟩ := h.stack
    obtain ⟨frames', hframes', hcalls'⟩ := h'.stack
    refine ⟨frames' ++ frames, by simp [hframes', hframes], fun f hf => ?_⟩
    exact (mem_append.mp hf).elim (hcalls' f) (hcalls f)

theorem push {frame : Frame} (h : frame.runsJob = false) : Calm w (w.push frame) where
  log := ⟨[], (append_nil _).symm⟩
  stack := ⟨[frame], rfl, by simpa using h⟩

theorem enqueue (source : Option Nat) (job : Job) : Calm w (w.enqueue source job) where
  log := ⟨[(source, job)], rfl⟩
  stack := ⟨[], rfl, nofun⟩

theorem settleInternal (p : Nat) (value : Value) (reject : Bool) :
    Calm w (w.settleInternal p value reject) := by
  by_cases h : (w.promises p).state = .pending
  · obtain ⟨parked, -, heq⟩ := World.settleInternal_eq value reject h
    rw [heq]
    refine ⟨⟨(triggered (w.promises p) reject).map fun r => (some p, entryJob value reject r), ?_⟩,
      [], rfl, nofun⟩
    simp
  · rw [World.settleInternal_of_settled h]
    exact refl w

theorem runResolutionSteps (p : Nat) (value : Value) : Calm w (w.runResolutionSteps p value) := by
  rw [World.runResolutionSteps]
  split
  · exact settleInternal ..
  · split
    · exact settleInternal ..
    · exact push rfl

theorem gotThen (p : Nat) (value thenFn : Value) : Calm w (w.gotThen p value thenFn) := by
  rw [World.gotThen]
  split
  · exact settleInternal ..
  · exact enqueue ..

theorem takePromiseLatch {p : Nat} (h : w.takePromiseLatch p = some w') : Calm w w' := by
  rw [World.takePromiseLatch] at h
  split at h
  · cases h
  · cases h
    exact of_same rfl rfl

theorem takePairLatch {q p : Nat} (h : w.takePairLatch q = some (p, w')) : Calm w w' := by
  rw [World.takePairLatch] at h
  split at h
  · split at h
    · cases h
    · cases h
      exact of_same rfl rfl
  · cases h

theorem rtResolvePromise (p : Nat) (value : Value) : Calm w (w.rtResolvePromise p value) := by
  rw [World.rtResolvePromise]
  split
  · exact (takePromiseLatch ‹_›).trans (runResolutionSteps ..)
  · exact refl w

theorem rtRejectPromise (p : Nat) (reason : Value) : Calm w (w.rtRejectPromise p reason) := by
  rw [World.rtRejectPromise]
  split
  · exact (takePromiseLatch ‹_›).trans (settleInternal ..)
  · exact refl w

theorem pairResolve (q : Nat) (value : Value) : Calm w (w.pairResolve q value) := by
  rw [World.pairResolve]
  split
  · exact (takePairLatch ‹_›).trans (runResolutionSteps ..)
  · exact refl w

theorem pairReject (q : Nat) (reason : Value) : Calm w (w.pairReject q reason) := by
  rw [World.pairReject]
  split
  · exact (takePairLatch ‹_›).trans (settleInternal ..)
  · exact refl w

theorem rtNotifyRejectionHandled (p : Nat) : Calm w (w.rtNotifyRejectionHandled p) := by
  rw [World.rtNotifyRejectionHandled]
  split
  · exact push rfl
  · exact refl w

theorem rtPerformPromiseThen (p : Nat) (onFulfilled onRejected capability : Value) :
    Calm { w with log := w.log ++ [.subscribed p (w.reaction onFulfilled onRejected capability)] }
      (w.rtPerformPromiseThen p onFulfilled onRejected capability) := by
  rw [World.rtPerformPromiseThen]
  generalize w.reaction onFulfilled onRejected capability = r
  have hsubscribe : Calm { w with log := w.log ++ [.subscribed p r] } (w.subscribe p r) := by
    rcases (w.promises p).state.pending_or_settled with hstate | ⟨reject, hstate⟩
    · rw [subscribe_of_pending hstate]
      exact of_same rfl rfl
    · rw [subscribe_of_settled hstate]
      exact ⟨⟨[(some p, r.job reject (w.promises p).result)], by simp⟩, [], rfl, by simp⟩
  have hmark : Calm { w with log := w.log ++ [.subscribed p r] }
      (((w.subscribe p r).modifyPromise p fun r =>
        { r with isHandled := true }).rtUnparkRejection p) :=
    hsubscribe.trans (of_same rfl rfl)
  split
  · exact (hmark.trans (of_same (by rfl) (by rfl))).trans (rtNotifyRejectionHandled p)
  · exact hmark

theorem rtSettleCapability (capability value : Value) (reject : Bool) :
    Calm w (w.rtSettleCapability capability value reject) := by
  cases capability with
  | capability promise resolveFn rejectFn =>
    unfold World.rtSettleCapability
    dsimp only
    generalize (if reject then rejectFn else resolveFn) = fn
    by_cases hfn : fn.isCallable
    · simp only [hfn]
      exact push rfl
    · simp only [hfn]
      cases promise with
      | promise p =>
        by_cases hlt : w.nextPromise ≤ p
        · simp only [hlt]
          exact refl w
        · cases reject with
          | true => simpa [hlt] using rtRejectPromise p value
          | false => simpa [hlt] using rtResolvePromise p value
      | _ => exact refl w
  | _ => exact refl w

theorem finishReactionJob (capability result : Value) (resultRejected : Bool) :
    Calm w (w.finishReactionJob capability result resultRejected) := by
  rw [World.finishReactionJob]
  split
  · exact refl w
  · exact rtSettleCapability ..

end Calm

/-! ## What a step records -/

/-- **What a step adds to the log and to the stack**: a subscription, a job that is started with
its call on the stack, or neither, once frames are off the stack. -/
inductive Chronicle (w : World) : Action → World → Prop
  | calm {a : Action} {st : List Frame} {w' : World} (hst : st <:+ w.stack)
    (ha : ∀ p, a.reactions w p = []) (h : Calm { w with stack := st } w') : Chronicle w a w'
  | subscribe {p : Nat} {onFulfilled onRejected capability : Value} {w' : World}
    (h : Calm { w with
      log := w.log ++ [.subscribed p (w.reaction onFulfilled onRejected capability)] } w') :
    Chronicle w (.performThen p onFulfilled onRejected capability) w'
  | call {job : Job} {frame : Frame} {w' : World} (hframe : job.Enters frame)
    (hcalls : job.callsBack = true) (hlog : w'.log = w.log ++ [.started job])
    (hstack : w'.stack = frame :: w.stack) : Chronicle w .tick w'
  | pass {job : Job} {w' : World} (hcalls : job.callsBack = false)
    (h : Calm { w with log := w.log ++ [.started job] } w') : Chronicle w .tick w'

section Step

variable {w w' : World} {a : Action} {frame : Frame} {rest : List Frame}

theorem runJob_chronicle {job : Job} {queue : List Job} :
    Chronicle w .tick
      (({ w with queue := queue, log := w.log ++ [.started job] } : World).runJob job) := by
  have hreaction : ∀ handler capability argument rejected, job.callsBack = handler.isCallable →
      job.Enters (.handler handler argument capability) →
      Chronicle w .tick (({ w with queue := queue, log := w.log ++ [.started job] } :
        World).rtRunReactionJob handler capability argument rejected) := by
    intro handler capability argument rejected hcalls henters
    rw [rtRunReactionJob]
    split
    next hcallable => exact .call henters (hcalls.trans hcallable) rfl rfl
    next hnot =>
      exact .pass (hcalls.trans (Bool.not_eq_true _ ▸ hnot))
        ((Calm.of_same (by rfl) (by rfl)).trans (Calm.finishReactionJob ..))
  cases job with
  | reactionFulfill handler capability argument =>
    exact hreaction _ _ _ _ rfl (.fulfill ..)
  | reactionReject handler capability argument => exact hreaction _ _ _ _ rfl (.reject ..)
  | thenable p thenable thenFn => exact .call (.thenable p _ thenable thenFn) rfl rfl rfl

theorem Calm.popped (hstack : w.stack = frame :: rest) (ha : ∀ p, a.reactions w p = [])
    (h : Calm { w with stack := rest } w') : Chronicle w a w' :=
  .calm (hstack ▸ suffix_cons ..) ha h

theorem Calm.chronicle (ha : ∀ p, a.reactions w p = []) (h : Calm w w') : Chronicle w a w' :=
  .calm (suffix_refl _) ha h

theorem resume_chronicle (hstack : w.stack = frame :: rest) (o : Outcome) :
    Chronicle w (.outcome o) (({ w with stack := rest } : World).resume frame o) := by
  cases frame with
  | getThen p value =>
    cases o with
    | returned thenFn => exact (Calm.gotThen ..).popped hstack fun _ => rfl
    | threw thrown => exact (Calm.settleInternal ..).popped hstack fun _ => rfl
  | handler handler argument capability =>
    cases o <;> exact (Calm.finishReactionJob ..).popped hstack fun _ => rfl
  | thenable q thenable thenFn =>
    cases o with
    | returned value => exact (Calm.refl _).popped hstack fun _ => rfl
    | threw thrown => exact (Calm.pairReject q thrown).popped hstack fun _ => rfl
  | reportHook p =>
    cases o with
    | returned value => exact (Calm.refl _).popped hstack fun _ => rfl
    | threw thrown =>
      rw [resume]
      split
      next remaining rest' hrest =>
        obtain rfl : rest = .report remaining :: rest' := hrest
        exact .calm (hstack ▸ (suffix_cons ..).trans (suffix_cons ..)) (fun _ => rfl) (.refl _)
      next => exact (Calm.refl _).popped hstack fun _ => rfl
  | capability | cleanupCallback | handledHook | drain | cleanups | report =>
    exact (Calm.refl _).popped hstack fun _ => rfl

theorem tick_chronicle (h : w.tick = some w') : Chronicle w .tick w' := by
  rw [tick] at h
  split at h
  next rest hstack =>
    cases h
    rw [drainStep]
    split
    · exact runJob_chronicle
    · split
      · exact (Calm.push rfl).chronicle fun _ => rfl
      · rw [reportParkedRejections]
        split
        · exact (Calm.refl _).popped hstack fun _ => rfl
        · split
          · exact (Calm.push rfl).popped hstack fun _ => rfl
          · exact (Calm.of_same (by rfl) (by rfl)).popped hstack fun _ => rfl
  next remaining rest hstack =>
    cases h
    unfold cleanupStep
    split
    · refine Calm.popped hstack (fun _ => rfl) ⟨⟨[], by simp⟩,
        [.cleanupCallback, .cleanups _], rfl, ?_⟩
      simp [Frame.runsJob]
    · exact (Calm.refl _).popped hstack fun _ => rfl
  next remaining rest hstack =>
    cases h
    unfold reportStep
    split
    · refine Calm.popped hstack (fun _ => rfl) ⟨⟨[], by simp [modifyPromise]⟩,
        [.reportHook _, .report _], rfl, ?_⟩
      simp [Frame.runsJob]
    · exact (Calm.refl _).popped hstack fun _ => rfl
  next => cases h

theorem Step.chronicle (h : Step w a w') : Chronicle w a w' := by
  rw [Step, step] at h
  split at h
  · cases a with
    | newPromise | setRejectionHook | setJobContext | collect =>
      cases h
      exact (Calm.of_same (by rfl) (by rfl)).chronicle fun _ => rfl
    | resolvePromise p value =>
      obtain ⟨-, rfl⟩ : p < w.nextPromise ∧ w.rtResolvePromise p value = w' := by
        simpa [act] using h
      exact (Calm.rtResolvePromise ..).chronicle fun _ => rfl
    | rejectPromise p reason =>
      obtain ⟨-, rfl⟩ : p < w.nextPromise ∧ w.rtRejectPromise p reason = w' := by
        simpa [act] using h
      exact (Calm.rtRejectPromise ..).chronicle fun _ => rfl
    | pairResolve q value =>
      obtain ⟨-, rfl⟩ : q < w.pairs.length ∧ w.pairResolve q value = w' := by simpa [act] using h
      exact (Calm.pairResolve ..).chronicle fun _ => rfl
    | pairReject q reason =>
      obtain ⟨-, rfl⟩ : q < w.pairs.length ∧ w.pairReject q reason = w' := by simpa [act] using h
      exact (Calm.pairReject ..).chronicle fun _ => rfl
    | performThen p onFulfilled onRejected capability =>
      obtain ⟨-, rfl⟩ : p < w.nextPromise ∧
          w.rtPerformPromiseThen p onFulfilled onRejected capability = w' := by
        simpa [act] using h
      exact .subscribe (Calm.rtPerformPromiseThen ..)
    | settleCapability capability value reject =>
      cases h
      exact (Calm.rtSettleCapability ..).chronicle fun _ => rfl
    | drainMicrotasks =>
      cases h
      exact (Calm.push rfl).chronicle fun _ => rfl
    | outcome o =>
      rw [act] at h
      split at h
      next frame rest hstack =>
        cases h
        exact resume_chronicle hstack o
      next => cases h
    | tick => cases h
  · split at h
    next htick =>
      subst htick
      exact tick_chronicle h
    next => cases h

end Step

/-! ## Runs -/

section Runs

variable {w w' : World} {a : Action}

theorem Calm.subscriptions_eq (h : Calm w w') (p : Nat) :
    w'.subscriptions p = w.subscriptions p := by
  obtain ⟨jobs, hlog⟩ := h.log
  simp [subscriptions, hlog, filterMap_map, Function.comp_def, Event.subscription?]

theorem Calm.startedJobs_eq (h : Calm w w') : w'.startedJobs = w.startedJobs := by
  obtain ⟨jobs, hlog⟩ := h.log
  simp [startedJobs, hlog, filterMap_map, Function.comp_def, Event.started?]

theorem Calm.jobFrames_eq (h : Calm w w') : w'.jobFrames = w.jobFrames := by
  obtain ⟨frames, hstack, hcalls⟩ := h.stack
  have hnone : frames.filter Frame.runsJob = [] :=
    filter_eq_nil_iff.mpr fun f hf => by simp [hcalls f hf]
  rw [jobFrames, jobFrames, hstack, filter_append, hnone, nil_append]

theorem Step.subscriptions_eq (h : Step w a w') (p : Nat) :
    w'.subscriptions p = w.subscriptions p ++ a.reactions w p := by
  cases h.chronicle with
  | calm hst ha h => rw [h.subscriptions_eq, ha, append_nil]; rfl
  | @subscribe p' _ _ _ _ h =>
    rw [h.subscriptions_eq, Action.reactions]
    by_cases hp : p' = p <;> simp [subscriptions, Event.subscription?, hp]
  | call hframe hcalls hlog hstack =>
    simp [subscriptions, hlog, Event.subscription?, Action.reactions]
  | pass hcalls h =>
    rw [h.subscriptions_eq]
    simp [subscriptions, Event.subscription?, Action.reactions]

/-- **A step starts a job with its call**, if it has one, and no other call comes onto the stack. -/
theorem Step.newCalls (h : Step w a w') :
    ∃ jobs, w'.startedJobs = w.startedJobs ++ jobs ∧
      Forall₂ Job.Enters (jobs.filter Job.callsBack) (w.newCalls w') := by
  cases h.chronicle with
  | @calm _ st _ hst ha h =>
    refine ⟨[], by rw [h.startedJobs_eq, append_nil]; rfl, ?_⟩
    have hle : ({ w with stack := st } : World).jobFrames.length ≤ w.jobFrames.length :=
      (hst.filter Frame.runsJob).length_le
    rw [World.newCalls, h.jobFrames_eq, Nat.sub_eq_zero_of_le hle, take_zero]
    exact .nil
  | subscribe h =>
    refine ⟨[], by rw [h.startedJobs_eq]; simp [startedJobs, Event.started?], ?_⟩
    rw [World.newCalls, h.jobFrames_eq]
    simp [jobFrames]
  | @call job frame _ hframe hcalls hlog hstack =>
    refine ⟨[job], by simp [startedJobs, hlog, Event.started?], ?_⟩
    have hruns : frame.runsJob = true := by cases hframe <;> rfl
    simp [World.newCalls, jobFrames, hstack, hruns, hcalls, hframe]
  | @pass job _ hcalls h =>
    refine ⟨[job], by rw [h.startedJobs_eq]; simp [startedJobs, Event.started?], ?_⟩
    rw [World.newCalls, h.jobFrames_eq]
    simp [jobFrames, hcalls]

/-- The subscriptions in the log are those the actions of the run ask for, and the jobs it has
started are those the run has called the code of, in that order. -/
structure Recorded (as : List Action) (w : World) : Prop where
  subscriptions : ∀ p, w.subscriptions p = performed p initial as
  started : Forall₂ Job.Enters (w.startedJobs.filter Job.callsBack) (entered initial as)

/-- **The log is that of the run.** -/
theorem recorded {as : List Action} (h : Run Step initial as w) : Recorded as w := by
  induction h with
  | nil => exact ⟨fun _ => rfl, .nil⟩
  | snoc hrun hstep ih =>
    obtain ⟨jobs, hjobs, hcalls⟩ := hstep.newCalls
    refine ⟨fun p => ?_, ?_⟩
    · rw [hstep.subscriptions_eq, performed, collect_snoc hrun hstep, ih.subscriptions, performed]
    · rw [entered, collect_snoc hrun hstep, hjobs, filter_append]
      exact rel_append ih.started hcalls

end Runs

end Bronze.Promise
