import Bronze.Promise.History
import Bronze.Promise.Invariant
import Bronze.Table.Run

/-!
# Promises settle once and lose no reaction

The invariant of a single move becomes one of whole runs. What a run of promise operations, user
code and drains can and cannot do follows from it.

## Main results

* `promises_keep_faith`: all four hold of every world a run reaches
* `settlers_eq`: and there is one way left to settle what was resolved
-/

namespace Bronze.Promise

open Transition (Run)
open List Option World

section Runs

variable {calls : Nat → Prop} {w w' : World} {c c' : Config}

theorem Moves.keeps (h : Moves calls c c') (hi : Invariant c) : Invariant c' := by
  induction h with
  | refl => exact hi
  | tail _ hmove ih => exact hmove.keeps ih

theorem Moves.lasts (h : Moves calls c c') (hi : Invariant c) : Lasts c.world c'.world := by
  induction h with
  | refl => exact .refl _
  | tail hmoves hmove ih => exact ih.trans (hmove.lasts (Moves.keeps hmoves hi))

theorem invariant_initial : Invariant ⟨initial, none⟩ where
  unborn := fun _ _ => rfl
  token := fun _ => rfl
  accounted := fun _ => ⟨fun _ => ⟨rfl, rfl, rfl⟩, fun reject h =>
    absurd h.symm (PromiseState.settled_ne_pending reject)⟩
  order := rfl
  own := fun _ _ _ h => nomatch h
  earlier := fun _ _ _ _ _ _ h => nomatch h

variable {as : List Action}

theorem run_keeps (hi : Invariant ⟨w, none⟩) (h : Run Step w as w') : Invariant ⟨w', none⟩ :=
  h.invariant (fun w => Invariant ⟨w, none⟩) hi fun _ _ _ hi hstep => Moves.keeps hstep.moves hi

theorem run_lasts (hi : Invariant ⟨w, none⟩) (h : Run Step w as w') : Lasts w w' := by
  induction h with
  | nil => exact .refl _
  | snoc hrun hstep ih => exact ih.trans (Moves.lasts hstep.moves (run_keeps hi hrun))

theorem run_of_foldlM (h : as.foldlM step w = some w') : Run Step w as w' := by
  induction as using reverseRecOn generalizing w' with
  | nil =>
    cases h
    exact .nil
  | append_singleton as a ih =>
    rw [foldlM_append] at h
    obtain ⟨w₁, has, ha⟩ := bind_eq_some_iff.mp h
    obtain ⟨w₂, hstep, hlast⟩ := bind_eq_some_iff.mp ha
    cases hlast
    exact .snoc (ih has) hstep

end Runs

/-- The hook is owed the news that the promise is handled after all. -/
def World.owes (w : World) (p : Nat) : Bool :=
  !(w.promises p).isHandled && (w.promises p).state = .rejected && (w.promises p).reported

/-- What a subscription does to the registry. -/
structure Subscribes (p : Nat) (w w' : World) : Prop where
  stack : w'.stack =
    (if w.owes p && w.rejectionHook then [.handledHook p] else []) ++ w.stack
  isHandled : ∀ q, (w'.promises q).isHandled = (decide (q = p) || (w.promises q).isHandled)
  reported : ∀ q, (w'.promises q).reported =
    ((w.promises q).reported && !(decide (q = p) && w.owes p))
  state : ∀ q, (w'.promises q).state = (w.promises q).state
  parked : w'.parked = w.parked.erase p
  rejectionHook : w'.rejectionHook = w.rejectionHook
  nextPromise : w'.nextPromise = w.nextPromise

theorem World.rtNotifyRejectionHandled_eq (w : World) (p : Nat) :
    w.rtNotifyRejectionHandled p =
      { w with stack := (if w.rejectionHook then [.handledHook p] else []) ++ w.stack } := by
  rw [rtNotifyRejectionHandled]
  by_cases h : w.rejectionHook = true
  · rw [if_pos h, if_pos h]
    rfl
  · rw [if_neg h, if_neg h]
    rfl

theorem subscribes_rtPerformPromiseThen {w : World} (p : Nat)
    (onFulfilled onRejected capability : Value) :
    Subscribes p w (w.rtPerformPromiseThen p onFulfilled onRejected capability) := by
  unfold rtPerformPromiseThen
  generalize w.reaction onFulfilled onRejected capability = r
  have hflags : ∀ q, ((w.subscribe p r).promises q).isHandled = (w.promises q).isHandled ∧
      ((w.subscribe p r).promises q).reported = (w.promises q).reported ∧
      ((w.subscribe p r).promises q).state = (w.promises q).state := by
    intro q
    rcases (w.promises p).state.pending_or_settled with hstate | ⟨reject, hstate⟩
    · rw [subscribe_of_pending hstate]
      by_cases hq : q = p
      · subst hq
        simp
      · simp [Function.update_of_ne hq]
    · rw [subscribe_of_settled hstate]
      exact ⟨rfl, rfl, rfl⟩
  have hsame : (w.subscribe p r).stack = w.stack ∧ (w.subscribe p r).parked = w.parked ∧
      (w.subscribe p r).rejectionHook = w.rejectionHook ∧
      (w.subscribe p r).nextPromise = w.nextPromise := by
    rcases (w.promises p).state.pending_or_settled with hstate | ⟨reject, hstate⟩
    · rw [subscribe_of_pending hstate]
      exact ⟨rfl, rfl, rfl, rfl⟩
    · rw [subscribe_of_settled hstate]
      exact ⟨rfl, rfl, rfl, rfl⟩
  generalize w.subscribe p r = v at hflags hsame
  obtain ⟨hstack, hparked, hhook, hnext⟩ := hsame
  have howes : (!(v.promises p).isHandled && (w.promises p).state = .rejected &&
      (((v.modifyPromise p fun r => { r with isHandled := true }).rtUnparkRejection p).promises
        p).reported) = w.owes p := by
    simp [owes, rtUnparkRejection, hflags p]
  simp only [howes, rtNotifyRejectionHandled_eq]
  have hrecord : ∀ q, q ≠ p → ∀ (u : World) f, (u.modifyPromise p f).promises q = u.promises q :=
    fun q hq u f => modifyPromise_of_ne hq f
  cases howed : w.owes p with
  | false =>
    refine ⟨?_, fun q => ?_, fun q => ?_, fun q => ?_, congrArg (·.erase p) hparked, hhook, hnext⟩
    · simp [howed, rtUnparkRejection, modifyPromise, hstack]
    all_goals by_cases hq : q = p
    all_goals simp [hq, howed, hflags, hrecord, rtUnparkRejection]
  | true =>
    refine ⟨?_, fun q => ?_, fun q => ?_, fun q => ?_, congrArg (·.erase p) hparked, hhook, hnext⟩
    · simp [howed, rtUnparkRejection, modifyPromise, hstack, hhook]
    all_goals by_cases hq : q = p
    all_goals simp [hq, howed, hflags, hrecord, rtUnparkRejection]

/-- The drain loops that are running, one inside the other. -/
def World.drains (w : World) : Nat :=
  w.stack.count .drain

/-- **A drain goes on until its queue is empty**, whatever its jobs do, and whatever they throw. -/
theorem Step.drains_le {w w' : World} {a : Action} (h : Step w a w') (hqueue : w.queue ≠ []) :
    w.drains ≤ w'.drains := by
  rw [drains, drains]
  cases h.turn with
  | advance hst hdrains hpop hwrites =>
    obtain ⟨frames, hstack, -⟩ := hwrites.2.stack
    rw [← hdrains hqueue, hstack, count_append]
    exact Nat.le_add_left ..
  | create => exact Nat.le_refl _
  | subscribe hlt =>
    rw [(subscribes_rtPerformPromiseThen ..).stack, count_append]
    exact Nat.le_add_left ..
  | report hstack hparked => simp [hstack]
  | print hstack hempty hhook => exact absurd hempty hqueue

/-! ## Adoption -/

/-- A thenable the promise was resolved with is being adopted: its job is queued, or the pair its
`then` was called with is open. -/
def Adopting (w : World) (p : Nat) : Prop :=
  (∃ thenable thenFn, .thenable p thenable thenFn ∈ w.queue) ∨
    ∃ q : Nat, w.pairs[q]? = some (PairEnv.mk p false)

section Adoption

variable {calls : Nat → Prop} {w w' : World} {c c' : Config} {p : Nat}

theorem countP_adopts_pos {thenable thenFn : Value} (h : .thenable p thenable thenFn ∈ w.queue) :
    0 < w.queue.countP (Job.adopts p) :=
  countP_pos_iff.mpr ⟨_, h, by simp [Job.adopts]⟩

theorem Adopting.latched_pending {hand : Option Nat} (h : Adopting w p) (hi : Invariant ⟨w, hand⟩) :
    (w.promises p).alreadyResolved = true ∧ (w.promises p).state = .pending := by
  rcases h with ⟨thenable, thenFn, hjob⟩ | ⟨q, hq⟩
  · obtain ⟨hlatch, hstate, -⟩ := hi.of_queued (countP_adopts_pos hjob)
    exact ⟨hlatch, hstate⟩
  · exact hi.of_open (countP_opens_pos hq)

theorem Adopting.of_append {jobs : List Job} (h : Adopting w p)
    (hqueue : w'.queue = w.queue ++ jobs) (hpairs : w'.pairs = w.pairs) : Adopting w' p := by
  rcases h with ⟨thenable, thenFn, hjob⟩ | ⟨q, hq⟩
  · exact .inl ⟨thenable, thenFn, by rw [hqueue]; exact mem_append_left _ hjob⟩
  · exact .inr ⟨q, by rwa [hpairs]⟩

theorem Adopting.of_eq (h : Adopting w p) (hqueue : w'.queue = w.queue)
    (hpairs : w'.pairs = w.pairs) : Adopting w' p :=
  h.of_append (by rw [hqueue, append_nil]) hpairs

theorem Move.adopting (h : Move calls c c') (hi : Invariant c) (hadopting : Adopting c.world p) :
    Adopting c'.world p ∨ ∃ q, calls q ∧ c'.world.pairs[q]? = some ⟨p, true⟩ := by
  cases h with
  | quiet h => exact .inl (hadopting.of_eq h.queue h.pairs)
  | create | takePromise | awaitThen | resumeThen => exact .inl (hadopting.of_eq rfl rfl)
  | adopt => exact .inl (hadopting.of_append rfl rfl)
  | @takePair w q p' hq h =>
    rcases hadopting with hjob | ⟨q', hq'⟩
    · exact .inl (.inl hjob)
    · by_cases heq : q = q'
      · subst heq
        obtain ⟨hlt, -⟩ := List.getElem?_eq_some_iff.mp h
        obtain rfl : p' = p := by simpa [h] using hq'
        exact .inr ⟨q, hq, by simp [hlt]⟩
      · exact .inl (.inr ⟨q', by rwa [getElem?_set_ne heq]⟩)
  | @settle w p' value reject =>
    obtain ⟨-, hstate⟩ := hi.of_hand
    obtain ⟨parked, -, heq⟩ := settleInternal_eq value reject hstate
    rw [heq]
    exact .inl (hadopting.of_append rfl rfl)
  | @subscribe w p' hlt r =>
    rcases (w.promises p').state.pending_or_settled with hstate | ⟨reject, hstate⟩
    · rw [subscribe_of_pending hstate]
      exact .inl (hadopting.of_eq rfl rfl)
    · rw [subscribe_of_settled hstate]
      exact .inl (hadopting.of_append rfl rfl)
  | @startReaction w job queue h hjob =>
    rcases hadopting with ⟨thenable, thenFn, hmem⟩ | hpair
    · rw [show w.queue = job :: queue from h, mem_cons] at hmem
      rcases hmem with rfl | hmem
      · exact absurd (hjob p) (by simp [Job.adopts])
      · exact .inl (.inl ⟨thenable, thenFn, hmem⟩)
    · exact .inl (.inr hpair)
  | @startThenable w p' thenable thenFn queue h =>
    left
    rcases hadopting with ⟨thenable', thenFn', hmem⟩ | ⟨q, hq⟩
    · rw [show w.queue = _ from h, mem_cons] at hmem
      rcases hmem with heq | hmem
      · -- this is the job: its pair takes over
        cases heq
        exact .inr ⟨w.pairs.length, by simp [rtRunThenableJob]⟩
      · exact .inl ⟨thenable', thenFn', hmem⟩
    · obtain ⟨hlt, -⟩ := List.getElem?_eq_some_iff.mp hq
      exact .inr ⟨q, by rw [rtRunThenableJob, List.getElem?_append_left hlt]; exact hq⟩

theorem Moves.adopting (h : Moves calls c c') (hi : Invariant c) (hadopting : Adopting c.world p) :
    Adopting c'.world p ∨ ∃ q, calls q ∧ c'.world.pairs[q]? = some ⟨p, true⟩ := by
  induction h with
  | refl => exact .inl hadopting
  | tail hmoves hmove ih =>
    have hi' := Moves.keeps hmoves hi
    rcases ih with hadopting' | ⟨q, hq, hpair⟩
    · exact hmove.adopting hi' hadopting'
    · obtain ⟨latch, hpair', hlatch⟩ := (hmove.lasts hi').pairs q p true hpair
      exact .inr ⟨q, hq, by rw [hpair', hlatch rfl]⟩

/-- The functions that resolve the promise from outside, and those of its pairs up to `q`, do
nothing any more. -/
structure Spent (w : World) (p q : Nat) : Prop where
  own : ∀ value, w.rtResolvePromise p value = w ∧ w.rtRejectPromise p value = w
  pairs : ∀ q' ≤ q, ∀ latch, w.pairs[q']? = some (PairEnv.mk p latch) →
    ∀ value, w.pairResolve q' value = w ∧ w.pairReject q' value = w

theorem own_spent (h : (w.promises p).alreadyResolved = true) (value : Value) :
    w.rtResolvePromise p value = w ∧ w.rtRejectPromise p value = w := by
  simp [rtResolvePromise, rtRejectPromise, takePromiseLatch, h]

variable {q : Nat} {latch : Bool}

theorem pair_spent (h : w.pairs[q]? = some ⟨p, true⟩) (value : Value) :
    w.pairResolve q value = w ∧ w.pairReject q value = w := by
  simp [pairResolve, pairReject, takePairLatch, h]

theorem Invariant.spent (hi : Invariant ⟨w, none⟩) (h : w.pairs[q]? = some ⟨p, true⟩) :
    Spent w p q where
  own := own_spent (hi.own q p true h)
  pairs := fun q' hle latch hq' => by
    rcases Nat.lt_or_eq_of_le hle with hlt | rfl
    · obtain rfl := hi.earlier q' q p latch true hlt hq' h
      exact pair_spent hq'
    · exact pair_spent h

theorem takePairLatch_of_open (h : w.pairs[q]? = some ⟨p, false⟩) :
    w.takePairLatch q = some (p, { w with pairs := w.pairs.set q ⟨p, true⟩ }) := by
  simp [takePairLatch, h]

section

variable (hi : Invariant ⟨w, none⟩)

include hi

theorem Moves.latched (h : w.pairs[q]? = some ⟨p, false⟩)
    (hmoves : Moves (fun _ => True) ⟨{ w with pairs := w.pairs.set q ⟨p, true⟩ }, some p⟩
      ⟨w', none⟩) : w'.pairs[q]? = some ⟨p, true⟩ := by
  have htake : Move (fun _ => True) ⟨w, none⟩
    ⟨{ w with pairs := w.pairs.set q ⟨p, true⟩ }, some p⟩ := .takePair trivial h
  obtain ⟨hlt, -⟩ := List.getElem?_eq_some_iff.mp h
  obtain ⟨latch, hq, hlatch⟩ := (Moves.lasts hmoves (htake.keeps hi)).pairs q p true (by simp [hlt])
  rw [hq, hlatch rfl]

variable (hq : w.pairs[q]? = some ⟨p, latch⟩)

include hq

theorem Invariant.pairResolve_latches (value : Value) :
    (w.pairResolve q value).pairs[q]? = some ⟨p, true⟩ := by
  cases latch with
  | true => rwa [(pair_spent hq value).1]
  | false =>
    rw [pairResolve, takePairLatch_of_open hq]
    exact Moves.latched hi hq (runResolutionSteps_writes p value).1

theorem Invariant.pairReject_latches (reason : Value) :
    (w.pairReject q reason).pairs[q]? = some ⟨p, true⟩ := by
  cases latch with
  | true => rwa [(pair_spent hq reason).2]
  | false =>
    rw [pairReject, takePairLatch_of_open hq]
    exact Moves.latched hi hq (.single (.settle ..))

end

/-- **Whoever calls a function of a pair leaves it latched.** -/
theorem Step.latches {a : Action} (h : Step w a w') (hi : Invariant ⟨w, none⟩)
    (hq : w.pairs[q]? = some ⟨p, latch⟩) (hcalls : a.CallsPair w q) :
    w'.pairs[q]? = some ⟨p, true⟩ := by
  obtain ⟨hlt, -⟩ := List.getElem?_eq_some_iff.mp hq
  rw [Step, step] at h
  cases a with
  | pairResolve q' value =>
    obtain rfl : q' = q := hcalls
    obtain ⟨-, rfl⟩ : w.runsUserCode = true ∧ w.pairResolve q' value = w' := by
      simpa [act, hlt] using h
    exact hi.pairResolve_latches hq value
  | pairReject q' reason =>
    obtain rfl : q' = q := hcalls
    obtain ⟨-, rfl⟩ : w.runsUserCode = true ∧ w.pairReject q' reason = w' := by
      simpa [act, hlt] using h
    exact hi.pairReject_latches hq reason
  | outcome o =>
    cases o with
    | returned value => exact hcalls.elim
    | threw thrown =>
      obtain ⟨thenable, thenFn, rest, hstack⟩ := hcalls
      have huser : w.runsUserCode = true := by
        rw [runsUserCode, hstack]
        rfl
      rw [if_pos huser, act, hstack] at h
      cases h
      have hpop : Move (fun _ => True) ⟨w, none⟩ ⟨{ w with stack := rest }, none⟩ :=
        .quiet (.pop hstack fun _ => rfl)
      exact (hpop.keeps hi).pairReject_latches hq thrown
  | _ => exact hcalls.elim

end Adoption

/-! ## What a run of promise operations can and cannot do -/

/-- A promise that settled keeps its state and its result. -/
def SettlesOnce (w : World) : Prop :=
  ∀ p, (w.promises p).state ≠ .pending → ∀ as w', Run Step w as w' →
    (w'.promises p).state = (w.promises p).state ∧
      (w'.promises p).result = (w.promises p).result

/-- The reaction jobs of a settled promise are its subscriptions, each once, in order, with its
result, and it holds none back; before it settles there are none. -/
def LosesNoReaction (w : World) : Prop :=
  ∀ p, ((w.promises p).state = .pending → w.jobsOf p = []) ∧
    ∀ reject, (w.promises p).state = .settled reject →
      w.jobsOf p = (w.subscriptions p).map (fun r => r.job reject (w.promises p).result) ∧
        (w.promises p).fulfillReactions = none ∧ (w.promises p).rejectReactions = none

/-- The jobs that were started are the first of those that were enqueued, and the queue is the
rest; a drain in control of a queue starts its head next, and no step takes a drain off the stack
before the queue is empty. -/
def RunsInOrder (w : World) : Prop :=
  w.enqueuedJobs = w.startedJobs ++ w.queue ∧
    (∀ job queue rest, w.stack = .drain :: rest → w.queue = job :: queue →
      ∃ w', Step w .tick w' ∧ w.startedJobs ++ [job] <+: w'.startedJobs) ∧
    ∀ a w', Step w a w' → w.queue ≠ [] → w.drains ≤ w'.drains

/-- A promise resolved with a thenable adopts it; it stays pending until a function of the
thenable's pair is called, or its `then` throws; and from that call on its own functions, those
of its earlier pairs and those of this one do nothing. -/
structure AdoptsThenables (w : World) : Prop where
  adopts : ∀ p value thenFn rest w', w.stack = .getThen p value :: rest →
    thenFn.isCallable = true → Step w (.outcome (.returned thenFn)) w' → Adopting w' p
  pending : ∀ p, Adopting w p → (w.promises p).state = .pending
  until_called : ∀ p, Adopting w p → ∀ a w', Step w a w' →
    Adopting w' p ∨ ∃ q, a.CallsPair w q ∧ w'.pairs[q]? = some (PairEnv.mk p true)
  spent : ∀ p q latch, w.pairs[q]? = some (PairEnv.mk p latch) → ∀ a w', Step w a w' →
    a.CallsPair w q → ∀ as w'', Run Step w' as w'' → Spent w'' p q
  /-- Already while it adopts, its own functions do nothing, nor do those of earlier pairs. -/
  earlier : ∀ p, Adopting w p →
    (∀ value, w.rtResolvePromise p value = w ∧ w.rtRejectPromise p value = w) ∧
      ∀ q q' latch latch', q' < q → w.pairs[q]? = some (PairEnv.mk p latch) →
        w.pairs[q']? = some (PairEnv.mk p latch') →
          ∀ value, w.pairResolve q' value = w ∧ w.pairReject q' value = w

section Faith

variable {w : World}

theorem Invariant.settlesOnce (hi : Invariant ⟨w, none⟩) : SettlesOnce w :=
  fun p hp _ _ hrun => (run_lasts hi hrun).settled p hp

theorem Invariant.losesNoReaction (hi : Invariant ⟨w, none⟩) : LosesNoReaction w := by
  intro p
  refine ⟨fun hpending => ((hi.accounted p).pending hpending).1, fun reject hreject => ?_⟩
  obtain ⟨hfulfill, hrejected, hjobs⟩ := (hi.accounted p).settled reject hreject
  exact ⟨hjobs, hfulfill, hrejected⟩

variable {calls : Nat → Prop} {c c' : Config}

theorem Move.log_prefix (h : Move calls c c') : c.world.log <+: c'.world.log := by
  cases h with
  | quiet h =>
    simp [h.log]
  | create | takePromise | takePair | awaitThen | resumeThen => exact prefix_rfl
  | @settle w p value reject =>
    by_cases hstate : (w.promises p).state = .pending
    · obtain ⟨parked, -, heq⟩ := settleInternal_eq value reject hstate
      rw [heq]
      exact prefix_append ..
    · simp [settleInternal_of_settled hstate]
  | adopt | startReaction | startThenable => exact prefix_append ..
  | @subscribe w p hlt r =>
    rcases (w.promises p).state.pending_or_settled with hstate | ⟨reject, hstate⟩
    · rw [subscribe_of_pending hstate]
      exact prefix_append ..
    · rw [subscribe_of_settled hstate]
      exact prefix_append _ _

theorem Moves.startedJobs_prefix (h : Moves calls c c') :
    c.world.startedJobs <+: c'.world.startedJobs := by
  induction h with
  | refl => exact prefix_rfl
  | tail _ hmove ih => exact ih.trans (hmove.log_prefix.filterMap _)

theorem startedJobs_runJob (job : Job) : w.startedJobs <+: (w.runJob job).startedJobs := by
  have hreaction : ∀ handler capability argument rejected,
      Moves (fun _ => False) ⟨w, none⟩
        ⟨w.rtRunReactionJob handler capability argument rejected, none⟩ :=
    fun _ _ _ _ => (rtRunReactionJob_writes ..).1
  cases job with
  | reactionFulfill handler capability argument =>
    exact Moves.startedJobs_prefix (hreaction ..)
  | reactionReject handler capability argument =>
    exact Moves.startedJobs_prefix (hreaction ..)
  | thenable p thenable thenFn => exact prefix_rfl

theorem Invariant.runsInOrder (hi : Invariant ⟨w, none⟩) : RunsInOrder w := by
  refine ⟨hi.order, fun job queue rest hstack hqueue => ?_, fun a w' h hqueue => h.drains_le hqueue⟩
  have hloop : w.runsUserCode = false := by
    rw [runsUserCode, hstack]
    rfl
  refine ⟨({ w with queue := queue, log := w.log ++ [.started job] } : World).runJob job, ?_, ?_⟩
  · simp [Step, step, hloop, tick, hstack, drainStep, hqueue]
  · refine IsPrefix.trans ?_ (startedJobs_runJob job)
    simp [startedJobs, Event.started?]

/-- The value of `then` being callable, the job is on the queue. -/
theorem adopting_gotThen {p : Nat} {value thenFn : Value} (h : thenFn.isCallable = true) :
    Adopting (w.gotThen p value thenFn) p := by
  refine .inl ⟨value, w.inJobContext thenFn, ?_⟩
  simp [gotThen, h, rtEnqueueThenableJob, enqueue]

theorem Invariant.adoptsThenables (hi : Invariant ⟨w, none⟩) : AdoptsThenables w where
  adopts := by
    intro p value thenFn rest w' hstack hcallable hstep
    have huser : w.runsUserCode = true := by
      rw [runsUserCode, hstack]
      rfl
    rw [Step, step, if_pos huser, act, hstack] at hstep
    cases hstep
    exact adopting_gotThen hcallable
  pending := fun p hadopting => (hadopting.latched_pending hi).2
  until_called := fun p hadopting a w' hstep => Moves.adopting hstep.moves hi hadopting
  spent := by
    intro p q latch hq a w' hstep hcalls as w'' hrun
    have hi' := run_keeps hi (.snoc .nil hstep)
    obtain ⟨latch', hq', hlatch⟩ :=
      (run_lasts hi' hrun).pairs q p true (hstep.latches hi hq hcalls)
    obtain rfl := hlatch rfl
    exact (run_keeps hi' hrun).spent hq'
  earlier := by
    intro p hadopting
    refine ⟨own_spent (hadopting.latched_pending hi).1, ?_⟩
    intro q q' latch latch' hlt hq hq' value
    obtain rfl := hi.earlier q' q p latch' latch hlt hq' hq
    exact pair_spent hq' value

end Faith

/-- Who can still settle a promise whose own functions are spent: a `then` that is being read, a
queued job and the open pairs. -/
def World.settlers (w : World) (p : Nat) : Nat :=
  w.stack.countP (Frame.readsThenOf p) + w.queue.countP (Job.adopts p) +
    w.pairs.countP (PairEnv.opens p)

/-- **No promise is orphaned or settled twice**: in every world a run reaches, a promise that was
resolved and is pending has exactly one way left to be settled, and every other promise none but
its own functions, which a settled one has lost. -/
theorem settlers_eq {as : List Action} {w : World} (run : Run Step initial as w) (p : Nat) :
    w.settlers p =
        (if (w.promises p).state = .pending ∧ (w.promises p).alreadyResolved then 1 else 0) ∧
      ((w.promises p).state ≠ .pending → (w.promises p).alreadyResolved = true) := by
  have htoken := (run_keeps invariant_initial run).token p
  rw [Config.tokens, World.tokens, PromiseRecord.tokens,
    if_neg (Option.some_ne_none p).symm] at htoken
  have hsettlers : w.settlers p = w.stack.countP (Frame.readsThenOf p) +
    w.queue.countP (Job.adopts p) + w.pairs.countP (PairEnv.opens p) := rfl
  split_ifs at htoken ⊢ <;> grind

/-- A promise is resolved with an object. -/
theorem settlers_eq_thenable : ∃ w : World, (w.promises 0).state = .pending ∧
    w.settlers 0 = 1 := by
  have run : Run Step initial [.newPromise, .resolvePromise 0 (.object 1)] _ := run_of_foldlM rfl
  exact ⟨_, rfl, (settlers_eq run 0).1⟩

end Bronze.Promise
