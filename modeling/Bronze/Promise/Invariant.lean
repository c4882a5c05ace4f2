import Bronze.Promise.Moves

/-!
# What every move keeps

## Main results

* `Move.keeps`: a move keeps the invariant
-/

namespace Bronze.Promise

open List Function Event PromiseRecord PairEnv PromiseState Job

section Log

variable (p : Nat)

def Event.subscription? : Event → Option Reaction
  | .subscribed p' r => if p' = p then some r else none
  | _ => none

def Event.jobOf? : Event → Option Job
  | .enqueued (some p') job => if p' = p then some job else none
  | _ => none

def Event.enqueued? : Event → Option Job
  | .enqueued _ job => some job
  | _ => none

def Event.started? : Event → Option Job
  | .started job => some job
  | _ => none

namespace World

variable (w : World)

def subscriptions : List Reaction :=
  w.log.filterMap (Event.subscription? p)

/-- The reaction jobs a promise has put on the queue, in order. -/
def jobsOf : List Job :=
  w.log.filterMap (Event.jobOf? p)

/-- Every job that was put on the queue, in order. -/
def enqueuedJobs : List Job :=
  w.log.filterMap Event.enqueued?

/-- Every job that was started, in order. -/
def startedJobs : List Job :=
  w.log.filterMap Event.started?

end World

end Log

section Token

variable (p : Nat)

/-- A pair of the promise whose latch is free. -/
def PairEnv.opens (env : PairEnv) : Bool :=
  env.promise = p && !env.latch

/-- The own latch, and whether the promise has settled. -/
def PromiseRecord.tokens (r : PromiseRecord) : Nat :=
  (if r.alreadyResolved then 0 else 1) + if r.state = .pending then 0 else 1

/-- The right to settle the promise, wherever it is: with its own latch, a running `then`
getter, a queued thenable job or an open pair, or spent. -/
def World.tokens (w : World) : Nat :=
  (w.promises p).tokens + w.stack.countP (Frame.readsThenOf p) + w.queue.countP (Job.adopts p) +
    w.pairs.countP (PairEnv.opens p)

/-- The same, with what an operation holds in its hand. -/
def Config.tokens (c : Config) : Nat :=
  c.world.tokens p + if c.hand = some p then 1 else 0

end Token

/-- A flattened reaction list, as the subscriptions make it. -/
def flatten (handler : Reaction → Value) (subscriptions : List Reaction) : List Value :=
  subscriptions.flatMap fun r => [handler r, r.capability]

/-- The lists of a pending promise hold its subscriptions in order; those of a settled one are
gone, and its jobs are the subscriptions in order. -/
structure Accounted (r : PromiseRecord) (subscriptions : List Reaction) (jobs : List Job) :
    Prop where
  pending : r.state = .pending → jobs = [] ∧
    r.fulfillReactions.getD [] = flatten Reaction.onFulfilled subscriptions ∧
    r.rejectReactions.getD [] = flatten Reaction.onRejected subscriptions
  settled : ∀ reject, r.state = .settled reject →
    r.fulfillReactions = none ∧ r.rejectReactions = none ∧
      jobs = subscriptions.map fun s => s.job reject r.result

/-- **What holds of every world a run reaches.** -/
structure Invariant (c : Config) : Prop where
  unborn : ∀ p, c.world.nextPromise ≤ p → (c.world.promises p).core = PromiseRecord.fresh.core
  token : ∀ p, c.tokens p = 1
  accounted : ∀ p, Accounted (c.world.promises p) (c.world.subscriptions p) (c.world.jobsOf p)
  order : c.world.enqueuedJobs = c.world.startedJobs ++ c.world.queue
  /-- A pair is only made once the promise's own latch is taken. -/
  own : ∀ (q p : Nat) latch, c.world.pairs[q]? = some (PairEnv.mk p latch) →
    (c.world.promises p).alreadyResolved = true
  /-- And once every earlier pair's is. -/
  earlier : ∀ (q q' p : Nat) latch latch', q < q' → c.world.pairs[q]? = some (PairEnv.mk p latch) →
    c.world.pairs[q']? = some (PairEnv.mk p latch') → latch = true

section Reading

variable {w w' : World} {p : Nat}

@[simp] theorem reactionsOf_flatten (handler : Reaction → Value) (subs : List Reaction) :
    World.reactionsOf (flatten handler subs) = subs.map fun r => (handler r, r.capability) := by
  induction subs with
  | nil => rfl
  | cons r subs ih =>
    rw [map_cons, ← ih]
    rfl

theorem flatten_append (handler : Reaction → Value) (subs : List Reaction) (r : Reaction) :
    flatten handler (subs ++ [r]) = flatten handler subs ++ [handler r, r.capability] := by
  simp [flatten]

variable {r r' : PromiseRecord}

theorem Accounted.of_core {subs : List Reaction} {jobs : List Job}
    (h : Accounted r subs jobs) (hcore : r'.core = r.core) : Accounted r' subs jobs := by
  obtain ⟨hstate, hresult, hfulfill, hreject, -⟩ := core_eq_iff.mp hcore
  constructor
  · rw [hstate, hfulfill, hreject]
    exact h.pending
  · rw [hstate, hfulfill, hreject, hresult]
    exact h.settled

theorem tokens_of_core (hcore : r'.core = r.core) : r'.tokens = r.tokens := by
  obtain ⟨hstate, -, -, -, hlatch⟩ := core_eq_iff.mp hcore
  rw [tokens, hstate, hlatch, ← tokens]

end Reading

section Keeping

variable {calls : Nat → Prop} {c c' : Config} {w : World} {p : Nat}

theorem tokens_update (p p' : Nat) (r : PromiseRecord) :
    (update w.promises p r p').tokens =
      if p' = p then r.tokens else (w.promises p').tokens := by
  by_cases hp : p' = p
  · simp [hp]
  · rw [update_of_ne hp, if_neg hp]

theorem Invariant.of_hand (hi : Invariant ⟨w, some p⟩) :
    (w.promises p).alreadyResolved = true ∧ (w.promises p).state = .pending := by
  have htoken : w.tokens p + (if some p = some p then 1 else 0) = 1 := hi.token p
  rw [if_pos rfl, World.tokens, tokens] at htoken
  constructor
  · by_contra hlatch
    rw [if_neg hlatch] at htoken
    omega
  · by_contra hstate
    rw [if_neg hstate] at htoken
    omega

@[simp] theorem adopts_entryJob (value : Value) (reject : Bool) (entry : Value × Value) (p : Nat) :
    (World.entryJob value reject entry).adopts p = false := by
  cases reject <;> rfl

@[simp] theorem adopts_job (r : Reaction) (reject : Bool) (result : Value) (p : Nat) :
    (r.job reject result).adopts p = false := by
  cases reject <;> rfl

variable {q : Nat} {r : PromiseRecord} {subs : List Reaction} {jobs : List Job}
  {pairs : List PairEnv}

theorem countP_opens_set {p' : Nat} (h : pairs[q]? = some ⟨p', false⟩)
    (p : Nat) : (pairs.set q ⟨p', true⟩).countP (opens p) + (if p' = p then 1 else 0) =
      pairs.countP (opens p) := by
  obtain ⟨hlt, hget⟩ := List.getElem?_eq_some_iff.mp h
  rw [List.countP_set hlt, hget]
  by_cases hp : p' = p
  · have hpos : 0 < pairs.countP (opens p) :=
      countP_pos_iff.mpr ⟨_, mem_of_getElem? h, by simp [opens, hp]⟩
    simp [opens, hp]
    omega
  · simp [opens, hp]

theorem Move.tokens_eq (h : Move calls c c') (hi : Invariant c) (p : Nat) :
    c'.tokens p = c.tokens p := by
  cases h with
  | quiet h =>
    simp [Config.tokens, World.tokens, h.getThen p, h.queue, h.pairs, tokens_of_core (h.promises p)]
  | @create w =>
    have hfresh := hi.unborn w.nextPromise (Nat.le_refl _)
    have hself := tokens_of_core hfresh.symm
    simp only [Config.tokens, World.tokens, World.rtNewPromise, tokens_update]
    by_cases hp : p = w.nextPromise
    · rw [if_pos hp, hp, hself]
    · rw [if_neg hp]
  | @takePromise w p' hlt h =>
    simp only [Config.tokens, World.tokens, World.modifyPromise]
    by_cases hp : p = p'
    · subst hp
      simp [tokens, h]
      omega
    · simp [hp, Ne.symm hp]
  | @takePair w q p' hq h =>
    have hset := countP_opens_set h p
    simp only [Config.tokens, World.tokens, Option.some.injEq, reduceCtorEq, if_false]
    omega
  | @settle w p' value reject =>
    obtain ⟨hlatch, hstate⟩ := hi.of_hand
    obtain ⟨parked, -, heq⟩ := World.settleInternal_eq value reject hstate
    rw [heq]
    simp only [Config.tokens, World.tokens]
    by_cases hp : p = p'
    · subst hp
      simp [tokens, hstate, comp_def]
      omega
    · simp [hp, Ne.symm hp]
  | @awaitThen w p' value =>
    simp only [Config.tokens, World.tokens, World.push, countP_cons, Frame.readsThenOf]
    by_cases hp : p' = p
    · simp [hp]
      omega
    · simp [hp]
  | @resumeThen w p' value rest h =>
    simp only [Config.tokens, World.tokens, h, countP_cons, Frame.readsThenOf]
    by_cases hp : p' = p
    · simp [hp]
      omega
    · simp [hp]
  | @adopt w p' thenable thenFn =>
    simp only [Config.tokens, World.tokens, World.rtEnqueueThenableJob, World.enqueue,
      countP_append, countP_singleton, adopts]
    by_cases hp : p' = p
    · simp [hp]
      omega
    · simp [hp]
  | @subscribe w p' hlt r =>
    rcases (w.promises p').state.pending_or_settled with hstate | ⟨reject, hstate⟩
    · rw [World.subscribe_of_pending hstate]
      simp only [Config.tokens, World.tokens]
      by_cases hp : p = p'
      · subst hp
        simp [tokens]
      · simp [hp]
    · rw [World.subscribe_of_settled hstate]
      simp [Config.tokens, World.tokens]
  | @startReaction w job queue h hjob =>
    simp [Config.tokens, World.tokens, h, hjob p]
  | @startThenable w p' thenable thenFn queue h =>
    simp only [Config.tokens, World.tokens, World.rtRunThenableJob, h, countP_cons,
      countP_append, Frame.readsThenOf, adopts, opens]
    by_cases hp : p' = p
    · simp [hp]
      omega
    · simp [hp]

/-! ## No reaction is lost -/

theorem filterMap_jobOf (p p' : Nat) (jobs : List Job) :
    (jobs.map fun job => enqueued (some p') job).filterMap (jobOf? p) =
      if p' = p then jobs else [] := by
  by_cases hp : p' = p
  · simp [comp_def, jobOf?, hp]
  · simp [jobOf?, hp]

theorem filterMap_subscription (p p' : Nat) (jobs : List Job) :
    (jobs.map fun job => enqueued (some p') job).filterMap (subscription? p) = [] := by
  simp [subscription?]

section

variable (h : Accounted r subs jobs)

include h

theorem Accounted.settle (hstate : r.state = .pending) (value : Value)
    (reject : Bool) : Accounted { r with
        result := value, state := .settled reject
        fulfillReactions := none, rejectReactions := none } subs
      (jobs ++ (World.triggered r reject).map (World.entryJob value reject)) := by
  obtain ⟨rfl, hfulfill, hreject⟩ := h.pending hstate
  refine ⟨fun hpending => absurd hpending (settled_ne_pending reject),
    fun reject' hreject' => ?_⟩
  obtain rfl := settled_inj hreject'
  refine ⟨rfl, rfl, ?_⟩
  cases reject with
  | true =>
    simp [World.triggered, hreject, World.entryJob, Reaction.job]
  | false =>
    simp [World.triggered, hfulfill, World.entryJob, Reaction.job]

theorem Accounted.subscribe_pending (hstate : r.state = .pending)
    (s : Reaction) : Accounted { r with
        fulfillReactions := World.appendReaction r.fulfillReactions s.onFulfilled s.capability
        rejectReactions := World.appendReaction r.rejectReactions s.onRejected s.capability }
      (subs ++ [s]) jobs := by
  obtain ⟨hjobs, hfulfill, hreject⟩ := h.pending hstate
  refine ⟨fun _ => ⟨hjobs, ?_, ?_⟩, fun reject hreject' => ?_⟩
  · simp [World.appendReaction, hfulfill, flatten_append]
  · simp [World.appendReaction, hreject, flatten_append]
  · exact absurd (hreject'.symm.trans hstate) (settled_ne_pending reject)

theorem Accounted.subscribe_settled {reject : Bool} (hstate : r.state = .settled reject)
    (s : Reaction) : Accounted r (subs ++ [s]) (jobs ++ [s.job reject r.result]) := by
  refine ⟨fun hpending => absurd (hstate.symm.trans hpending)
    (settled_ne_pending reject), fun reject' hreject' => ?_⟩
  obtain rfl := settled_inj (hstate.symm.trans hreject')
  obtain ⟨hfulfill, hreject, hjobs⟩ := h.settled reject hstate
  exact ⟨hfulfill, hreject, by rw [hjobs, map_append]; rfl⟩

end

theorem Move.accounted (h : Move calls c c') (hi : Invariant c) (p : Nat) :
    Accounted (c'.world.promises p) (c'.world.subscriptions p) (c'.world.jobsOf p) := by
  have hp := hi.accounted p
  cases h with
  | quiet h =>
    rw [World.subscriptions, World.jobsOf, h.log]
    exact hp.of_core (h.promises p)
  | @create w =>
    refine hp.of_core ?_
    simp only [World.rtNewPromise, update_apply]
    split
    · rename_i heq
      rw [heq]
      exact (hi.unborn w.nextPromise (Nat.le_refl _)).symm
    · rfl
  | @takePromise w p' hlt h =>
    by_cases heq : p = p'
    · subst heq
      rw [World.modifyPromise_self]
      exact ⟨hp.pending, hp.settled⟩
    · rw [World.modifyPromise_of_ne heq]
      exact hp
  | takePair | awaitThen | resumeThen => exact hp
  | @settle w p' value reject =>
    obtain ⟨-, hstate⟩ := hi.of_hand
    obtain ⟨parked, -, heq⟩ := World.settleInternal_eq value reject hstate
    rw [heq]
    have hsubs := filterMap_subscription p p'
      ((World.triggered (w.promises p') reject).map (World.entryJob value reject))
    have hjobs := filterMap_jobOf p p'
      ((World.triggered (w.promises p') reject).map (World.entryJob value reject))
    rw [map_map] at hsubs hjobs
    simp only [World.subscriptions, World.jobsOf, filterMap_append]
    rw [show (fun r => enqueued (some p') (World.entryJob value reject r)) =
      (fun job => enqueued (some p') job) ∘ World.entryJob value reject from rfl,
      hsubs, hjobs, append_nil]
    by_cases heq : p = p'
    · subst heq
      rw [update_self, if_pos rfl]
      exact hp.settle hstate value reject
    · rw [update_of_ne heq, if_neg (Ne.symm heq), append_nil]
      exact hp
  | @adopt w p' thenable thenFn =>
    simpa [World.subscriptions, World.jobsOf, World.rtEnqueueThenableJob, World.enqueue,
      subscription?, jobOf?, filterMap_cons] using hp
  | @subscribe w p' hlt r =>
    rcases (w.promises p').state.pending_or_settled with hstate | ⟨reject, hstate⟩
    · rw [World.subscribe_of_pending hstate]
      by_cases heq : p = p'
      · subst heq
        simpa [World.subscriptions, World.jobsOf, filterMap_cons, subscription?,
          jobOf?] using hp.subscribe_pending hstate r
      · simpa [World.subscriptions, World.jobsOf, filterMap_cons, subscription?,
          jobOf?, heq, Ne.symm heq] using hp
    · rw [World.subscribe_of_settled hstate]
      by_cases heq : p = p'
      · subst heq
        simpa [World.subscriptions, World.jobsOf, filterMap_cons, subscription?,
          jobOf?] using hp.subscribe_settled hstate r
      · simpa [World.subscriptions, World.jobsOf, filterMap_cons, subscription?,
          jobOf?, Ne.symm heq] using hp
  | @startReaction w job queue h hjob =>
    simpa [World.subscriptions, World.jobsOf, subscription?, jobOf?,
      filterMap_cons] using hp
  | @startThenable w p' thenable thenFn queue h =>
    simpa [World.subscriptions, World.jobsOf, World.rtRunThenableJob, subscription?,
      jobOf?, filterMap_cons] using hp

theorem filterMap_enqueued (p : Nat) (jobs : List Job) :
    (jobs.map fun job => enqueued (some p) job).filterMap enqueued? = jobs := by
  simp [comp_def, enqueued?]

theorem filterMap_started (p : Nat) (jobs : List Job) :
    (jobs.map fun job => enqueued (some p) job).filterMap started? = [] := by
  simp [started?]

theorem Move.order (h : Move calls c c') (hi : Invariant c) :
    c'.world.enqueuedJobs = c'.world.startedJobs ++ c'.world.queue := by
  have horder := hi.order
  cases h with
  | quiet h =>
    rw [World.enqueuedJobs, World.startedJobs, h.log, h.queue]
    exact horder
  | create | takePromise | takePair | awaitThen | resumeThen => exact horder
  | @settle w p' value reject =>
    obtain ⟨-, hstate⟩ := hi.of_hand
    obtain ⟨parked, -, heq⟩ := World.settleInternal_eq value reject hstate
    rw [heq]
    have henqueued := filterMap_enqueued p'
      ((World.triggered (w.promises p') reject).map (World.entryJob value reject))
    have hstarted := filterMap_started p'
      ((World.triggered (w.promises p') reject).map (World.entryJob value reject))
    rw [map_map] at henqueued hstarted
    simp only [World.enqueuedJobs, World.startedJobs, filterMap_append]
    rw [show (fun r => enqueued (some p') (World.entryJob value reject r)) =
      (fun job => enqueued (some p') job) ∘ World.entryJob value reject from rfl,
      henqueued, hstarted, append_nil, ← append_assoc]
    exact congrArg (· ++ _) horder
  | @adopt w p' thenable thenFn =>
    simpa [World.enqueuedJobs, World.startedJobs, World.rtEnqueueThenableJob, World.enqueue,
      filterMap_cons, enqueued?, started?] using
        congrArg (· ++ [Job.thenable p' thenable thenFn]) horder
  | @subscribe w p' hlt r =>
    rcases (w.promises p').state.pending_or_settled with hstate | ⟨reject, hstate⟩
    · rw [World.subscribe_of_pending hstate]
      simpa [World.enqueuedJobs, World.startedJobs, filterMap_cons, enqueued?,
        started?] using horder
    · rw [World.subscribe_of_settled hstate]
      simpa [World.enqueuedJobs, World.startedJobs, filterMap_cons, enqueued?,
        started?] using congrArg (· ++ [r.job reject (w.promises p').result]) horder
  | @startReaction w job queue h hjob =>
    rw [h] at horder
    simpa [World.enqueuedJobs, World.startedJobs, filterMap_cons, enqueued?,
      started?] using horder
  | @startThenable w p' thenable thenFn queue h =>
    rw [h] at horder
    simpa [World.enqueuedJobs, World.startedJobs, World.rtRunThenableJob, filterMap_cons,
      enqueued?, started?] using horder

/-- What one world has settled or latched, another still has. -/
structure Lasts (w w' : World) : Prop where
  nextPromise : w.nextPromise ≤ w'.nextPromise
  settled : ∀ p, (w.promises p).state ≠ .pending →
    (w'.promises p).state = (w.promises p).state ∧
      (w'.promises p).result = (w.promises p).result
  latched : ∀ p, (w.promises p).alreadyResolved = true →
    (w'.promises p).alreadyResolved = true
  pairs : ∀ (q p : Nat) latch, w.pairs[q]? = some (PairEnv.mk p latch) →
    ∃ latch', w'.pairs[q]? = some (PairEnv.mk p latch') ∧ (latch = true → latch' = true)

theorem Lasts.refl (w : World) : Lasts w w where
  nextPromise := Nat.le_refl _
  settled := fun _ _ => ⟨rfl, rfl⟩
  latched := fun _ h => h
  pairs := fun _ _ latch h => ⟨latch, h, id⟩

theorem Lasts.trans {w w' w'' : World} (h : Lasts w w') (h' : Lasts w' w'') : Lasts w w'' where
  nextPromise := Nat.le_trans h.nextPromise h'.nextPromise
  settled := fun p hp => by
    obtain ⟨hstate, hresult⟩ := h.settled p hp
    obtain ⟨hstate', hresult'⟩ := h'.settled p (hstate.trans_ne hp)
    exact ⟨hstate'.trans hstate, hresult'.trans hresult⟩
  latched := fun p hp => h'.latched p (h.latched p hp)
  pairs := fun q p latch hq => by
    obtain ⟨latch', hq', hlatch⟩ := h.pairs q p latch hq
    obtain ⟨latch'', hq'', hlatch'⟩ := h'.pairs q p latch' hq'
    exact ⟨latch'', hq'', fun hl => hlatch' (hlatch hl)⟩

theorem Lasts.update {w' : World} (p : Nat) (hpromises : w'.promises = update w.promises p r)
    (hnext : w.nextPromise ≤ w'.nextPromise) (hpairs : w'.pairs = w.pairs)
    (hstate : (w.promises p).state ≠ .pending →
      r.state = (w.promises p).state ∧ r.result = (w.promises p).result)
    (hlatch : (w.promises p).alreadyResolved = true → r.alreadyResolved = true) : Lasts w w' := by
  refine ⟨hnext, fun p' hp' => ?_, fun p' hp' => ?_, fun q p' latch hq => ?_⟩
  · rw [hpromises, update_apply]
    split
    · rename_i heq
      subst heq
      exact hstate hp'
    · exact ⟨rfl, rfl⟩
  · rw [hpromises, update_apply]
    split
    · rename_i heq
      subst heq
      exact hlatch hp'
    · exact hp'
  · exact ⟨latch, by rwa [hpairs], id⟩

theorem Lasts.of_eq {w' : World} (hpromises : w'.promises = w.promises)
    (hnext : w'.nextPromise = w.nextPromise) (hpairs : w'.pairs = w.pairs) : Lasts w w' := by
  refine ⟨Nat.le_of_eq hnext.symm, fun p _ => ?_, fun p h => ?_, fun q p latch hq => ?_⟩
  · rw [hpromises]
    exact ⟨rfl, rfl⟩
  · rwa [hpromises]
  · exact ⟨latch, by rwa [hpairs], id⟩

theorem Move.lasts (h : Move calls c c') (hi : Invariant c) : Lasts c.world c'.world := by
  cases h with
  | quiet h =>
    refine ⟨Nat.le_of_eq h.nextPromise.symm, fun p _ => ?_, fun p hp => ?_, fun q p latch hq => ?_⟩
    · obtain ⟨hstate, hresult, -⟩ := core_eq_iff.mp (h.promises p)
      exact ⟨hstate, hresult⟩
    · obtain ⟨-, -, -, -, hlatch⟩ := core_eq_iff.mp (h.promises p)
      exact hlatch.trans hp
    · exact ⟨latch, by rwa [h.pairs], id⟩
  | @create w =>
    obtain ⟨hstate, -, -, -, hlatch⟩ :=
      core_eq_iff.mp (hi.unborn w.nextPromise (Nat.le_refl _))
    exact .update w.nextPromise rfl (Nat.le_succ _) rfl (absurd hstate)
      (fun h => absurd (hlatch.symm.trans h) (by decide))
  | @takePromise w p' hlt h =>
    exact .update p' rfl (Nat.le_refl _) rfl (fun _ => ⟨rfl, rfl⟩) (fun _ => rfl)
  | @takePair w q p' hq h =>
    refine ⟨Nat.le_refl _, fun _ _ => ⟨rfl, rfl⟩, fun _ h => h, fun q' p latch hq' => ?_⟩
    by_cases heq : q = q'
    · subst heq
      obtain ⟨rfl, rfl⟩ : p' = p ∧ false = latch := by simpa [h] using hq'
      obtain ⟨hlt, -⟩ := List.getElem?_eq_some_iff.mp h
      exact ⟨true, by simp [hlt], fun _ => rfl⟩
    · exact ⟨latch, by rwa [getElem?_set_ne heq], id⟩
  | @settle w p' value reject =>
    obtain ⟨-, hstate⟩ := hi.of_hand
    obtain ⟨parked, -, heq⟩ := World.settleInternal_eq value reject hstate
    rw [heq]
    exact .update p' rfl (Nat.le_refl _) rfl (absurd hstate) id
  | awaitThen | resumeThen | adopt | startReaction => exact .of_eq rfl rfl rfl
  | @subscribe w p' hlt r =>
    rcases (w.promises p').state.pending_or_settled with hstate | ⟨reject, hstate⟩
    · rw [World.subscribe_of_pending hstate]
      exact .update p' rfl (Nat.le_refl _) rfl (absurd hstate) id
    · rw [World.subscribe_of_settled hstate]
      exact .of_eq rfl rfl rfl
  | @startThenable w p' thenable thenFn queue h =>
    refine ⟨Nat.le_refl _, fun _ _ => ⟨rfl, rfl⟩, fun _ h => h, fun q p latch hq => ?_⟩
    refine ⟨latch, ?_, id⟩
    obtain ⟨hlt, -⟩ := List.getElem?_eq_some_iff.mp hq
    rw [World.rtRunThenableJob, List.getElem?_append_left hlt]
    exact hq

/-! ## The pairs -/

theorem Invariant.born (hi : Invariant c) (h : (c.world.promises p).alreadyResolved = true) :
    p < c.world.nextPromise := by
  refine Nat.lt_of_not_le fun hle => ?_
  obtain ⟨-, -, -, -, hlatch⟩ := core_eq_iff.mp (hi.unborn p hle)
  exact absurd (hlatch.symm.trans h) (by decide)

/-- While a thenable job of the promise is queued, the promise is latched and pending, and every
pair of it is latched. -/
theorem Invariant.of_queued (hi : Invariant c) (h : 0 < c.world.queue.countP (adopts p)) :
    (c.world.promises p).alreadyResolved = true ∧ (c.world.promises p).state = .pending ∧
      c.world.pairs.countP (opens p) = 0 := by
  have htoken := hi.token p
  rw [Config.tokens, World.tokens, tokens] at htoken
  refine ⟨?_, ?_, by omega⟩
  · by_contra hlatch
    rw [if_neg hlatch] at htoken
    omega
  · by_contra hstate
    rw [if_neg hstate] at htoken
    omega

/-- So it is while a pair of the promise is open, and no thenable job of it is queued. -/
theorem Invariant.of_open (hi : Invariant c) (h : 0 < c.world.pairs.countP (opens p)) :
    (c.world.promises p).alreadyResolved = true ∧ (c.world.promises p).state = .pending := by
  have htoken := hi.token p
  rw [Config.tokens, World.tokens, tokens] at htoken
  constructor
  · by_contra hlatch
    rw [if_neg hlatch] at htoken
    omega
  · by_contra hstate
    rw [if_neg hstate] at htoken
    omega

theorem countP_opens_pos (h : pairs[q]? = some ⟨p, false⟩) : 0 < pairs.countP (opens p) :=
  countP_pos_iff.mpr ⟨_, mem_of_getElem? h, by simp [opens]⟩

variable (h : Move calls c c')

include h

variable (hi : Invariant c)

include hi

theorem Move.pair_from {latch : Bool}
    (hq : c'.world.pairs[q]? = some ⟨p, latch⟩) : (∃ latch₀, c.world.pairs[q]? = some ⟨p, latch₀⟩) ∨
      q = c.world.pairs.length ∧ 0 < c.world.queue.countP (adopts p) := by
  cases h with
  | quiet h => exact .inl ⟨latch, by rwa [h.pairs] at hq⟩
  | create | takePromise | awaitThen | resumeThen | adopt | startReaction => exact .inl ⟨latch, hq⟩
  | @takePair w q' p' hq' h =>
    left
    by_cases heq : q' = q
    · subst heq
      obtain ⟨hlt, -⟩ := List.getElem?_eq_some_iff.mp h
      obtain ⟨rfl, -⟩ : p' = p ∧ true = latch := by simpa [hlt] using hq
      exact ⟨false, h⟩
    · exact ⟨latch, by rwa [getElem?_set_ne heq] at hq⟩
  | @settle w p' value reject =>
    obtain ⟨-, hstate⟩ := hi.of_hand
    obtain ⟨parked, -, heq⟩ := World.settleInternal_eq value reject hstate
    rw [heq] at hq
    exact .inl ⟨latch, hq⟩
  | @subscribe w p' hlt r =>
    rcases (w.promises p').state.pending_or_settled with hstate | ⟨reject, hstate⟩
    · rw [World.subscribe_of_pending hstate] at hq
      exact .inl ⟨latch, hq⟩
    · rw [World.subscribe_of_settled hstate] at hq
      exact .inl ⟨latch, hq⟩
  | @startThenable w p' thenable thenFn queue h =>
    rw [World.rtRunThenableJob] at hq
    rcases Nat.lt_or_ge q w.pairs.length with hlt | hge
    · rw [getElem?_append_left hlt] at hq
      exact .inl ⟨latch, hq⟩
    · rw [getElem?_append_right hge] at hq
      obtain ⟨hzero, heq⟩ : q - w.pairs.length = 0 ∧ mk p' false = ⟨p, latch⟩ := by
        simpa [getElem?_singleton] using hq
      cases heq
      refine .inr ⟨by show q = w.pairs.length; omega, ?_⟩
      simp [h, adopts]

theorem Move.own {q p : Nat} {latch : Bool}
    (hq : c'.world.pairs[q]? = some ⟨p, latch⟩) : (c'.world.promises p).alreadyResolved = true := by
  apply (h.lasts hi).latched
  rcases h.pair_from hi hq with ⟨latch₀, hq₀⟩ | ⟨-, hqueued⟩
  · exact hi.own q p latch₀ hq₀
  · exact (hi.of_queued hqueued).1

theorem Move.earlier {q q' p : Nat} {latch latch' : Bool}
    (hlt : q < q') (hq : c'.world.pairs[q]? = some ⟨p, latch⟩)
    (hq' : c'.world.pairs[q']? = some ⟨p, latch'⟩) : latch = true := by
  have hearlier : ∃ latch₀, c.world.pairs[q]? = some ⟨p, latch₀⟩ ∧ latch₀ = true := by
    rcases h.pair_from hi hq' with ⟨latch₀', hq₀'⟩ | ⟨rfl, hqueued⟩
    · obtain ⟨hlt', -⟩ := List.getElem?_eq_some_iff.mp hq₀'
      rcases h.pair_from hi hq with ⟨latch₀, hq₀⟩ | ⟨rfl, -⟩
      · exact ⟨latch₀, hq₀, hi.earlier q q' p latch₀ latch₀' hlt hq₀ hq₀'⟩
      · omega
    · rcases h.pair_from hi hq with ⟨latch₀, hq₀⟩ | ⟨rfl, -⟩
      · refine ⟨latch₀, hq₀, ?_⟩
        -- the job being queued, no pair of the promise is open
        have hclosed := (hi.of_queued hqueued).2.2
        cases latch₀ with
        | true => rfl
        | false => exact absurd (countP_opens_pos hq₀) (by omega)
      · exact absurd hlt (Nat.lt_irrefl _)
  obtain ⟨latch₀, hq₀, hlatch₀⟩ := hearlier
  obtain ⟨latch₁, hq₁, hlatch₁⟩ := (h.lasts hi).pairs q p latch₀ hq₀
  obtain rfl : latch = latch₁ := by simpa [hq] using hq₁
  exact hlatch₁ hlatch₀

theorem Move.unborn (p : Nat)
    (hp : c'.world.nextPromise ≤ p) : (c'.world.promises p).core = fresh.core := by
  have hold : (c.world.promises p).core = fresh.core :=
    hi.unborn p (Nat.le_trans (h.lasts hi).nextPromise hp)
  cases h with
  | quiet h => exact (h.promises p).trans hold
  | @create w =>
    have hne : p ≠ w.nextPromise := by
      have : w.nextPromise + 1 ≤ p := hp
      omega
    simp only [World.rtNewPromise, update_of_ne hne]
    exact hold
  | @takePromise w p' hlt h =>
    rw [World.modifyPromise_of_ne (Nat.ne_of_gt (Nat.lt_of_lt_of_le hlt hp))]
    exact hold
  | takePair | awaitThen | resumeThen | adopt | startReaction | startThenable => exact hold
  | @settle w p' value reject =>
    obtain ⟨hlatch, hstate⟩ := hi.of_hand
    have hlt : p' < w.nextPromise := hi.born hlatch
    obtain ⟨parked, -, heq⟩ := World.settleInternal_eq value reject hstate
    rw [heq] at hp ⊢
    simp only [update_of_ne (Nat.ne_of_gt (Nat.lt_of_lt_of_le hlt hp))]
    exact hold
  | @subscribe w p' hlt r =>
    rcases (w.promises p').state.pending_or_settled with hstate | ⟨reject, hstate⟩
    · rw [World.subscribe_of_pending hstate] at hp ⊢
      simp only [update_of_ne (Nat.ne_of_gt (Nat.lt_of_lt_of_le hlt hp))]
      exact hold
    · rw [World.subscribe_of_settled hstate]
      exact hold

/-- **A move keeps the invariant.** -/
theorem Move.keeps : Invariant c' where
  unborn := h.unborn hi
  token := fun p => (h.tokens_eq hi p).trans (hi.token p)
  accounted := h.accounted hi
  order := h.order hi
  own := fun _ _ _ => h.own hi
  earlier := fun _ _ _ _ _ => h.earlier hi

end Keeping

end Bronze.Promise
