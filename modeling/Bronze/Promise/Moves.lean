import Bronze.Promise.Machine

/-!
# The writes a step is made of

Every operation on promises is a few writes in a row. What ties them together is the right to
settle a promise: a latch hands it out once, and from then on it is waiting in a `then` getter, in
a thenable job or in the unlatched pair of one, until a settle spends it. A `Config` is a world
together with the right an operation holds between two of its writes.

## Main results

* `Step.turn`: a step, by what calls it
* `Step.moves`: a step is a sequence of moves, and takes the latch only of a pair it calls
-/

namespace Bronze.Promise

namespace PromiseState

@[simp] theorem settled_ne_pending (reject : Bool) : settled reject ≠ .pending := by
  cases reject <;> exact fun h => nomatch h

theorem settled_inj {reject reject' : Bool} (h : settled reject = settled reject') :
    reject = reject' := by
  cases reject <;> cases reject' <;> first | rfl | cases h

theorem pending_or_settled (s : PromiseState) : s = .pending ∨ ∃ reject, s = settled reject := by
  cases s with
  | pending => exact .inl rfl
  | fulfilled => exact .inr ⟨false, rfl⟩
  | rejected => exact .inr ⟨true, rfl⟩

end PromiseState

namespace PromiseRecord

/-- The slots that decide how a promise settles. -/
def core (r : PromiseRecord) : PromiseRecord :=
  { r with isHandled := false, reported := false }

theorem core_eq_iff {r r' : PromiseRecord} :
    r.core = r'.core ↔ r.state = r'.state ∧ r.result = r'.result ∧
      r.fulfillReactions = r'.fulfillReactions ∧ r.rejectReactions = r'.rejectReactions ∧
      r.alreadyResolved = r'.alreadyResolved := by
  cases r
  cases r'
  simp [core]

end PromiseRecord

namespace World

variable {w : World}

@[simp] theorem modifyPromise_self (p : Nat) (f : PromiseRecord → PromiseRecord) :
    (w.modifyPromise p f).promises p = f (w.promises p) :=
  Function.update_self ..

theorem modifyPromise_of_ne {p p' : Nat} (h : p' ≠ p) (f : PromiseRecord → PromiseRecord) :
    (w.modifyPromise p f).promises p' = w.promises p' :=
  Function.update_of_ne h ..

section Settle

variable {p : Nat} {value : Value} {reject : Bool}

/-- The job of an entry of a reaction list. -/
def entryJob (value : Value) (reject : Bool) (entry : Value × Value) : Job :=
  if reject then .reactionReject entry.1 entry.2 value
  else .reactionFulfill entry.1 entry.2 value

theorem foldl_enqueue (entries : List (Value × Value)) (w : World) :
    entries.foldl (fun w r => w.rtEnqueueReactionJob p r.1 r.2 value reject) w =
      { w with
        queue := w.queue ++ entries.map (entryJob value reject)
        log := w.log ++ entries.map fun r => .enqueued (some p) (entryJob value reject r) } := by
  induction entries generalizing w with
  | nil => simp
  | cons entry entries ih =>
    rw [List.foldl_cons, ih]
    simp [rtEnqueueReactionJob, enqueue, entryJob]

/-- The entries a settle turns into jobs. -/
def triggered (r : PromiseRecord) (reject : Bool) : List (Value × Value) :=
  reactionsOf ((if reject then r.rejectReactions else r.fulfillReactions).getD [])

theorem settleInternal_of_settled (h : (w.promises p).state ≠ .pending) :
    w.settleInternal p value reject = w := by
  rw [settleInternal, if_pos h]

theorem settleInternal_eq (value : Value) (reject : Bool) (h : (w.promises p).state = .pending) :
    ∃ parked, (parked = w.parked ∨
        (w.promises p).isHandled = false ∧ reject = true ∧ parked = w.parked ++ [p]) ∧
      w.settleInternal p value reject =
      { w with
        promises := Function.update w.promises p
          { w.promises p with
            result := value, state := .settled reject
            fulfillReactions := none, rejectReactions := none }
        parked := parked
        queue := w.queue ++ (triggered (w.promises p) reject).map (entryJob value reject)
        log := w.log ++ (triggered (w.promises p) reject).map
          fun r => .enqueued (some p) (entryJob value reject r) } := by
  have hcond : ¬ (w.promises p).state ≠ .pending := not_not_intro h
  by_cases hpark : (reject && !(w.promises p).isHandled) = true
  · by_cases hmem : p ∈ w.parked
    · refine ⟨w.parked, .inl rfl, ?_⟩
      simp [settleInternal, hcond, foldl_enqueue, modifyPromise, rtParkRejection, hmem, triggered]
    · refine ⟨w.parked ++ [p], .inr (by simp_all), ?_⟩
      simp [settleInternal, hcond, foldl_enqueue, modifyPromise, hpark, rtParkRejection, hmem,
        triggered]
  · refine ⟨w.parked, .inl rfl, ?_⟩
    simp [settleInternal, hcond, foldl_enqueue, modifyPromise, hpark, triggered]

end Settle

section Subscribe

variable {p : Nat} {r : Reaction}

theorem subscribe_of_pending (h : (w.promises p).state = .pending) :
    w.subscribe p r =
      { w with
        promises := Function.update w.promises p
          { w.promises p with
            fulfillReactions :=
              appendReaction (w.promises p).fulfillReactions r.onFulfilled r.capability
            rejectReactions :=
              appendReaction (w.promises p).rejectReactions r.onRejected r.capability }
        log := w.log ++ [.subscribed p r] } := by
  simp [subscribe, h, modifyPromise]

theorem subscribe_of_settled {reject : Bool} (h : (w.promises p).state = .settled reject) :
    w.subscribe p r =
      { w with
        queue := w.queue ++ [r.job reject (w.promises p).result]
        log := w.log ++ [.subscribed p r,
          .enqueued (some p) (r.job reject (w.promises p).result)] } := by
  cases reject <;>
    simp [subscribe, h, PromiseState.settled, rtEnqueueReactionJob, enqueue, Reaction.job]

end Subscribe

end World

/-- The frame waits for the `then` of a value the promise is resolved with. -/
def Frame.readsThenOf (p : Nat) : Frame → Bool
  | .getThen p' _ => p' = p
  | _ => false

/-- The job adopts a thenable on behalf of the promise. -/
def Job.adopts (p : Nat) : Job → Bool
  | .thenable p' _ _ => p' = p
  | _ => false

/-- A change that leaves alone the promises' states and lists, the pairs, the queue, the log and
the `then` getters that are running. -/
structure Quiet (w w' : World) : Prop where
  promises : ∀ p, (w'.promises p).core = (w.promises p).core
  nextPromise : w'.nextPromise = w.nextPromise
  pairs : w'.pairs = w.pairs
  queue : w'.queue = w.queue
  log : w'.log = w.log
  getThen : ∀ p, w'.stack.countP (Frame.readsThenOf p) = w.stack.countP (Frame.readsThenOf p)

/-- A world, and the promise an operation has the right to settle. -/
structure Config where
  world : World
  hand : Option Nat

/-- One write. `calls` says whose latches may be taken. -/
inductive Move (calls : Nat → Prop) : Config → Config → Prop
  | quiet {w w' : World} (h : Quiet w w') : Move calls ⟨w, none⟩ ⟨w', none⟩
  | create {w : World} : Move calls ⟨w, none⟩ ⟨w.rtNewPromise, none⟩
  | takePromise {w : World} {p : Nat} (hlt : p < w.nextPromise)
      (h : (w.promises p).alreadyResolved = false) :
      Move calls ⟨w, none⟩
        ⟨w.modifyPromise p fun r => { r with alreadyResolved := true }, some p⟩
  | takePair {w : World} {q p : Nat} (hq : calls q) (h : w.pairs[q]? = some ⟨p, false⟩) :
      Move calls ⟨w, none⟩ ⟨{ w with pairs := w.pairs.set q ⟨p, true⟩ }, some p⟩
  | settle {w : World} {p : Nat} (value : Value) (reject : Bool) :
      Move calls ⟨w, some p⟩ ⟨w.settleInternal p value reject, none⟩
  | awaitThen {w : World} {p : Nat} (value : Value) :
      Move calls ⟨w, some p⟩ ⟨w.push (.getThen p value), none⟩
  | resumeThen {w : World} {p : Nat} {value : Value} {rest : List Frame}
      (h : w.stack = .getThen p value :: rest) :
      Move calls ⟨w, none⟩ ⟨{ w with stack := rest }, some p⟩
  | adopt {w : World} {p : Nat} (thenable thenFn : Value) :
      Move calls ⟨w, some p⟩ ⟨w.rtEnqueueThenableJob p thenable thenFn, none⟩
  | subscribe {w : World} {p : Nat} (hlt : p < w.nextPromise) (r : Reaction) :
      Move calls ⟨w, none⟩ ⟨w.subscribe p r, none⟩
  | startReaction {w : World} {job : Job} {queue : List Job} (h : w.queue = job :: queue)
      (hjob : ∀ p, job.adopts p = false) :
      Move calls ⟨w, none⟩ ⟨{ w with queue := queue, log := w.log ++ [.started job] }, none⟩
  | startThenable {w : World} {p : Nat} {thenable thenFn : Value} {queue : List Job}
      (h : w.queue = .thenable p thenable thenFn :: queue) :
      Move calls ⟨w, none⟩
        ⟨({ w with queue := queue, log := w.log ++ [.started (.thenable p thenable thenFn)] } :
          World).rtRunThenableJob p thenable thenFn, none⟩

/-- Several writes in a row. -/
abbrev Moves (calls : Nat → Prop) : Config → Config → Prop :=
  Relation.ReflTransGen (Move calls)

variable {calls : Nat → Prop} {w w' : World}

namespace Quiet

theorem of_eq (hpromises : w'.promises = w.promises) (hnext : w'.nextPromise = w.nextPromise)
    (hpairs : w'.pairs = w.pairs) (hqueue : w'.queue = w.queue) (hlog : w'.log = w.log)
    (hstack : ∀ p, w'.stack.countP (Frame.readsThenOf p) = w.stack.countP (Frame.readsThenOf p)) :
    Quiet w w' :=
  ⟨fun p => by rw [hpromises], hnext, hpairs, hqueue, hlog, hstack⟩

/-- A frame that is no `then` getter comes or goes unseen. -/
theorem of_stack (stack : List Frame)
    (h : ∀ p, stack.countP (Frame.readsThenOf p) = w.stack.countP (Frame.readsThenOf p)) :
    Quiet w { w with stack := stack } :=
  .of_eq rfl rfl rfl rfl rfl h

theorem push {frame : Frame} (h : ∀ p, frame.readsThenOf p = false) : Quiet w (w.push frame) :=
  .of_stack _ fun p => List.countP_cons_of_neg (by simp [h p])

theorem pop {frame : Frame} {rest : List Frame} (hstack : w.stack = frame :: rest)
    (h : ∀ p, frame.readsThenOf p = false) : Quiet w { w with stack := rest } :=
  .of_stack _ fun p => by rw [hstack, List.countP_cons_of_neg (by simp [h p])]

theorem trans {w'' : World} (h : Quiet w w') (h' : Quiet w' w'') : Quiet w w'' where
  promises := fun p => (h'.promises p).trans (h.promises p)
  nextPromise := h'.nextPromise.trans h.nextPromise
  pairs := h'.pairs.trans h.pairs
  queue := h'.queue.trans h.queue
  log := h'.log.trans h.log
  getThen := fun p => (h'.getThen p).trans (h.getThen p)

theorem modifyPromise (p : Nat) {f : PromiseRecord → PromiseRecord}
    (hf : ∀ r, (f r).core = r.core) : Quiet w (w.modifyPromise p f) := by
  refine ⟨fun p' => ?_, rfl, rfl, rfl, rfl, fun _ => rfl⟩
  by_cases hp : p' = p
  · rw [hp, World.modifyPromise_self, hf]
  · rw [World.modifyPromise_of_ne hp]

end Quiet

/-! ## What the registry of rejections does not see -/

def Frame.CallsHook : Frame → Prop
  | .reportHook _ | .handledHook _ => True
  | _ => False

/-- A change that handles and reports no promise, and calls no hook: it can call other code, and
reject promises. -/
structure Advances (w w' : World) : Prop where
  stack : ∃ frames, w'.stack = frames ++ w.stack ∧ ∀ f ∈ frames, ¬f.CallsHook
  isHandled : ∀ p, (w'.promises p).isHandled = (w.promises p).isHandled
  reported : ∀ p, (w'.promises p).reported = (w.promises p).reported
  settled : ∀ p, (w.promises p).state ≠ .pending → (w'.promises p).state = (w.promises p).state
  parked : ∃ ps, w'.parked = w.parked ++ ps ∧ ps.Nodup ∧ ∀ p ∈ ps, (w.promises p).state = .pending ∧
    (w'.promises p).state = .rejected ∧ (w.promises p).isHandled = false
  nextPromise : w'.nextPromise = w.nextPromise

namespace Advances

variable {w'' : World}

theorem of_eq {s : List Frame} (hstack : w'.stack = s ++ w.stack) (hframes : ∀ f ∈ s, ¬f.CallsHook)
    (hpromises : ∀ p, (w'.promises p).isHandled = (w.promises p).isHandled ∧
      (w'.promises p).reported = (w.promises p).reported ∧
      (w'.promises p).state = (w.promises p).state)
    (hparked : w'.parked = w.parked) (hnext : w'.nextPromise = w.nextPromise) : Advances w w' where
  stack := ⟨s, hstack, hframes⟩
  isHandled p := (hpromises p).1
  reported p := (hpromises p).2.1
  settled p _ := (hpromises p).2.2
  parked := ⟨[], by simp [hparked], List.nodup_nil, nofun⟩
  nextPromise := hnext

theorem of_same (hstack : w'.stack = w.stack) (hpromises : w'.promises = w.promises)
    (hparked : w'.parked = w.parked) (hnext : w'.nextPromise = w.nextPromise) : Advances w w' :=
  of_eq (s := []) hstack nofun (by simp [hpromises]) hparked hnext

theorem refl (w : World) : Advances w w := of_same rfl rfl rfl rfl

theorem trans (h : Advances w w') (h' : Advances w' w'') : Advances w w'' where
  stack := by
    obtain ⟨frames, hstack, hframes⟩ := h.stack
    obtain ⟨frames', hstack', hframes'⟩ := h'.stack
    refine ⟨frames' ++ frames, by simp [hstack', hstack], fun f hf => ?_⟩
    exact (List.mem_append.mp hf).elim (hframes' f) (hframes f)
  isHandled p := (h'.isHandled p).trans (h.isHandled p)
  reported p := (h'.reported p).trans (h.reported p)
  settled p hp := (h'.settled p (h.settled p hp ▸ hp)).trans (h.settled p hp)
  parked := by
    obtain ⟨ps, hparked, hnodup, hps⟩ := h.parked
    obtain ⟨ps', hparked', hnodup', hps'⟩ := h'.parked
    have hrejected : ∀ p ∈ ps, (w'.promises p).state ≠ .pending := fun p hp => by
      rw [(hps p hp).2.1]
      nofun
    refine ⟨ps ++ ps', by simp [hparked', hparked],
      List.nodup_append.mpr ⟨hnodup, hnodup', fun p hp p' hp' => ?_⟩, fun p hp => ?_⟩
    · rintro rfl
      exact hrejected p hp (hps' p hp').1
    · rcases List.mem_append.mp hp with hp | hp
      · obtain ⟨hpending, hstate, hhandled⟩ := hps p hp
        exact ⟨hpending, (h'.settled p (hrejected p hp)).trans hstate, hhandled⟩
      · obtain ⟨hpending, hstate, hhandled⟩ := hps' p hp
        refine ⟨?_, hstate, (h.isHandled p).symm.trans hhandled⟩
        by_contra hsettled
        exact hsettled ((h.settled p hsettled).symm.trans hpending)
  nextPromise := h'.nextPromise.trans h.nextPromise

theorem push {frame : Frame} (h : ¬frame.CallsHook) : Advances w (w.push frame) :=
  of_eq (s := [frame]) rfl (by simpa using h) (fun _ => ⟨rfl, rfl, rfl⟩) rfl rfl

theorem settleInternal (p : Nat) (value : Value) (reject : Bool) :
    Advances w (w.settleInternal p value reject) := by
  by_cases h : (w.promises p).state = .pending
  · obtain ⟨parked, hparked, heq⟩ := World.settleInternal_eq value reject h
    rw [heq]
    refine ⟨⟨[], rfl, nofun⟩, fun p' => ?_, fun p' => ?_, fun p' hp' => ?_, ?_, rfl⟩
    · by_cases hp : p' = p <;> simp [hp]
    · by_cases hp : p' = p <;> simp [hp]
    · have hp : p' ≠ p := fun hp => hp' (hp ▸ h)
      simp [hp]
    · rcases hparked with rfl | ⟨hhandled, rfl, rfl⟩
      · exact ⟨[], by simp, List.nodup_nil, nofun⟩
      · exact ⟨[p], rfl, by simp, by simp [h, hhandled, PromiseState.settled]⟩
  · rw [World.settleInternal_of_settled h]
    exact refl w

theorem latch (p : Nat) :
    Advances w (w.modifyPromise p fun r => { r with alreadyResolved := true }) := by
  refine of_eq (s := []) rfl nofun (fun p' => ?_) rfl rfl
  by_cases hp : p' = p
  · subst hp
    simp
  · simp [World.modifyPromise_of_ne hp]

end Advances

/-- Several writes, all of them unseen by the registry. -/
def Writes (calls : Nat → Prop) (c c' : Config) : Prop :=
  Moves calls c c' ∧ Advances c.world c'.world

namespace Writes

variable {c c' c'' : Config} {p : Nat}

theorem refl : Writes calls c c := ⟨.refl, .refl _⟩

theorem trans (h : Writes calls c c') (h' : Writes calls c' c'') : Writes calls c c'' :=
  ⟨h.1.trans h'.1, h.2.trans h'.2⟩

theorem push {frame : Frame} (h : ∀ p, frame.readsThenOf p = false) (h' : ¬frame.CallsHook) :
    Writes calls ⟨w, none⟩ ⟨w.push frame, none⟩ :=
  ⟨.single (.quiet (.push h)), .push h'⟩

theorem settle (value : Value) (reject : Bool) :
    Writes calls ⟨w, some p⟩ ⟨w.settleInternal p value reject, none⟩ :=
  ⟨.single (.settle value reject), .settleInternal p value reject⟩

end Writes

namespace World

theorem runResolutionSteps_writes (p : Nat) (value : Value) :
    Writes calls ⟨w, some p⟩ ⟨w.runResolutionSteps p value, none⟩ := by
  rw [runResolutionSteps]
  split
  · exact .settle ..
  · split
    · exact .settle ..
    · exact ⟨.single (.awaitThen _), .push nofun⟩

theorem gotThen_writes (p : Nat) (value thenFn : Value) :
    Writes calls ⟨w, some p⟩ ⟨w.gotThen p value thenFn, none⟩ := by
  rw [gotThen]
  split
  · exact .settle ..
  · exact ⟨.single (.adopt ..), .of_same rfl rfl rfl rfl⟩

variable {p q : Nat} {rest : List Frame}

theorem takePromiseLatch_writes (hlt : p < w.nextPromise) (h : w.takePromiseLatch p = some w') :
    Writes calls ⟨w, none⟩ ⟨w', some p⟩ := by
  rw [takePromiseLatch] at h
  split at h
  · cases h
  · rename_i hlatch
    cases h
    exact ⟨.single (.takePromise hlt (by simpa using hlatch)), .latch p⟩

theorem takePairLatch_writes (hq : calls q) (h : w.takePairLatch q = some (p, w')) :
    Writes calls ⟨w, none⟩ ⟨w', some p⟩ := by
  rw [takePairLatch] at h
  split at h
  · rename_i env henv
    split at h
    · cases h
    · rename_i hlatch
      obtain ⟨promise, latch⟩ := env
      cases h
      obtain rfl : latch = false := by simpa using hlatch
      exact ⟨.single (.takePair hq henv), .of_same rfl rfl rfl rfl⟩
  · cases h

theorem rtResolvePromise_writes (hlt : p < w.nextPromise) (value : Value) :
    Writes calls ⟨w, none⟩ ⟨w.rtResolvePromise p value, none⟩ := by
  rw [rtResolvePromise]
  split
  · exact (takePromiseLatch_writes hlt ‹_›).trans (runResolutionSteps_writes p value)
  · exact .refl

theorem rtRejectPromise_writes (hlt : p < w.nextPromise) (reason : Value) :
    Writes calls ⟨w, none⟩ ⟨w.rtRejectPromise p reason, none⟩ := by
  rw [rtRejectPromise]
  split
  · exact (takePromiseLatch_writes hlt ‹_›).trans (.settle ..)
  · exact .refl

theorem pairResolve_writes (hq : calls q) (value : Value) :
    Writes calls ⟨w, none⟩ ⟨w.pairResolve q value, none⟩ := by
  rw [pairResolve]
  split
  · exact (takePairLatch_writes hq ‹_›).trans (runResolutionSteps_writes _ value)
  · exact .refl

theorem pairReject_writes (hq : calls q) (reason : Value) :
    Writes calls ⟨w, none⟩ ⟨w.pairReject q reason, none⟩ := by
  rw [pairReject]
  split
  · exact (takePairLatch_writes hq ‹_›).trans (.settle ..)
  · exact .refl

theorem rtNotifyRejectionHandled_quiet (p : Nat) : Quiet w (w.rtNotifyRejectionHandled p) := by
  rw [rtNotifyRejectionHandled]
  split
  · exact .push fun _ => rfl
  · exact .of_eq rfl rfl rfl rfl rfl fun _ => rfl

theorem rtPerformPromiseThen_moves (hlt : p < w.nextPromise)
    (onFulfilled onRejected capability : Value) :
    Moves calls ⟨w, none⟩ ⟨w.rtPerformPromiseThen p onFulfilled onRejected capability, none⟩ := by
  refine .head (.subscribe hlt (w.reaction onFulfilled onRejected capability)) ?_
  refine .single (.quiet ?_)
  rw [rtPerformPromiseThen]
  generalize w.subscribe p _ = w₁
  -- marked handled, and off the registry
  have hmark : Quiet w₁
      ((w₁.modifyPromise p fun r => { r with isHandled := true }).rtUnparkRejection p) :=
    (Quiet.modifyPromise p (f := fun r => { r with isHandled := true }) fun _ => rfl).trans
      (.of_eq rfl rfl rfl rfl rfl fun _ => rfl)
  split
  · have hforget := Quiet.modifyPromise (w := (w₁.modifyPromise p fun r =>
      { r with isHandled := true }).rtUnparkRejection p) p
      (f := fun r => { r with reported := false }) fun _ => rfl
    exact hmark.trans (hforget.trans (rtNotifyRejectionHandled_quiet p))
  · exact hmark

theorem rtSettleCapability_writes (capability value : Value) (reject : Bool) :
    Writes calls ⟨w, none⟩ ⟨w.rtSettleCapability capability value reject, none⟩ := by
  cases capability with
  | capability promise resolveFn rejectFn =>
    unfold rtSettleCapability
    dsimp only
    generalize (if reject then rejectFn else resolveFn) = fn
    by_cases hfn : fn.isCallable
    · simp only [hfn]
      exact .push (fun _ => rfl) nofun
    · simp only [hfn]
      cases promise with
      | promise p =>
        by_cases hlt : w.nextPromise ≤ p
        · simp only [hlt]
          exact .refl
        · cases reject with
          | true => simpa [hlt] using rtRejectPromise_writes (Nat.lt_of_not_le hlt) value
          | false => simpa [hlt] using rtResolvePromise_writes (Nat.lt_of_not_le hlt) value
      | _ => exact .refl
  | _ => exact .refl

theorem finishReactionJob_writes (capability result : Value) (resultRejected : Bool) :
    Writes calls ⟨w, none⟩ ⟨w.finishReactionJob capability result resultRejected, none⟩ := by
  rw [finishReactionJob]
  split
  · exact .refl
  · exact rtSettleCapability_writes _ _ _

theorem rtRunReactionJob_writes (handler capability argument : Value) (rejected : Bool) :
    Writes calls ⟨w, none⟩ ⟨w.rtRunReactionJob handler capability argument rejected, none⟩ := by
  rw [rtRunReactionJob]
  split
  · exact .push (fun _ => rfl) nofun
  · exact finishReactionJob_writes _ _ _

theorem runJob_writes {job : Job} {queue : List Job} (h : w.queue = job :: queue) :
    Writes calls ⟨w, none⟩
      ⟨({ w with queue := queue, log := w.log ++ [.started job] } : World).runJob job, none⟩ := by
  have hreaction : (∀ p, job.adopts p = false) → Writes calls ⟨w, none⟩
      ⟨{ w with queue := queue, log := w.log ++ [.started job] }, none⟩ :=
    fun hjob => ⟨.single (.startReaction h hjob), .of_same rfl rfl rfl rfl⟩
  cases job with
  | reactionFulfill handler capability argument =>
    exact (hreaction fun _ => rfl).trans (rtRunReactionJob_writes ..)
  | reactionReject handler capability argument =>
    exact (hreaction fun _ => rfl).trans (rtRunReactionJob_writes ..)
  | thenable p thenable thenFn =>
    exact ⟨.single (.startThenable h), .of_eq (s := [_]) rfl (by simp [Frame.CallsHook])
      (fun _ => ⟨rfl, rfl, rfl⟩) rfl rfl⟩

end World

/-! ## Steps -/

/-- The action calls a function of the pair, or throws out of the `then` the pair was made for. -/
def Action.CallsPair (w : World) (q : Nat) : Action → Prop
  | .pairResolve q' _ => q' = q
  | .pairReject q' _ => q' = q
  | .outcome (.threw _) => ∃ thenable thenFn rest, w.stack = .thenable q thenable thenFn :: rest
  | _ => False

/-- What a step does: it subscribes or reports, or it takes frames off the stack, a drain only if
its queue is empty, and then writes what the registry does not see. -/
inductive Turn (w : World) : Action → World → Prop
  | advance {a : Action} {st : List Frame} {hand : Option Nat} {w' : World}
    (hst : st <:+ w.stack)
    (hdrains : w.queue ≠ [] → st.count .drain = w.stack.count .drain)
    (hpop : Moves (a.CallsPair w) ⟨w, none⟩ ⟨{ w with stack := st }, hand⟩)
    (h : Writes (a.CallsPair w) ⟨{ w with stack := st }, hand⟩ ⟨w', none⟩) : Turn w a w'
  | create : Turn w .newPromise w.rtNewPromise
  | subscribe {p : Nat} {onFulfilled onRejected capability : Value} (hlt : p < w.nextPromise) :
    Turn w (.performThen p onFulfilled onRejected capability)
      (w.rtPerformPromiseThen p onFulfilled onRejected capability)
  | report {remaining p : Nat} {parked : List Nat} {rest : List Frame}
    (hstack : w.stack = .report (remaining + 1) :: rest) (hparked : w.parked = p :: parked) :
    Turn w .tick { w.modifyPromise p fun r => { r with reported := true } with
      parked := parked, stack := .reportHook p :: .report remaining :: rest }
  /-- Without a hook, the rejections are printed. -/
  | print {rest : List Frame} (hstack : w.stack = .drain :: rest) (hqueue : w.queue = [])
    (hhook : w.rejectionHook = false) : Turn w .tick { w with parked := [], stack := rest }

section Turn

variable {a : Action} {frame : Frame} {rest : List Frame}

theorem Writes.turn (h : Writes (a.CallsPair w) ⟨w, none⟩ ⟨w', none⟩) : Turn w a w' :=
  .advance (List.suffix_refl _) (fun _ => rfl) .refl h

/-- A frame is gone, and no getter of `then` with it. -/
theorem Writes.popped (hstack : w.stack = frame :: rest)
    (hframe : ∀ p, frame.readsThenOf p = false) (hdrain : w.queue ≠ [] → frame ≠ .drain)
    (h : Writes (a.CallsPair w) ⟨{ w with stack := rest }, none⟩ ⟨w', none⟩) : Turn w a w' :=
  .advance (hstack ▸ List.suffix_cons ..)
    (fun hqueue => by rw [hstack, List.count_cons_of_ne (hdrain hqueue)])
    (.single (.quiet (.pop hstack hframe))) h

theorem resume_turn (hstack : w.stack = frame :: rest) (hframe : frame.runsUserCode = true)
    (o : Outcome) : Turn w (.outcome o) (({ w with stack := rest } : World).resume frame o) := by
  have hdrain : frame ≠ .drain := by
    rintro rfl
    cases hframe
  cases frame with
  | getThen p value =>
    refine .advance (hstack ▸ List.suffix_cons ..) (fun _ => by simp [hstack])
      (.single (.resumeThen hstack)) ?_
    cases o with
    | returned thenFn => exact World.gotThen_writes p value thenFn
    | threw thrown => exact .settle ..
  | handler handler argument capability =>
    refine Writes.popped hstack (fun _ => rfl) (fun _ => hdrain) ?_
    cases o <;> exact World.finishReactionJob_writes ..
  | thenable q thenable thenFn =>
    refine Writes.popped hstack (fun _ => rfl) (fun _ => hdrain) ?_
    cases o with
    | returned value => exact .refl
    | threw thrown => exact World.pairReject_writes ⟨thenable, thenFn, rest, hstack⟩ thrown
  | reportHook p =>
    cases o with
    | returned value => exact Writes.popped hstack (fun _ => rfl) (fun _ => hdrain) .refl
    | threw thrown =>
      rw [World.resume]
      split
      · rename_i remaining rest' hrest
        obtain rfl : rest = .report remaining :: rest' := hrest
        -- the loop that called the hook is gone as well
        refine .advance (hstack ▸ (List.suffix_cons ..).trans (List.suffix_cons ..))
          (fun _ => by simp [hstack]) ?_ .refl
        exact .head (.quiet (.pop hstack fun _ => rfl)) (.single (.quiet (.pop rfl fun _ => rfl)))
      · exact Writes.popped hstack (fun _ => rfl) (fun _ => hdrain) .refl
  | capability | cleanupCallback | handledHook | drain | cleanups | report =>
    exact Writes.popped hstack (fun _ => rfl) (fun _ => hdrain) .refl

theorem tick_turn (h : w.tick = some w') : Turn w .tick w' := by
  rw [World.tick] at h
  split at h
  · rename_i rest hstack
    cases h
    rw [World.drainStep]
    split
    · exact (World.runJob_writes ‹_›).turn
    · rename_i hqueue
      have hpop : ∀ {w'}, Writes _ ⟨{ w with stack := rest }, none⟩ ⟨w', none⟩ → Turn w .tick w' :=
        fun h => h.popped hstack (fun _ => rfl) fun hne => absurd hqueue hne
      split
      · exact Writes.turn (.push (fun _ => rfl) (by simp [Frame.CallsHook]))
      · rw [World.reportParkedRejections]
        split
        · exact hpop .refl
        · split
          · exact hpop (.push (fun _ => rfl) (by simp [Frame.CallsHook]))
          · rename_i hhook
            exact .print hstack hqueue (Bool.eq_false_iff.mpr hhook)
  · rename_i remaining rest hstack
    cases h
    unfold World.cleanupStep
    split
    · exact Writes.popped hstack (fun _ => rfl) (fun _ => nofun)
        ⟨.single (.quiet (.of_eq rfl rfl rfl rfl rfl fun p => by simp [Frame.readsThenOf])),
          .of_eq (s := [.cleanupCallback, .cleanups _]) rfl (by simp [Frame.CallsHook])
            (fun _ => ⟨rfl, rfl, rfl⟩) rfl rfl⟩
    · exact Writes.popped hstack (fun _ => rfl) (fun _ => nofun) .refl
  · rename_i remaining rest hstack
    cases h
    unfold World.reportStep
    split
    · exact .report hstack ‹_›
    · exact Writes.popped hstack (fun _ => rfl) (fun _ => nofun) .refl
  · cases h

/-- **What a step does.** -/
theorem Step.turn (h : Step w a w') : Turn w a w' := by
  rw [Step, World.step] at h
  split at h
  · rename_i huser
    cases a with
    | newPromise =>
      cases h
      exact .create
    | setRejectionHook | setJobContext | collect =>
      cases h
      exact Writes.turn ⟨.single (.quiet (.of_eq rfl rfl rfl rfl rfl fun _ => rfl)),
        .of_same rfl rfl rfl rfl⟩
    | resolvePromise p value =>
      obtain ⟨hlt, rfl⟩ : p < w.nextPromise ∧ w.rtResolvePromise p value = w' := by
        simpa [World.act] using h
      exact (World.rtResolvePromise_writes hlt value).turn
    | rejectPromise p reason =>
      obtain ⟨hlt, rfl⟩ : p < w.nextPromise ∧ w.rtRejectPromise p reason = w' := by
        simpa [World.act] using h
      exact (World.rtRejectPromise_writes hlt reason).turn
    | pairResolve q value =>
      obtain ⟨-, rfl⟩ : q < w.pairs.length ∧ w.pairResolve q value = w' := by
        simpa [World.act] using h
      exact Writes.turn (World.pairResolve_writes rfl value)
    | pairReject q reason =>
      obtain ⟨-, rfl⟩ : q < w.pairs.length ∧ w.pairReject q reason = w' := by
        simpa [World.act] using h
      exact Writes.turn (World.pairReject_writes rfl reason)
    | performThen p onFulfilled onRejected capability =>
      obtain ⟨hlt, rfl⟩ : p < w.nextPromise ∧
          w.rtPerformPromiseThen p onFulfilled onRejected capability = w' := by
        simpa [World.act] using h
      exact .subscribe hlt
    | settleCapability capability value reject =>
      cases h
      exact (World.rtSettleCapability_writes capability value reject).turn
    | drainMicrotasks =>
      cases h
      exact Writes.turn (.push (fun _ => rfl) nofun)
    | outcome o =>
      rw [World.act] at h
      split at h
      · rename_i frame rest hstack
        cases h
        rw [World.runsUserCode, hstack] at huser
        exact resume_turn hstack huser o
      · cases h
    | tick => cases h
  · split at h
    · rename_i htick
      subst htick
      exact tick_turn h
    · cases h

/-- **A step is a sequence of moves**, and the only latches of pairs it takes are those of the
pairs its action calls. -/
theorem Step.moves (h : Step w a w') : Moves (a.CallsPair w) ⟨w, none⟩ ⟨w', none⟩ := by
  cases h.turn with
  | advance hst hdrains hpop hwrites => exact hpop.trans hwrites.1
  | create => exact .single .create
  | subscribe hlt => exact World.rtPerformPromiseThen_moves hlt ..
  | @report remaining p parked rest hstack hparked =>
    refine .single (.quiet ((Quiet.modifyPromise p (f := fun r => { r with reported := true })
      fun _ => rfl).trans (.of_eq rfl rfl rfl rfl rfl fun p => ?_)))
    simp [World.modifyPromise, hstack, Frame.readsThenOf]
  | print hstack hqueue hhook =>
    exact .single (.quiet ((Quiet.pop hstack fun _ => rfl).trans
      (.of_eq rfl rfl rfl rfl rfl fun _ => rfl)))

end Turn

end Bronze.Promise
