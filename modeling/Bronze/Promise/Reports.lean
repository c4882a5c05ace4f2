import Bronze.Promise.Correctness

/-!
# Rejections are reported

A promise that is rejected while nothing handles it waits in the registry. The checkpoint tells the
hook of what waits, and a subscription tells it that a promise it was told of is handled after all.
The loop of the checkpoint is bounded by the length the registry had when it began, and the hook
may shorten the registry and lengthen it again.

## Main results

* `reports_exactly_iff`: a pass is exact as long as its loop finds promises that were due
* `reports_rejection_of_pass`: it reports a promise that was parked during the pass
-/

namespace Bronze.Promise

open List World PromiseRecord

/-! ## What the hook is told -/

/-- A call of the rejection hook. -/
inductive Notice
  | unhandled (p : Nat)
  | handled (p : Nat)
  deriving DecidableEq

/-- The call of the hook that a step begins. -/
def notices (w w' : World) : List Notice :=
  if w'.stack.length = w.stack.length + 1 then
    match w'.stack.head? with
    | some (.reportHook p) => [.unhandled p]
    | some (.handledHook p) => [.handled p]
    | _ => []
  else []

/-- The runs of a program, with what the hook has been told, oldest first. -/
inductive Told : List Notice → World → Prop
  | initial : Told [] .initial
  | step {ns : List Notice} {w w' : World} {a : Action} (h : Told ns w) (step : Step w a w') :
    Told (ns ++ notices w w') w'

/-- What is known of a promise that the hook was told of `told` times: it is parked while nothing
has handled it and the hook was not told. -/
structure Tracked (told : Nat) (r : PromiseRecord) (parked : Prop) : Prop where
  once : told ≤ 1
  parked : parked → r.state = .rejected ∧ r.isHandled = false ∧ told = 0
  rejected : told ≠ 0 → r.state = .rejected
  reported : r.reported = true ↔ told ≠ 0 ∧ r.isHandled = false

/-- The registry is right, and so are the records. -/
structure Registered (ns : List Notice) (w : World) : Prop where
  nodup : w.parked.Nodup
  tracked : ∀ p, Tracked (ns.count (.unhandled p)) (w.promises p) (p ∈ w.parked)

section Told

variable {ns : List Notice} {w w' : World} {a : Action} {p : Nat}

theorem notices_of_length_le (h : w'.stack.length ≤ w.stack.length) : notices w w' = [] :=
  if_neg (by omega)

theorem Advances.notices_eq {st : List Frame} (hst : st <:+ w.stack)
    (h : Advances { w with stack := st } w') : notices w w' = [] := by
  obtain ⟨frames, hstack, hframes⟩ := h.stack
  cases frames with
  | nil => exact notices_of_length_le (hstack ▸ hst.length_le)
  | cons f frames =>
    have hf := hframes f mem_cons_self
    rw [notices, hstack]
    split
    · cases f <;> first | rfl | exact absurd trivial hf
    · rfl

theorem Subscribes.notices_eq (h : Subscribes p w w') :
    notices w w' = if w.owes p && w.rejectionHook then [.handled p] else [] := by
  rw [notices, h.stack]
  split_ifs <;> simp_all

section

variable (hr : Registered ns w)

include hr

theorem Registered.advance {st : List Frame}
    (h : Advances { w with stack := st } w') : Registered ns w' := by
  obtain ⟨ps, hparked, hnodup, hps⟩ := h.parked
  have hnew : ∀ p ∈ ps, (w.promises p).state ≠ .rejected := fun p hp => by
    rw [(hps p hp).1]
    nofun
  have hstate : ∀ p, (w.promises p).state = .rejected → (w'.promises p).state = .rejected :=
    fun p hp => (h.settled p (by rw [hp]; nofun)).trans hp
  refine ⟨?_, fun p => ?_⟩
  · rw [hparked]
    refine nodup_append.mpr ⟨hr.nodup, hnodup, fun p hp p' hp' => ?_⟩
    rintro rfl
    exact hnew p hp' ((hr.tracked p).parked hp).1
  · have hp := hr.tracked p
    refine ⟨hp.once, fun hmem => ?_, fun htold => hstate p (hp.rejected htold), ?_⟩
    · rw [h.isHandled]
      rcases mem_append.mp (hparked ▸ hmem) with hmem | hmem
      · exact ⟨hstate p (hp.parked hmem).1, (hp.parked hmem).2⟩
      · exact ⟨(hps p hmem).2.1, (hps p hmem).2.2,
          not_not.mp fun htold => hnew p hmem (hp.rejected htold)⟩
    · rw [h.isHandled, h.reported]
      exact hp.reported

/-- The promise that is made was not yet there. -/
theorem Registered.create (hi : Invariant ⟨w, none⟩) : Registered ns w.rtNewPromise := by
  refine ⟨hr.nodup, fun p => ?_⟩
  have hp := hr.tracked p
  by_cases hnew : p = w.nextPromise
  · have hpending : (w.promises p).state ≠ .rejected := by
      rw [(core_eq_iff.mp (hi.unborn p (Nat.le_of_eq hnew.symm))).1]
      nofun
    have htold : ns.count (.unhandled p) = 0 := not_not.mp fun h => hpending (hp.rejected h)
    have hfresh : w.rtNewPromise.promises p = .fresh := by simp [rtNewPromise, hnew]
    rw [htold, hfresh]
    exact ⟨Nat.zero_le 1, fun h => absurd (hp.parked h).1 hpending, absurd rfl,
      by simp [fresh]⟩
  · have hsame : w.rtNewPromise.promises p = w.promises p := Function.update_of_ne hnew ..
    rw [hsame]
    exact hp

theorem Registered.owes_iff : w.owes p = true ↔ (w.promises p).reported = true := by
  refine ⟨fun h => by simp_all [owes], fun h => ?_⟩
  have hp := (hr.tracked p).reported.mp h
  simp [owes, h, hp.2, (hr.tracked p).rejected hp.1]

theorem Registered.subscribe (h : Subscribes p w w') : Registered (ns ++ notices w w') w' := by
  refine ⟨h.parked ▸ hr.nodup.erase p, fun q => ?_⟩
  have hcount : (ns ++ notices w w').count (.unhandled q) = ns.count (.unhandled q) := by
    rw [h.notices_eq]
    split <;> simp
  have hq := hr.tracked q
  rw [hcount, h.parked, hr.nodup.mem_erase_iff]
  by_cases hqp : q = p
  · subst hqp
    refine ⟨hq.once, fun hmem => absurd rfl hmem.1,
      fun htold => (h.state q).trans (hq.rejected htold), ?_⟩
    have howes := hr.owes_iff (p := q)
    rw [h.reported, h.isHandled]
    cases hrep : (w.promises q).reported <;> simp_all
  · refine ⟨hq.once, fun hmem => ?_, fun htold => (h.state q).trans (hq.rejected htold), ?_⟩
    · simpa [h.state, h.isHandled, hqp] using hq.parked hmem.2
    · simpa [h.reported, h.isHandled, hqp] using hq.reported

end

/-- The world in which the hook is told of the first promise of the registry. -/
def World.reporting (w : World) (p remaining : Nat) (parked : List Nat) (rest : List Frame) :
    World :=
  { w.modifyPromise p fun r => { r with reported := true } with
    parked := parked, stack := .reportHook p :: .report remaining :: rest }

theorem World.promises_reporting (w : World) (p remaining : Nat) (parked : List Nat)
    (rest : List Frame) (q : Nat) : (w.reporting p remaining parked rest).promises q =
      { w.promises q with reported := decide (q = p) || (w.promises q).reported } := by
  by_cases hq : q = p
  · subst hq
    simp [reporting]
  · simp [reporting, modifyPromise_of_ne hq, hq]

theorem Registered.report (hr : Registered ns w) {parked : List Nat}
    (hparked : w.parked = p :: parked) (remaining : Nat) (rest : List Frame) :
    Registered (ns ++ [.unhandled p]) (w.reporting p remaining parked rest) := by
  have hnodup := hr.nodup
  rw [hparked, nodup_cons] at hnodup
  refine ⟨hnodup.2, fun q => ?_⟩
  have hq := hr.tracked q
  rw [w.promises_reporting p remaining parked rest, count_append]
  by_cases hqp : q = p
  · subst hqp
    obtain ⟨hstate, hhandled, htold⟩ := hq.parked (hparked ▸ mem_cons_self)
    rw [htold]
    exact ⟨by simp, fun hmem => absurd hmem hnodup.1, fun _ => hstate, by simp [hhandled]⟩
  · have hother : count (Notice.unhandled q) [.unhandled p] = 0 := by simp [Ne.symm hqp]
    rw [hother]
    refine ⟨hq.once, fun hmem => hq.parked (hparked ▸ mem_cons_of_mem p hmem), hq.rejected, ?_⟩
    simpa [hqp] using hq.reported

/-- **The registry is right after every run.** -/
theorem Told.registered (h : Told ns w) : Registered ns w ∧ Invariant ⟨w, none⟩ := by
  induction h with
  | initial =>
    exact ⟨⟨nodup_nil, fun _ => ⟨Nat.zero_le 1, nofun, absurd rfl,
      by simp [World.initial, fresh]⟩⟩, invariant_initial⟩
  | @step ns w w' a h step ih =>
    obtain ⟨hr, hi⟩ := ih
    refine ⟨?_, Moves.keeps step.moves hi⟩
    cases step.turn with
    | advance hst hdrains hpop hwrites =>
      rw [hwrites.2.notices_eq hst, append_nil]
      exact hr.advance hwrites.2
    | create =>
      rw [show notices w w.rtNewPromise = [] from notices_of_length_le (Nat.le_refl _),
        append_nil]
      exact hr.create hi
    | subscribe hlt => exact hr.subscribe (subscribes_rtPerformPromiseThen ..)
    | @report remaining p parked rest hstack hparked =>
      have htells : notices w (w.reporting p remaining parked rest) = [.unhandled p] := by
        simp [notices, reporting, hstack]
      have hreport := hr.report hparked remaining rest
      rw [← htells] at hreport
      exact hreport
    | print hstack hqueue hhook =>
      rw [notices_of_length_le (by simp [hstack]), append_nil]
      exact ⟨nodup_nil, fun p => { hr.tracked p with parked := nofun }⟩

/-- **The hook is told that nothing has handled a promise** only while nothing has. -/
theorem Told.unhandled (h : Told ns w) (step : Step w a w') (hp : .unhandled p ∈ notices w w') :
    (w.promises p).isHandled = false := by
  have hr := h.registered.1
  cases step.turn with
  | advance hst hdrains hpop hwrites => simp [hwrites.2.notices_eq hst] at hp
  | create => simp [notices, rtNewPromise] at hp
  | subscribe hlt =>
    rw [(subscribes_rtPerformPromiseThen ..).notices_eq] at hp
    split at hp <;> simp at hp
  | @report remaining q parked rest hstack hparked =>
    obtain rfl : p = q := by simpa [notices, hstack] using hp
    exact ((hr.tracked p).parked (hparked ▸ mem_cons_self)).2.1
  | print hstack hqueue hhook => simp [notices_of_length_le, hstack] at hp

/-- **The hook is told that a promise was handled** exactly when the first subscription comes to
one that it was told of. -/
theorem Told.handled_iff (h : Told ns w) (step : Step w a w') (p : Nat) :
    .handled p ∈ notices w w' ↔ (∃ onFulfilled onRejected capability,
      a = .performThen p onFulfilled onRejected capability) ∧ w.rejectionHook = true ∧
      .unhandled p ∈ ns ∧ (w.promises p).isHandled = false := by
  have howes : w.owes p = true ↔ .unhandled p ∈ ns ∧ (w.promises p).isHandled = false := by
    rw [h.registered.1.owes_iff, (h.registered.1.tracked p).reported, ← count_pos_iff,
      Nat.pos_iff_ne_zero]
  by_cases hthen : ∃ q onFulfilled onRejected capability,
      a = .performThen q onFulfilled onRejected capability
  · obtain ⟨q, onFulfilled, onRejected, capability, rfl⟩ := hthen
    obtain ⟨-, -, rfl⟩ : w.runsUserCode = true ∧ q < w.nextPromise ∧
        w.rtPerformPromiseThen q onFulfilled onRejected capability = w' := by
      simpa [Step, World.step, World.act] using step
    simp only [(subscribes_rtPerformPromiseThen ..).notices_eq, Bool.and_eq_true,
      mem_ite_nil_right, mem_singleton, Notice.handled.injEq, ← howes]
    constructor
    · rintro ⟨⟨howes, hhook⟩, rfl⟩
      exact ⟨⟨_, _, _, rfl⟩, hhook, howes⟩
    · rintro ⟨⟨_, _, _, hsame⟩, hhook, howes⟩
      obtain ⟨rfl, -⟩ := Action.performThen.inj hsame
      exact ⟨⟨howes, hhook⟩, rfl⟩
  · refine iff_of_false (fun hp => ?_) fun hcalled => hthen ⟨p, hcalled.1⟩
    cases step.turn with
    | advance hst hdrains hpop hwrites => simp [hwrites.2.notices_eq hst] at hp
    | create => simp [notices, rtNewPromise] at hp
    | subscribe hlt => exact hthen ⟨_, _, _, _, rfl⟩
    | report hstack hparked => simp [notices, hstack] at hp
    | print hstack hqueue hhook => simp [notices_of_length_le, hstack] at hp

end Told

/-! ## The report pass -/

/-- A report pass over the promises `due`, called with the frames `rest` on the stack. Its loop took
a promise in each world of `turns`. The hook may do anything but end the pass by a throw, or
uninstall itself. -/
inductive Pass (rest : List Frame) (due : List Nat) : List Notice → List World → World → Prop
  | begin {ns : List Notice} {w : World} (told : Told ns w)
    (stack : w.stack = .report due.length :: rest) (parked : w.parked = due)
    (hook : w.rejectionHook = true) : Pass rest due ns [] w
  | turn {ns : List Notice} {turns : List World} {remaining : Nat} {w w' : World}
    (h : Pass rest due ns turns w) (stack : w.stack = .report (remaining + 1) :: rest)
    (parked : w.parked ≠ []) (step : Step w .tick w') :
    Pass rest due (ns ++ notices w w') (turns ++ [w]) w'
  | inside {ns : List Notice} {turns : List World} {remaining : Nat} {w w' : World}
    (frames frames' : List Frame) (a : Action) (h : Pass rest due ns turns w)
    (nonempty : frames ≠ []) (stack : w.stack = frames ++ .report remaining :: rest)
    (step : Step w a w') (stack' : w'.stack = frames' ++ .report remaining :: rest)
    (hook : w'.rejectionHook = true) : Pass rest due (ns ++ notices w w') turns w'

/-- The promises that the loop took. -/
def taken (turns : List World) : List Nat := turns.filterMap (·.parked.head?)

/-- Something handled the promise, or the hook was told of it. -/
def Settled (w : World) (p : Nat) : Prop :=
  (w.promises p).isHandled = true ∨ (w.promises p).reported = true

/-- A pass tells of what was parked when it began and was not handled before its turn, in order. At
its end, the others were handled, or told of by a checkpoint inside the hook. -/
structure ReportsExactly (rest : List Frame) (due : List Nat) (turns : List World) (w : World) :
    Prop where
  order : (taken turns).Sublist due
  once : (taken turns).Nodup
  unhandled : ∀ v ∈ turns, ∃ p, v.parked.head? = some p ∧ (v.promises p).isHandled = false
  complete : ∀ remaining, w.stack = .report remaining :: rest → remaining = 0 ∨ w.parked = [] →
    ∀ p ∈ due, p ∈ taken turns ∨ Settled w p

/-- What a step does to the registry: what it takes off was settled, what it adds was pending. -/
structure Kept (w w' : World) : Prop where
  parked : ∃ kept new, w'.parked = kept ++ new ∧ kept.Sublist w.parked ∧
    (∀ p ∈ new, (w.promises p).state = .pending) ∧ ∀ p ∈ w.parked, p ∈ kept ∨ Settled w' p
  rejected : ∀ p, (w.promises p).state = .rejected →
    (w'.promises p).state = .rejected ∧ (Settled w p → Settled w' p)

/-- What a pass has done: of the promises it is about, `left` are still parked. -/
structure Passing (rest : List Frame) (due : List Nat) (turns : List World) (w : World)
    (left new : List Nat) : Prop where
  stack : ∃ frames remaining, w.stack = frames ++ .report remaining :: rest ∧
    remaining + (taken turns).length = due.length
  nodup : due.Nodup
  parked : w.parked = left ++ new
  order : (taken turns ++ left).Sublist due
  later : ∀ p ∈ new, p ∉ due
  rejected : ∀ p ∈ due, (w.promises p).state = .rejected
  complete : ∀ p ∈ due, p ∈ taken turns ∨ p ∈ left ∨ Settled w p
  unhandled : ∀ v ∈ turns, ∃ p, v.parked.head? = some p ∧ (v.promises p).isHandled = false

section Pass

variable {rest : List Frame} {due : List Nat} {ns : List Notice} {turns : List World} {w w' : World}
  {left new : List Nat} {p : Nat} {parked : List Nat}

theorem kept_reporting (remaining : Nat) (hparked : w.parked = p :: parked)
    (rest : List Frame) : Kept w (w.reporting p remaining parked rest) := by
  have hrecord := w.promises_reporting p remaining parked rest
  refine ⟨⟨parked, [], (append_nil _).symm, hparked ▸ sublist_cons_self p parked, nofun,
    fun q hq => ?_⟩, fun q hq => ?_⟩
  · rcases mem_cons.mp (hparked ▸ hq) with rfl | hq
    · exact .inr (.inr (by simp [hrecord]))
    · exact .inl hq
  · rw [Settled, Settled, hrecord]
    exact ⟨hq, fun hs => by simpa using hs.imp_right .inr⟩

theorem Subscribes.kept (h : Subscribes p w w') : Kept w w' := by
  have hself : Settled w' p := .inl (by simp [h.isHandled])
  refine ⟨⟨w.parked.erase p, [], by simp [h.parked], erase_sublist .., nofun,
    fun q hq => ?_⟩, fun q hq => ⟨(h.state q).trans hq, fun hs => ?_⟩⟩
  · by_cases hqp : q = p
    · exact .inr (hqp ▸ hself)
    · exact .inl ((mem_erase_of_ne hqp).mpr hq)
  · by_cases hqp : q = p
    · exact hqp ▸ hself
    · simpa [Settled, h.isHandled, h.reported, hqp] using hs

theorem Step.kept {a : Action} (step : Step w a w') (hi : Invariant ⟨w, none⟩)
    (hhook : w.rejectionHook = true) : Kept w w' := by
  cases step.turn with
  | advance hst hdrains hpop hwrites =>
    obtain ⟨-, hadvances⟩ := hwrites
    obtain ⟨ps, hparked, -, hps⟩ := hadvances.parked
    refine ⟨⟨w.parked, ps, hparked, .refl _, fun p hp => (hps p hp).1, fun p hp => .inl hp⟩,
      fun p hp => ⟨(hadvances.settled p (by rw [hp]; nofun)).trans hp, fun hs => ?_⟩⟩
    rwa [Settled, hadvances.isHandled, hadvances.reported]
  | create =>
    refine ⟨⟨w.parked, [], (append_nil _).symm, .refl _, nofun, fun p hp => .inl hp⟩,
      fun p hp => ?_⟩
    have hborn : p ≠ w.nextPromise := by
      rintro rfl
      rw [(core_eq_iff.mp (hi.unborn _ (Nat.le_refl _))).1] at hp
      cases hp
    have hsame : w.rtNewPromise.promises p = w.promises p := Function.update_of_ne hborn ..
    rw [Settled, Settled, hsame]
    exact ⟨hp, id⟩
  | subscribe hlt => exact (subscribes_rtPerformPromiseThen ..).kept
  | report hstack hparked => exact kept_reporting _ hparked _
  | print hstack hqueue hoff =>
    rw [hhook] at hoff
    cases hoff

section

variable (h : Passing rest due turns w left new)

include h

theorem Passing.remaining (frames : List Frame)
    {remaining : Nat} (hstack : w.stack = frames ++ .report remaining :: rest) :
    remaining + (taken turns).length = due.length := by
  obtain ⟨frames', remaining', hstack', hcount⟩ := h.stack
  obtain ⟨-, htop⟩ := append_inj' (hstack.symm.trans hstack') rfl
  obtain ⟨rfl, -⟩ : remaining = remaining' ∧ rest = rest := by simpa using htop
  exact hcount

/-- A step inside the hook leaves the pass as it is, but for what was settled. -/
theorem Passing.inside (hk : Kept w w')
    (hstack : ∃ frames remaining, w'.stack = frames ++ .report remaining :: rest ∧
      remaining + (taken turns).length = due.length) :
    ∃ left new, Passing rest due turns w' left new := by
  obtain ⟨⟨kept, ps, hparked, hsub, hpending, hgone⟩, hrejected⟩ := hk
  rw [h.parked] at hsub hgone
  obtain ⟨left', new', rfl, hleft, hnew⟩ := sublist_append_iff.mp hsub
  refine ⟨left', new' ++ ps, hstack, h.nodup, by simp [hparked],
    (hleft.append_left _).trans h.order, fun p hp hdue => ?_,
    fun p hp => (hrejected p (h.rejected p hp)).1, fun p hp => ?_, h.unhandled⟩
  · rcases mem_append.mp hp with hp | hp
    · exact h.later p (hnew.subset hp) hdue
    · have hrej := h.rejected p hdue
      rw [hpending p hp] at hrej
      cases hrej
  · refine (h.complete p hp).imp_right fun hp' => ?_
    rcases hp' with hp' | hs
    · refine (hgone p (mem_append_left _ hp')).imp_left fun hk => ?_
      exact (mem_append.mp hk).resolve_right fun hk => h.later p (hnew.subset hk) hp
    · exact .inr ((hrejected p (h.rejected p hp)).2 hs)

/-- A turn of the loop takes the first promise that is due, if one is left. -/
theorem Passing.turn (hhandled : (w.promises p).isHandled = false) {remaining : Nat}
    (htop : w.stack = .report (remaining + 1) :: rest) (hparked : w.parked = p :: parked)
    (hdue : ∃ q ∈ due, q ∈ w.parked) : ∃ left new,
      Passing rest due (turns ++ [w]) (w.reporting p remaining parked rest) left new := by
  have htaken : taken (turns ++ [w]) = taken turns ++ [p] := by
    simp [taken, filterMap_append, hparked]
  have hcount := h.remaining [] htop
  have hk := (kept_reporting remaining hparked rest).rejected
  obtain ⟨q, hq, hmem⟩ := hdue
  rw [h.parked] at hmem
  rcases cons_eq_append_iff.mp (hparked.symm.trans h.parked) with
    ⟨rfl, rfl⟩ | ⟨left', rfl, rfl⟩
  · exact absurd hq (h.later q hmem)
  refine ⟨left', new, ⟨[.reportHook p], remaining, rfl, ?_⟩, h.nodup, rfl, ?_, h.later,
    fun q hq => (hk q (h.rejected q hq)).1, fun q hq => ?_, fun v hv => ?_⟩
  · rw [htaken, length_append, length_singleton]
    omega
  · simpa [htaken] using h.order
  · rw [htaken, mem_append, mem_singleton]
    rcases h.complete q hq with hq' | hq' | hs
    · exact .inl (.inl hq')
    · exact (mem_cons.mp hq').elim (fun hqp => .inl (.inr hqp)) fun hq' => .inr (.inl hq')
    · exact .inr (.inr ((hk q (h.rejected q hq)).2 hs))
  · rcases mem_append.mp hv with hv | hv
    · exact h.unhandled v hv
    · obtain rfl := mem_singleton.mp hv
      exact ⟨p, by rw [hparked]; rfl, hhandled⟩

end

variable (h : Pass rest due ns turns w)

include h

theorem Pass.told : Told ns w := by
  induction h with
  | begin told => exact told
  | turn _ _ _ step ih => exact ih.step step
  | inside _ _ _ _ _ _ step _ _ ih => exact ih.step step

theorem Pass.passing (hdue : ∀ v ∈ turns, ∃ q ∈ due, q ∈ v.parked) :
    w.rejectionHook = true ∧ ∃ left new, Passing rest due turns w left new := by
  induction h with
  | @begin ns w told stack parked hook =>
    have hr := told.registered.1
    exact ⟨hook, due, [], ⟨[], _, stack, rfl⟩, parked ▸ hr.nodup, by rw [parked, append_nil],
      .refl _, nofun, fun p hp => ((hr.tracked p).parked (parked ▸ hp)).1,
      fun p hp => .inr (.inl hp), nofun⟩
  | @turn ns turns remaining w w' h stack nonempty step ih =>
    obtain ⟨hhook, left, new, hp⟩ := ih fun v hv => hdue v (mem_append_left _ hv)
    obtain ⟨p, parked, hparked⟩ := exists_cons_of_ne_nil nonempty
    obtain rfl : w.reporting p remaining parked rest = w' := by
      simpa [Step, World.step, World.runsUserCode, Frame.runsUserCode, World.tick, World.reportStep,
        World.reporting, stack, hparked] using step
    have hhandled := ((h.told.registered.1.tracked p).parked (hparked ▸ mem_cons_self)).2.1
    exact ⟨hhook, hp.turn hhandled stack hparked (hdue w (by simp))⟩
  | @inside ns turns remaining w w' frames frames' a h nonempty stack step stack' hook ih =>
    obtain ⟨hhook, left, new, hp⟩ := ih hdue
    exact ⟨hook, hp.inside (step.kept h.told.registered.2 hhook)
      ⟨frames', remaining, stack', hp.remaining frames stack⟩⟩

theorem Pass.exactly_iff :
    ReportsExactly rest due turns w ↔ ∀ v ∈ turns, ∃ p ∈ due, p ∈ v.parked := by
  constructor
  · intro he v hv
    obtain ⟨p, hp, -⟩ := he.unhandled v hv
    exact ⟨p, he.order.subset (mem_filterMap.mpr ⟨v, hv, hp⟩), mem_of_mem_head? hp⟩
  · intro hdue
    obtain ⟨-, left, new, hp⟩ := h.passing hdue
    have htaken := (sublist_append_left (taken turns) left).trans hp.order
    refine ⟨htaken, htaken.nodup hp.nodup, hp.unhandled, fun remaining hstack hend p hmem => ?_⟩
    have hleft : left = [] := by
      rcases hend with rfl | hempty
      · have hcount := hp.remaining [] hstack
        have hlength := hp.order.length_le
        rw [length_append] at hlength
        exact eq_nil_of_length_eq_zero (by omega)
      · exact (append_eq_nil_iff.mp (hp.parked.symm.trans hempty)).1
    simpa [hleft] using hp.complete p hmem

end Pass

/-- **Exactly when rejections are reported exactly**: in every run the hook is told of a rejection
at most once and while nothing has handled it, and of its handling at the first subscription after
that; and a report pass is exact as long as, each time its loop takes a promise, one of those that
were parked when it began is still parked. -/
theorem reports_exactly_iff {ns : List Notice} {w : World} (h : Told ns w) :
    (∀ p, ns.count (.unhandled p) ≤ 1) ∧
      (∀ a w', Step w a w' → ∀ p,
        (.unhandled p ∈ notices w w' → (w.promises p).isHandled = false) ∧
          (.handled p ∈ notices w w' ↔ (∃ onFulfilled onRejected capability,
            a = .performThen p onFulfilled onRejected capability) ∧ w.rejectionHook = true ∧
            .unhandled p ∈ ns ∧ (w.promises p).isHandled = false)) ∧
      ∀ rest due turns, Pass rest due ns turns w →
        (ReportsExactly rest due turns w ↔ ∀ v ∈ turns, ∃ p ∈ due, p ∈ v.parked) :=
  ⟨fun p => (h.registered.1.tracked p).once,
    fun _ _ step p => ⟨h.unhandled step, h.handled_iff step p⟩,
    fun _ _ _ pass => pass.exactly_iff⟩

theorem told_of_foldlM (as : List Action) {ns : List Notice} {w w' : World} (h : Told ns w)
    (hrun : as.foldlM step w = some w') : ∃ ns, Told ns w' := by
  induction as generalizing ns w with
  | nil =>
    cases hrun
    exact ⟨ns, h⟩
  | cons a as ih =>
    obtain ⟨w₁, hstep, hrest⟩ := Option.bind_eq_some_iff.mp hrun
    exact ih (h.step hstep) hrest

/-- Two promises are rejected, and a checkpoint begins to report them. -/
def twoRejections : List Action :=
  [.newPromise, .newPromise, .newPromise, .setRejectionHook true, .rejectPromise 0 (.primitive 7),
    .rejectPromise 1 (.primitive 8), .drainMicrotasks, .tick]

/-- The hook handles the second promise when it is told of the first. -/
theorem reports_exactly_of_handled :
    ∃ ns turns w, Pass [] [0, 1] ns turns w ∧ taken turns = [0] ∧
      ReportsExactly [] [0, 1] turns w := by
  obtain ⟨ns, htold⟩ := told_of_foldlM twoRejections .initial rfl
  have hbegin : Pass [] [0, 1] ns [] _ := .begin htold rfl rfl rfl
  have hpass := (hbegin.turn rfl nofun rfl).inside [.reportHook 0] [.reportHook 0]
    (.performThen 1 .undefined (.function 1) .undefined) nofun rfl rfl rfl rfl
  have hexact := ((reports_exactly_iff hpass.told).2.2 _ _ _ hpass).mpr
  refine ⟨_, _, _, hpass, rfl, hexact fun v hv => ?_⟩
  obtain rfl := mem_singleton.mp hv
  exact ⟨0, by simp, mem_cons_self⟩

/-- **A rejection of the pass is reported in it**: told of the first of two promises, the hook
handles the second and rejects a third, and the loop takes that one. -/
theorem reports_rejection_of_pass :
    ∃ ns turns w, Pass [] [0, 1] ns turns w ∧ taken turns = [0, 2] ∧
      ¬ReportsExactly [] [0, 1] turns w := by
  obtain ⟨ns, htold⟩ := told_of_foldlM twoRejections .initial rfl
  have hbegin : Pass [] [0, 1] ns [] _ := .begin htold rfl rfl rfl
  have hhandled := (hbegin.turn rfl nofun rfl).inside [.reportHook 0] [.reportHook 0]
    (.performThen 1 .undefined (.function 1) .undefined) nofun rfl rfl rfl rfl
  have hrejected := hhandled.inside [.reportHook 0] [.reportHook 0]
    (.rejectPromise 2 (.primitive 9)) nofun rfl rfl rfl rfl
  have hended := hrejected.inside [.reportHook 0] [] (.outcome (.returned .undefined)) nofun rfl rfl
    rfl rfl
  refine ⟨_, _, _, hended.turn rfl nofun rfl, rfl, fun h => ?_⟩
  have horder : [0, 2].Sublist [0, 1] := h.order
  revert horder
  decide

end Bronze.Promise
