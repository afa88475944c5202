import Interleaving.Proofs.Consistency
import Interleaving.Proofs.RandomCalls

/-!
# Forced decisions

In random mode a program may say which thread is to run, wherever the scheduler is: in the middle of
levels to be replayed, of directives, or past both. What was left to be replayed is dropped then.
With the analysis the thread that is asked for runs. Without it every enabled thread of a new level
is to be explored, so that the first of them in turn runs, and any other is refused.

## Main definitions

* `Scheduler.Made` — a scheduler has the options that it was made with.
* `Snapshot.firstEnabled?` — the first thread that is enabled, in turn from another one.

## Main statements

* `Scheduler.Reachable.made` — what a scheduler was made with does not change.
* `Scheduler.Reachable.force_runs` — with the analysis, a thread that is enabled can be forced to
  run in every state that is reached.
* `Scheduler.Reachable.force_in_turn` — without it, the first thread in turn runs.
-/

namespace Interleaving

open Interleaving.Action

/-! ## What a scheduler was made with -/

namespace Scheduler

/-- The scheduler analyses, inherits sleep and stops as it was told to when it was made. -/
structure Made (c : Config) (s : Scheduler) : Prop where
  analysis : s.analysis.isSome = c.reduction
  sleepSets : s.sleepSets = (c.sleepSets && c.mode != .random)
  stepLimit : s.stepLimit = c.stepLimit
  reversalLimit : s.reversalLimit = c.reversalLimit

variable {c : Config} {s s' : Scheduler}

theorem made_new (c : Config) : (Scheduler.new c).Made c where
  analysis := by cases h : c.reduction <;> simp [Scheduler.new, h]
  sleepSets := rfl
  stepLimit := rfl
  reversalLimit := rfl

namespace Made

/-- An action on the schedule changes nothing else. -/
theorem onSchedule {α : Type} (h : s.Made c) (x : Action Schedule α) :
    (Scheduler.onSchedule x).Ensures s fun _ s' => s'.Made c :=
  Ensures.within fun _ _ _ => { h with }

theorem abandon (h : s.Made c) (draws : Bool) :
    (Scheduler.abandon draws).Ensures s fun _ s' => s'.Made c := by
  refine (yields_get s).bind_ensures ?_
  split
  · cases draws with
    | true =>
      exact ((h.onSchedule _).mono fun _ _ h' => (yields_modify _ _).ensures { h' with }).bind
    | false => exact (yields_modify _ _).ensures { h with }
  · exact ensures_fail _ _ _

theorem follow (h : s.Made c) (d : Directive) :
    (Scheduler.follow d).Ensures s fun _ s' => s'.Made c := by
  refine ((h.onSchedule _).mono fun _ _ restored => ?_).bind
  refine ((restored.onSchedule _).mono fun _ _ marked => ?_).bind
  exact (yields_modify _ _).ensures { marked with }

theorem markTop (h : s.Made c) (forced : Option ThreadId) (current : ThreadId) :
    (Scheduler.markTop forced current).Ensures s fun _ s' => s'.Made c := by
  refine (yields_get s).bind_ensures (bind_lift_ensures fun top _ => ?_)
  split
  · exact h.onSchedule _
  · exact h.follow _
  · exact h.onSchedule _
  · exact (yields_set _ _).ensures { h with }
  · exact h.onSchedule _

theorem visit (h : s.Made c) (forced : Option ThreadId) (choices : Snapshot) (current : ThreadId) :
    (Scheduler.visit forced choices current).Ensures s fun _ s' => s'.Made c := by
  refine ((h.onSchedule _).mono fun added t pushed => ?_).bind
  cases added with
  | true =>
    refine (yields_get t).bind_ensures ?_
    split
    · exact ((pushed.onSchedule _).mono fun _ _ h' => h'.markTop forced current).bind
    · exact pushed.markTop forced current
  | false => exact pushed.onSchedule _

theorem settle (h : s.Made c) (current : ThreadId) :
    (Scheduler.settle current).Ensures s fun _ s' => s'.Made c :=
  settle_ensures current h fun _ => h.onSchedule _

theorem next (h : s.Made c) (choices : Snapshot) (current : ThreadId) :
    (Scheduler.next choices current).Ensures s fun _ s' => s'.Made c :=
  ((h.visit none choices current).mono fun _ _ visited => visited.settle current).bind

theorem force (h : s.Made c) (t : ThreadId) (choices : Snapshot) (current : ThreadId) :
    (Scheduler.force t choices current).Ensures s fun _ s' => s'.Made c := by
  refine ((h.abandon false).mono fun _ _ abandoned => ?_).bind
  refine ((abandoned.visit (some t) choices current).mono fun _ _ visited => ?_).bind
  refine ((visited.settle current).mono fun _ _ settled => ?_).bind
  split
  · exact (yields_modify _ _).ensures { settled with }
  · exact ensures_fail _ _ _

theorem draw (h : s.Made c) (kind : DrawKind) (bound : Nat) :
    (Scheduler.draw kind bound).Ensures s fun _ s' => s'.Made c :=
  (yields_get s).bind_ensures (bind_lift_ensures fun _ _ => bind_lift_ensures fun _ _ =>
    (yields_set _ _).bind_ensures (ensures_pure { h with }))

theorem forceDraw (h : s.Made c) (d : Draw) :
    (Scheduler.forceDraw d).Ensures s fun _ s' => s'.Made c := by
  refine ((h.abandon true).mono fun _ _ abandoned => ?_).bind
  refine ((abandoned.onSchedule _).mono fun _ _ recorded => ?_).bind
  exact (yields_modify _ _).ensures { recorded with }

/-- An analysis is replaced by an analysis. -/
theorem analyse (h : s.Made c) : Scheduler.analyse.Ensures s fun _ s' => s'.Made c := by
  refine (yields_get s).bind_ensures ?_
  cases hanalysis : s.analysis with
  | none =>
    dsimp only
    split
    · exact h.onSchedule _
    · exact ensures_pure h
  | some analysis =>
    have hsome : true = c.reduction := by rw [← h.analysis, hanalysis]; rfl
    refine Ensures.bind (Ensures.within fun replay w _ => ?_)
    refine (yields_modify _ _).bind_ensures ((yields_get _).bind_ensures ?_)
    exact (yields_modify _ _).ensures { h with analysis := hsome }

theorem limitReversals (h : s.Made c) :
    Scheduler.limitReversals.Ensures s fun _ s' => s'.Made c := by
  refine (yields_get s).bind_ensures ?_
  split
  · split
    · refine (yields_notify _ _).bind_ensures ((yields_set _ _).bind_ensures ?_)
      have fresh : Made c { s with reversals := 0 } := { h with }
      exact fresh.abandon false
    · exact (yields_set _ _).ensures { h with }
  · exact ensures_pure h

theorem prepare (h : s.Made c) : Scheduler.prepare.Ensures s fun _ s' => s'.Made c := by
  have counted : Made c
      { s with
        iterations := s.iterations + 1
        counters := (s.counters.add .iterations 1).raise .steps s.steps } := { h with }
  exact prepare_ensures (counted.analyse.mono fun _ _ analysed =>
    (analysed.onSchedule _).mono fun _ _ rewound => rewound.limitReversals)

theorem perform (h : s.Made c) (call : Call) :
    (Scheduler.perform call).Ensures s fun _ s' => s'.Made c := by
  cases call with
  | next choices current => exact Ensures.bind_pure (h.next choices current)
  | force t choices current => exact Ensures.bind_pure (h.force t choices current)
  | drawBool => exact Ensures.bind_pure (Ensures.bind_pure (h.draw .bool 2))
  | drawInt bound => exact Ensures.bind_pure (h.draw .int bound)
  | forceDraw d => exact Ensures.bind_pure (h.forceDraw d)
  | prepare => exact Ensures.bind_pure h.prepare
  | reset => exact (yields_modify _ _).bind_ensures (ensures_pure { h with })
  | sent => exact ensures_pure h
  | created => exact ensures_pure h

end Made

theorem Reachable.made {blocked : Bool} (h : Reachable c s blocked) : s.Made c := by
  induction h with
  | new => exact made_new c
  | call _ _ hyields ih => exact ih.perform _ _ _ hyields

end Scheduler

/-! ## The thread that runs -/

/-- The first thread that is enabled, in turn from a given one. -/
def Snapshot.firstEnabled? (snapshot : Snapshot) (start : ThreadId) : Option ThreadId :=
  (Level.turn start snapshot.length).find? fun t => snapshot[t]?.any (·.enabled)

theorem Snapshot.enabled_of_firstEnabled? {snapshot : Snapshot} {start t : ThreadId}
    (h : snapshot.firstEnabled? start = some t) : ∃ p, snapshot[t]? = some p ∧ p.enabled := by
  have := List.find?_some h
  simpa [Option.any_eq_true] using this

/-- The level of a snapshot at which every enabled thread is to be explored. -/
def Level.exhaustive (step : Step) (snapshot : Snapshot) : Level :=
  { step, entries := snapshot.map fun p => { toPending := p, marked := p.enabled } }

namespace Level

variable {step : Step} {snapshot : Snapshot} {start t : ThreadId}

theorem markEnabled_capture (step : Step) (snapshot : Snapshot) :
    markEnabled { step, entries := snapshot.map Entry.capture } = exhaustive step snapshot := by
  have hmark (p : Pending) :
      (if p.enabled then (Entry.capture p).mark else Entry.capture p) =
        { toPending := p, marked := p.enabled } := by
    cases p.enabled <;> simp [Entry.capture, Entry.mark]
  simp only [markEnabled, Level.exhaustive, List.map_map]
  exact congrArg (fun entries : List Entry => ({ step, entries } : Level))
    (List.map_congr_left fun p _ => hmark p)

/-- Where every enabled thread is to be explored, the first of them in turn comes first. -/
theorem firstAwake_exhaustive (dense : snapshot.Dense) (h : snapshot.firstEnabled? start = some t) :
    (Level.exhaustive step snapshot).firstAwake start = .thread t := by
  have hawake (i : Nat) : ((Level.exhaustive step snapshot).entries[i]?.any Entry.awake) =
      (snapshot[i]?.any (·.enabled)) := by
    cases hp : snapshot[i]? <;> simp [Level.exhaustive, Entry.awake, hp]
  have hlength : (Level.exhaustive step snapshot).entries.length = snapshot.length := by
    simp [Level.exhaustive]
  obtain ⟨p, hp, -⟩ := Snapshot.enabled_of_firstEnabled? h
  have hfirst : ((Level.exhaustive step snapshot).inTurn start).find? Entry.awake =
      some { toPending := p, marked := p.enabled } := by
    rw [inTurn, List.find?_filterMap]
    simp only [hawake, hlength]
    rw [show List.find? _ _ = some t from h]
    simp [Level.exhaustive, hp]
  rw [firstAwake, hfirst]
  exact congrArg Choice.thread (dense t p hp)

end Level

namespace Scheduler

variable {c : Config} {s : Scheduler} {choices : Snapshot} {t u : ThreadId}

/-- The scheduler without directives. -/
def undirected (s : Scheduler) : Scheduler := { s with replay := [], replayed := 0 }

/-- What was left to be replayed is dropped. Then the next level is visited, and forcing a thread
goes well just if it is the one that is selected there. -/
theorem force_comesTo (random : s.randomized) {below : List Level}
    (hbelow : s.schedule.levels.take s.schedule.visited = below)
    (hlength : below.length = s.schedule.visited) {s' s'' : Scheduler} {current : ThreadId}
    (hvisit : (visit (some t) choices current).Yields (s.undirected.on below below.length) () s')
    (hsettle : (settle current).Yields s' (.run u) s'') :
    (force t choices current).ComesTo s
      (if u = t then count .forced 1 else Action.fail (.forcingRefused t)) s'' := by
  have habandon : (abandon false).Yields s () (s.undirected.on below below.length) := by
    refine (yields_get s).bind ?_
    rw [if_pos random, hlength, ← hbelow]
    exact yields_modify _ _
  have hdecided := hsettle.bind_comesTo fun d =>
    if d = .run t then count .forced 1 else Action.fail (.forcingRefused t)
  have hforced := (habandon.bind_comesTo fun _ => _).trans ((hvisit.bind_comesTo fun _ => _).trans
    hdecided)
  simp only [Decision.run.injEq] at hforced
  exact hforced

/-- A thread that is enabled is marked when it is forced. -/
theorem markTop_forced {step : Step} {below : List Level} (hanalysis : s.analysis.isSome)
    {p : Pending} (hp : choices[t]? = some p) (henabled : p.enabled) (current : ThreadId) :
    (markTop (some t) current).Yields
      (s.undirected.on (below ++ [{ step, entries := choices.map Entry.capture }])
        (below.length + 1)) ()
      (s.undirected.on (below ++ [Level.aimed step choices t []]) (below.length + 1)) := by
  obtain ⟨analysis, ha⟩ := Option.isSome_iff_exists.1 hanalysis
  refine (yields_get _).bind ((yields_lift (top_mid rfl) _).bind ?_)
  have hnone : s.undirected.replay[s.undirected.replayed]? = none := rfl
  simp only [on_analysis, on_replay, on_replayed, hnone,
    show s.undirected.analysis = some analysis from ha]
  refine onSchedule_yields (Schedule.onTop_mid (a := ()) ?_)
  simp only [Level.markThread, Level.entry, List.getElem?_map, hp, Option.map_some, bind,
    Except.bind]
  rw [if_pos (show (Entry.capture p).enabled from henabled)]
  rfl

/-- Without analysis all threads that are enabled are marked, whatever is forced. -/
theorem markTop_exhaustive {step : Step} {below : List Level} (hanalysis : s.analysis = none)
    (forced : Option ThreadId) (current : ThreadId) :
    (markTop forced current).Yields
      (s.undirected.on (below ++ [{ step, entries := choices.map Entry.capture }])
        (below.length + 1)) ()
      (s.undirected.on (below ++ [Level.exhaustive step choices]) (below.length + 1)) := by
  refine (yields_get _).bind ((yields_lift (top_mid rfl) _).bind ?_)
  simp only [on_analysis, show s.undirected.analysis = none from hanalysis]
  refine onSchedule_yields ⟨[], ?_⟩
  rw [modify_apply, Schedule.modifyTop_mid, Level.markEnabled_capture]

variable {blocked : Bool}

/-- In random mode sleep is not inherited, and the generator makes any decision one that may be
forced. -/
theorem Reachable.roaming (h : Reachable c s blocked) (random : c.mode = .random) :
    s.undirected.sleepSets = false ∧ s.randomized ∧
      (s.schedule.levels.take s.schedule.visited).length = s.schedule.visited := by
  refine ⟨?_, ?_, List.length_take_of_le h.steady.1.schedule.visited_le⟩
  · exact h.made.sleepSets.trans (by simp [random])
  · have := h.steady.1.generator
    simpa [randomized, random] using this

/-- In random mode, and with the analysis, a thread that is enabled runs if it is forced, in
whatever state that is reached: the levels that were visited stay, one at which it is selected is
added, and nothing is left to be replayed. -/
theorem Reachable.force_runs (h : Reachable c s blocked) (random : c.mode = .random)
    (reduction : c.reduction = true) (dense : choices.Dense) {p : Pending}
    (hp : choices.unstick[t]? = some p) (henabled : p.enabled) (current : ThreadId) :
    ∃ s', (force t choices current).Yields s () s' ∧
      s'.schedule.levels = s.schedule.levels.take s.schedule.visited ++
        [Level.picked (s.schedule.visited + 1) choices.unstick t []] ∧
      s'.schedule.visited = s.schedule.visited + 1 ∧ s'.pending = [] := by
  obtain ⟨hsleep, hrandomized, hlength⟩ := h.roaming random
  have hanalysis : s.analysis.isSome := h.made.analysis.trans reduction
  generalize hbelow : s.schedule.levels.take s.schedule.visited = below at hlength ⊢
  rw [← hlength]
  obtain ⟨hresult, hstate⟩ := force_comesTo hrandomized hbelow hlength
    (visit_fresh hsleep dense (markTop_forced hanalysis hp henabled current))
    (settle_picked dense hp henabled)
  rw [if_pos rfl] at hresult hstate
  have hyields := yields_of_result hresult
  rw [hstate] at hyields
  exact ⟨_, hyields, rfl, rfl, rfl⟩

/-- In random mode, and without the analysis, the thread that runs does not depend on the one that
is forced: it is the first one that is enabled, in turn from the thread that ran last. Any other is
refused, though it may be enabled, after the level was added at which the first one is selected. -/
theorem Reachable.force_in_turn (h : Reachable c s blocked) (random : c.mode = .random)
    (unreduced : c.reduction = false) (dense : choices.Dense) {current : ThreadId}
    (hu : choices.unstick.firstEnabled? current = some u) (t : ThreadId) :
    (force t choices current s).result =
        (if u = t then .ok () else .error (.forcingRefused t)) ∧
      (force t choices current s).state.schedule.levels =
        s.schedule.levels.take s.schedule.visited ++
          [{ Level.exhaustive (s.schedule.visited + 1) choices.unstick with selected := some u }] ∧
      (force t choices current s).state.schedule.visited = s.schedule.visited + 1 ∧
      (force t choices current s).state.pending = [] := by
  obtain ⟨hsleep, hrandomized, hlength⟩ := h.roaming random
  have hanalysis : s.analysis = none := by
    have := h.made.analysis
    rw [unreduced] at this
    simpa using this
  obtain ⟨p, hp, henabled⟩ := Snapshot.enabled_of_firstEnabled? hu
  generalize hbelow : s.schedule.levels.take s.schedule.visited = below at hlength ⊢
  rw [← hlength]
  have hentry : (Level.exhaustive (below.length + 1) choices.unstick).entries[u]? =
      some { toPending := p, marked := p.enabled } := by simp [Level.exhaustive, hp]
  have hrunnable : p.runnable := by simp [Pending.runnable, henabled]
  obtain ⟨hresult, hstate⟩ := force_comesTo hrandomized hbelow hlength
    (visit_fresh hsleep dense (markTop_exhaustive hanalysis (some t) current))
    (settle_thread rfl (Level.firstAwake_exhaustive dense.unstick hu) hentry hrunnable)
  rw [hresult, hstate]
  by_cases hut : u = t
  · rw [if_pos hut, if_pos hut]
    exact ⟨rfl, rfl, rfl, rfl⟩
  · rw [if_neg hut, if_neg hut]
    exact ⟨rfl, rfl, rfl, rfl⟩

example : (force 1
    [⟨0, true, .yield, .thread, none, none⟩, ⟨1, true, .yield, .thread, none, none⟩] 0
    (.new { mode := .random, reduction := false })).result = .error (.forcingRefused 1) := by rfl

end Scheduler

end Interleaving
