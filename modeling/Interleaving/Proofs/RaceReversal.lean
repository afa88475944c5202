import Interleaving.Proofs.Exploring
import Interleaving.Proofs.Marking
import Interleaving.Proofs.RandomIterations
import Interleaving.Proofs.Redundancy

/-!
# Explorations in random mode

After every iteration in random mode one race of its run is picked, and the next iteration reverses
it: it begins with the steps before the race and those between its two steps that do not need the
earlier one, then makes the later step, then the earlier. The directives for these steps can always
be followed, so that no call of the scheduler fails.

## Main definitions

* `Machine.plan` — the moves that an iteration is given after another one.
* `Excursion`, `Chained` — iterations, each of which begins with what it was given.
* `Reverses` — a run begins with the steps of another one with a race reversed.

## Main statements

* `Roamed.prepare_tells` — between two iterations.
* `Guided.iterate_tells`, `Guided.run_tells` — one iteration, and any number of them.
* `explore_reverses_races` — every race that is picked is reversed by the next iteration.
-/

namespace Interleaving

namespace Actors

open Interleaving.Action Machine

/-- The moves that the iteration after a run is given. They reverse the race that was picked. -/
noncomputable def Machine.plan (m : Machine) (xs : List Move) : Option Race → List Move
  | some race => m.reversed xs race
  | none => []

/-! ## Between two iterations -/

section Prepare

variable {scripts : List Script} {limit : Option Nat} {s : Scheduler} {G : List Level}
  {xs : List Move} {race : Race}

/-- What is planned after a run is given to the next iteration. -/
theorem Planned.guided (joinless : Joinless scripts) (recorded : Recorded scripts G xs)
    (within : ∀ bound ∈ limit, xs.length ≤ bound) (roams : s.Roams limit) {pick : Option Race}
    {L : List Level} (h : Planned scripts G xs pick L s.pending) :
    Guided scripts limit s L ((load scripts).plan xs pick) ∧
      ∀ race ∈ pick, (load scripts).HasRace xs race := by
  generalize hpending : s.pending = replay at h
  cases h with
  | afresh =>
    refine ⟨⟨roams, trivial, le_rfl, ?_, hpending, by simp [Machine.plan]⟩, by simp⟩
    exact ⟨⟨trivial, le_rfl, by simp, by simp⟩, by simp⟩
  | @reversal race hrace =>
    obtain ⟨hlt, u, hu⟩ := exists_reversed_eq joinless recorded.executes hrace
    have hsize :
        (G.take race.earlier.position).length = (xs.take race.earlier.position).length := by
      have := recorded.length_le
      rw [List.length_take, List.length_take]
      omega
    have hdrop : (xs.take race.earlier.position).length = race.earlier.position := by
      rw [List.length_take, Nat.min_eq_left (Nat.le_of_lt hlt)]
    refine ⟨⟨roams, reversed_executes joinless recorded.executes hrace, ?_, ?_, ?_, fun bound hb =>
      (length_reversed_le joinless recorded.executes hrace).trans (within bound hb)⟩, by simpa⟩
    all_goals simp only [Machine.plan, hsize]
    · rw [hu, List.length_append]
      exact Nat.le_add_right _ _
    · rw [hu, List.take_left]
      exact recorded.take _
    · rw [hpending, hdrop]

/-- The schedule of an iteration is analysed, and a race is picked. -/
theorem Roamed.analyse_tells (joinless : Joinless scripts) (h : Roamed scripts limit s G xs) :
    ∃ s' pick, Scheduler.analyse.Tells (s.on G G.length) () s' [pick] ∧ s'.Roams limit ∧
      Planned scripts G xs pick s'.schedule.levels s'.pending := by
  obtain ⟨analysis, ha⟩ := Option.isSome_iff_exists.1 h.roams.analysis
  obtain ⟨g, hg⟩ := Option.isSome_iff_exists.1 h.roams.generator
  let w : Workspace := ⟨analysis, (s.on G G.length).schedule, s.generator⟩
  obtain ⟨w', replay, pick, htells, hgenerator, hrandomized, hplanned⟩ :=
    Actors.analyse_tells (w := w) joinless h.recorded hg (h.steps w rfl)
  refine ⟨{ (s.on G G.length).analysed w' with replay }, pick,
    quiet_get.bind_tells (yields_get _) ?_, ?_, hplanned⟩
  · simp only [Scheduler.on_analysis, ha]
    exact (Tells.within (s := s.on G G.length) htells).bind_quiet
      ((quiet_modify _).bind fun _ => quiet_get.bind fun _ => Scheduler.quiet_count _ _)
      ((yields_modify _ _).bind ((yields_get _).bind (yields_modify _ _)))
  · exact ⟨hrandomized.trans h.roams.randomized, hgenerator, rfl, h.roams.sleepSets,
      h.roams.stepLimit, h.roams.unlimited⟩

/-- The next iteration is prepared: it is given the moves that reverse the race that was picked. -/
theorem Roamed.prepare_tells (joinless : Joinless scripts) (h : Roamed scripts limit s G xs) :
    ∃ s' L pick, Scheduler.prepare.Tells (s.on G G.length) true (s'.on L 0) [pick] ∧
      Guided scripts limit s' L ((load scripts).plan xs pick) ∧
      ∀ race ∈ pick, (load scripts).HasRace xs race := by
  have tallied : Roamed scripts limit (s.tallied G.length) G xs :=
    ⟨h.roams.recounted _ _, h.recorded, h.steps, h.within⟩
  obtain ⟨s', pick, hanalyse, roams, hplanned⟩ := tallied.analyse_tells joinless
  refine ⟨s', s'.schedule.levels, pick, ?_, hplanned.guided joinless h.recorded h.within roams⟩
  have hrewind : (Scheduler.onSchedule Schedule.rewind).Yields s' ()
      (s'.on s'.schedule.levels 0) := by
    refine ⟨[], ?_⟩
    rw [Scheduler.onSchedule, within_apply, Schedule.rewind, if_pos roams.randomized]
    rfl
  have hlimit : Scheduler.limitReversals.Yields (s'.on s'.schedule.levels 0) ()
      (s'.on s'.schedule.levels 0) := by
    obtain ⟨g, hg⟩ := Option.isSome_iff_exists.1 roams.generator
    have hunlimited : (s'.on s'.schedule.levels 0).reversalLimit = none := roams.unlimited
    refine (yields_get _).bind ?_
    simp only [Scheduler.on_generator, hg, hunlimited]
    exact yields_pure _ _
  refine (quiet_modify _).bind_tells (yields_modify _ _) (hanalyse.bind_quiet ?_
    (hrewind.bind (hlimit.bind ((yields_get _).bind ?_))))
  · exact (Scheduler.quiet_onSchedule Schedule.quiet_rewind).bind fun _ =>
      Scheduler.quiet_limitReversals.bind fun _ => quiet_get.bind fun _ =>
        Quiet.ite ((quiet_notify (by simp [Notice.pick?])).bind fun _ => quiet_pure _)
          (quiet_pure _)
  · have hrandomized : (s'.on s'.schedule.levels 0).randomized = true := roams.generator
    simp only [hrandomized, Bool.true_or, Bool.not_true, Bool.false_eq_true, if_false]
    exact yields_pure _ _

end Prepare

/-! ## Iterations -/

/-- What one iteration comes to: the run that it makes, how it ends, and the race that is picked
after it. -/
structure Excursion where
  moves : List Move
  ending : Ending
  pick : Option Race

/-- What is kept of an iteration. -/
def Excursion.execution (scripts : List Script) (r : Excursion) : Execution Machine :=
  ⟨(load scripts).moves r.moves, some r.ending⟩

/-- Iterations one after the other. The first one begins with the given moves, and each of the
others with those that reverse the race that was picked before it. -/
inductive Chained (scripts : List Script) : List Move → List Excursion → Prop
  | nil (xs : List Move) : Chained scripts xs []
  | cons {xs : List Move} {r : Excursion} {rs : List Excursion} :
    (load scripts).Executes r.moves → xs <+: r.moves →
    (∀ race ∈ r.pick, (load scripts).HasRace r.moves race) →
    Chained scripts ((load scripts).plan r.moves r.pick) rs → Chained scripts xs (r :: rs)

section Iterations

variable {scripts : List Script} {limit : Option Nat} {s : Scheduler} {L : List Level}
  {xs : List Move} {c : Config}

/-- The actors are executed once. -/
theorem Guided.program_yields (joinless : Joinless scripts) (h : Guided scripts limit s L xs)
    (executions : Array (Execution Machine)) :
    ∃ s' G ys ending, (Campaign.mk [scripts] []).program.Yields (s.on L 0, executions) ending
        (s'.on G G.length, executions.push ⟨(load scripts).moves ys, some ending⟩) ∧
      Roamed scripts limit s' G ys ∧ xs <+: ys := by
  obtain ⟨s', G, ys, ending, ⟨notices, hx⟩, hroamed, hys⟩ :=
    h.execute joinless (k := 0) (Nat.zero_le _) (lt_budget scripts)
  refine ⟨s', G, ys, ending, ⟨notices, ?_⟩, hroamed, hys⟩
  simp only [List.take_zero, moves_nil] at hx
  simp only [Campaign.program, Client.program, machine_single, hx]
  rfl

/-- One iteration. It begins with the moves that it was given, and the next one is given those that
reverse the race that is picked. -/
theorem Guided.iterate_tells (joinless : Joinless scripts) (h : Guided scripts limit s L xs)
    (executions : Array (Execution Machine)) :
    ∃ (more : Bool) (s' : Scheduler) (L' : List Level) (r : Excursion),
      (Exploration.iterate c (Campaign.mk [scripts] []).program).Tells
        (s.on L 0, executions) more (s'.on L' 0, executions.push (r.execution scripts)) [r.pick] ∧
      (c.maxIterations = none → more = true) ∧
      (load scripts).Executes r.moves ∧ xs <+: r.moves ∧
      (∀ race ∈ r.pick, (load scripts).HasRace r.moves race) ∧
      Guided scripts limit s' L' ((load scripts).plan r.moves r.pick) := by
  obtain ⟨s', G, ys, ending, hprogram, hroamed, hys⟩ := h.program_yields joinless executions
  have counted : Roamed scripts limit
      { s' with counters := s'.counters.add (.ended ending) 1 } G ys :=
    ⟨hroamed.roams.recounted _ _, hroamed.recorded, hroamed.steps, hroamed.within⟩
  obtain ⟨s'', L', pick, hprepare, hguided, hraces⟩ := counted.prepare_tells joinless
  refine ⟨!c.maxIterations.any fun limit => limit ≤ (s''.on L' 0).iterations, s'', L',
    ⟨ys, ending, pick⟩, ?_, fun hmax => by simp [hmax], hroamed.recorded.executes, hys, hraces,
    hguided⟩
  refine (Client.quiet_program _ _ _).bind_tells hprogram
    ((Client.quiet_ask (Scheduler.quiet_count _ _)).bind_tells
      (Goal.onScheduler_yields (yields_modify _ _) _)
      ((Tells.within (s := (_, executions.push _)) hprepare).bind_quiet
        ((Exploration.quiet_report c).bind fun _ => quiet_get.bind fun _ =>
          Quiet.ite (quiet_pure _) (Quiet.ite
            ((quiet_notify (by simp [Notice.pick?])).bind fun _ => quiet_pure _) (quiet_pure _)))
        ((Goal.report_yields c _).bind ((yields_get _).bind ?_))))
  simp only [Bool.not_true, Bool.false_eq_true, if_false]
  by_cases hmax : (c.maxIterations.any fun limit => limit ≤ (s''.on L' 0).iterations) = true
  · simp only [hmax, if_true, Bool.not_true]
    exact (yields_notify _ _).bind (yields_pure _ _)
  · simp only [hmax, Bool.false_eq_true, if_false, Bool.not_false]
    exact yields_pure _ _

/-- Any number of iterations, none of which fails. -/
theorem Guided.run_tells (joinless : Joinless scripts) (fuel : Nat) :
    ∀ {s : Scheduler} {L : List Level} {xs : List Move}, Guided scripts limit s L xs →
      ∀ executions : Array (Execution Machine), ∃ (ended : Bool) (t : Scheduler)
        (rs : List Excursion), (Exploration.run c (Campaign.mk [scripts] []).program fuel).Tells
          (s.on L 0, executions) ended
          (t, executions ++ (rs.map (Excursion.execution scripts)).toArray)
          (rs.map Excursion.pick) ∧
        (c.maxIterations = none → rs.length = fuel) ∧ Chained scripts xs rs := by
  induction fuel with
  | zero =>
    intro s L xs h executions
    refine ⟨false, s.on L 0, [], ⟨[], ?_, rfl⟩, fun _ => rfl, .nil xs⟩
    simp [Exploration.run]
  | succ fuel ih =>
    intro s L xs h executions
    obtain ⟨more, s', L', r, hiterate, hmore, hr, hxs, hraces, h'⟩ :=
      h.iterate_tells (c := c) joinless executions
    cases more with
    | false =>
      refine ⟨true, s'.on L' 0, [r], ?_, fun hmax => by simpa using hmore hmax,
        .cons hr hxs hraces (.nil _)⟩
      have hpush : executions ++ ([r].map (Excursion.execution scripts)).toArray =
          executions.push (r.execution scripts) := by simp
      rw [hpush]
      exact hiterate.bind_quiet (quiet_pure true) (yields_pure true _)
    | true =>
      obtain ⟨ended, t, rs, hrun, hlength, hlinked⟩ := ih h' (executions.push (r.execution scripts))
      refine ⟨ended, t, r :: rs, ?_, fun hmax => by simp [hlength hmax],
        .cons hr hxs hraces hlinked⟩
      have hpush : executions ++ ((r :: rs).map (Excursion.execution scripts)).toArray =
          executions.push (r.execution scripts) ++
            (rs.map (Excursion.execution scripts)).toArray := by simp
      rw [hpush]
      exact hiterate.bind hrun

end Iterations

/-- Each iteration reverses the race that was picked before it. -/
theorem Chained.reverses {scripts : List Script} {xs : List Move} {rs : List Excursion}
    (h : Chained scripts xs rs) {n : Nat} {r : Excursion} (hr : rs[n]? = some r) :
    (load scripts).Executes r.moves ∧ ∀ race ∈ r.pick, (load scripts).HasRace r.moves race ∧
      ∀ r', rs[n + 1]? = some r' → (load scripts).reversed r.moves race <+: r'.moves := by
  induction h generalizing n with
  | nil => simp at hr
  | @cons xs r₀ rs hexecutes _ hraces hlinked ih =>
    cases n with
    | succ n =>
      simp only [List.getElem?_cons_succ] at hr ⊢
      exact ih hr
    | zero =>
      obtain rfl : r₀ = r := by simpa using hr
      refine ⟨hexecutes, fun race hrace => ⟨hraces race hrace, fun r' hr' => ?_⟩⟩
      rw [Option.mem_def.1 hrace] at hlinked
      cases hlinked with
      | nil => simp at hr'
      | cons _ hbegins =>
        obtain rfl := Option.some.inj hr'
        exact hbegins

/-! ## Explorations -/

/-- The second run begins with the steps of the first one in the order in which they come when the
race is reversed. Each is made by an actor of the same origin, with the same instruction and the
same toss. -/
def Reverses (scripts : List Script) (xs : List Move) (race : Race) (ys : List Move) : Prop :=
  ((load scripts).reversal xs race).map (fun k => (deeds (founders scripts.length) xs)[k - 1]?) <+:
    (deeds (founders scripts.length) ys).map some

theorem reverses_of_isPrefix {scripts : List Script} (joinless : Joinless scripts)
    {xs ys : List Move} {race : Race} (h : (load scripts).Executes xs)
    (hrace : (load scripts).HasRace xs race) (hys : (load scripts).reversed xs race <+: ys) :
    Reverses scripts xs race ys := by
  rw [Reverses, ← deeds_reversed joinless h hrace]
  exact (deeds_isPrefix hys).map some

/-- The notices of an exploration tell of the choices that its iterations tell of. -/
theorem explore_tells {ω : Type} {c : Config} {program : Action (Scheduler × ω) Ending}
    {fuel : Nat} {w w' : ω} {s : Scheduler} {ended : Bool} {picks : List (Option Race)}
    (h : (Exploration.run c program fuel).Tells (Scheduler.new c, w) ended (s, w') picks) :
    ∃ stats, (Interleaving.explore c program fuel).Tells w stats w' picks := by
  obtain ⟨notices, h, rfl⟩ := h
  have quiet : (Exploration.counterNotices s.counters).filterMap Notice.pick? = [] := by
    simp [Exploration.counterNotices, List.filterMap_map, Function.comp_def, Notice.pick?]
  cases ended with
  | true =>
    refine ⟨some s.stats, _, by
      simp only [Interleaving.explore, bind_apply, get_apply, notify_apply, h, if_true, pure_apply]
      rfl, ?_⟩
    simp [List.filterMap_cons, Notice.pick?, quiet]
  | false =>
    refine ⟨none, _, by
      simp only [Interleaving.explore, bind_apply, get_apply, notify_apply, h, Bool.false_eq_true,
        if_false, pure_apply]
      rfl, ?_⟩
    simp [List.filterMap_cons, Notice.pick?]

/-- A scheduler in random mode is given no moves for its first iteration. -/
theorem guided_new {scripts : List Script} {c : Config} (mode : c.mode = .random)
    (reduction : c.reduction = true) (unlimited : c.reversalLimit = none) :
    Guided scripts c.stepLimit (Scheduler.new c) [] [] := by
  refine ⟨⟨?_, ?_, ?_, ?_, rfl, unlimited⟩, trivial, le_rfl, ?_, rfl, by simp⟩
  · simp [Scheduler.new, mode]
  · simp [Scheduler.new, mode]
  · simp [Scheduler.new, reduction]
  · simp [Scheduler.new, mode]
  · exact ⟨⟨trivial, le_rfl, by simp, by simp⟩, by simp⟩

/-- No exploration in random mode fails, and every iteration makes a run of the actors. After each
iteration the choice of a race is told. If a race was picked, its two steps race in the run, and the
run of the next iteration begins with the race reversed. -/
theorem explore_reverses_races {scripts : List Script} (joinless : Joinless scripts) {c : Config}
    (mode : c.mode = .random) (reduction : c.reduction = true)
    (unlimited : c.reversalLimit = none) (fuel : Nat)
    {outcome : Outcome (Array (Execution Machine)) (Option Stats)}
    (explored : (Campaign.mk [scripts] []).explore c fuel = outcome) :
    (∃ stats, outcome.result = .ok stats) ∧
    (c.maxIterations = none → outcome.state.size = fuel) ∧
    (∀ execution ∈ outcome.state, ∃ xs ending, (load scripts).Executes xs ∧
      execution = ⟨(load scripts).moves xs, some ending⟩) ∧
    (outcome.notices.filterMap Notice.pick?).length = outcome.state.size ∧
    ∀ n race execution xs, (outcome.notices.filterMap Notice.pick?)[n]? = some (some race) →
      outcome.state[n]? = some execution → (load scripts).Executes xs →
      execution.state = (load scripts).moves xs →
      (load scripts).HasRace xs race ∧
      ∀ execution' ys, outcome.state[n + 1]? = some execution' → (load scripts).Executes ys →
        execution'.state = (load scripts).moves ys → Reverses scripts xs race ys := by
  obtain ⟨ended, t, rs, hrun, hlength, hlinked⟩ :=
    (guided_new mode reduction unlimited).run_tells (c := c) joinless fuel #[]
  obtain ⟨stats, notices, hexplore, hpicks⟩ := explore_tells hrun
  have houtcome : outcome =
      ⟨.ok stats, (rs.map (Excursion.execution scripts)).toArray, notices⟩ := by
    rw [← explored, Campaign.explore, hexplore, Array.empty_append]
  subst houtcome
  have run_eq {n : Nat} {execution : Execution Machine} {xs : List Move}
      (hn : (rs.map (Excursion.execution scripts))[n]? = some execution)
      (hxs : (load scripts).Executes xs) (hstate : execution.state = (load scripts).moves xs) :
      ∃ r, rs[n]? = some r ∧ r.moves = xs := by
    rw [List.getElem?_map, Option.map_eq_some_iff] at hn
    obtain ⟨r, hr, rfl⟩ := hn
    exact ⟨r, hr, (hlinked.reverses hr).1.eq_of_moves_eq hxs hstate⟩
  refine ⟨⟨stats, rfl⟩, fun hmax => by simp [hlength hmax], fun execution he => ?_, ?_,
    fun n race execution xs hpick hn hxs hstate => ?_⟩
  · obtain ⟨r, hr, rfl⟩ : ∃ r ∈ rs, r.execution scripts = execution := by simpa using he
    obtain ⟨n, hn⟩ := List.mem_iff_getElem?.1 hr
    exact ⟨r.moves, r.ending, (hlinked.reverses hn).1, rfl⟩
  · simp [hpicks]
  · simp only [List.getElem?_toArray] at hn ⊢
    obtain ⟨r, hr, rfl⟩ := run_eq hn hxs hstate
    have hrace : race ∈ r.pick := by simpa [hpicks, hr] using hpick
    obtain ⟨hraces, hnext⟩ := (hlinked.reverses hr).2 race hrace
    refine ⟨hraces, fun execution' ys hn' hys hstate' => ?_⟩
    obtain ⟨r', hr', rfl⟩ := run_eq hn' hys hstate'
    exact reverses_of_isPrefix joinless hxs hraces (hnext r' hr')

/-- Two actors, each of which sends and then creates another one that sends to the same inbox. -/
def creators : List Script :=
  [[.send 5, .create [.send 5]], [.send 5, .create [.send 5, .toss]]]

/-- The second step of a run of the creators races with the ninth, and the race is picked. When it
is reversed the first actor to be created falls away, and the one that makes the ninth step takes
its number. -/
theorem explore_reverses_race_of_creators :
    ∃ (outcome : Outcome (Array (Execution Machine)) (Option Stats)) (xs ys : List Move),
      (Campaign.mk [creators] []).explore { mode := .random, seed := 1 } 2 = outcome ∧
      outcome.notices.filterMap Notice.pick? = [some ⟨2, 9⟩, some ⟨4, 5⟩] ∧
      (load creators).Executes xs ∧ (load creators).Executes ys ∧
      outcome.state.toList.map Execution.state =
        [(load creators).moves xs, (load creators).moves ys] ∧
      Reverses creators xs ⟨2, 9⟩ ys := by
  have hpicks : ((Campaign.mk [creators] []).explore
      { mode := .random, seed := 1 } 2).notices.filterMap Notice.pick? =
        [some ⟨2, 9⟩, some ⟨4, 5⟩] := by
    decide +kernel
  have joinless : Joinless creators := by
    simp [creators, Throughout, Instruction.every, Script.every, Instruction.joinless]
  obtain ⟨-, hsize, hruns, -, hreverses⟩ :=
    explore_reverses_races (c := { mode := .random, seed := 1 }) joinless rfl rfl rfl 2 rfl
  generalize (Campaign.mk [creators] []).explore { mode := .random, seed := 1 } 2 = outcome at *
  obtain ⟨e, e', he⟩ := List.length_eq_two.1 (outcome.state.length_toList.trans (hsize rfl))
  obtain ⟨xs, ending, hxs, rfl⟩ := hruns e (by simp [← Array.mem_toList_iff, he])
  obtain ⟨ys, ending', hys, rfl⟩ := hruns e' (by simp [← Array.mem_toList_iff, he])
  refine ⟨outcome, xs, ys, rfl, hpicks, hxs, hys, by simp [he], ?_⟩
  have hget (n : Nat) : outcome.state[n]? = outcome.state.toList[n]? := by simp
  have hrace := hreverses 0 ⟨2, 9⟩ _ xs (by simp [hpicks]) (by rw [hget, he]; rfl) hxs rfl
  exact hrace.2 _ ys (by rw [hget, he]; rfl) hys rfl

end Actors

end Interleaving
