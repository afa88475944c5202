import Interleaving.Proofs.Scheduling

/-!
# The scheduler's calls in random mode

In random mode a level that is there is replayed, too. Past the end of the stack the next directive
is followed, and when none is left a thread that is enabled is picked at random.

## Main definitions

* `Scheduler.Roams` — a scheduler explores at random.
* `Level.picked` — the level at which a thread was picked.

## Main statements

* `Scheduler.next_replay`, `Scheduler.Roams.next_directive`, `Scheduler.Roams.next_random` — a
  thread is run again, as a directive says, or at random.
* `Scheduler.Roams.drawBool_random` — a truth value is drawn at random.
-/

namespace Interleaving

open Interleaving.Action

/-- The level of a snapshot at which only one thread is to be explored, with draws to replay. -/
def Level.aimed (step : Step) (snapshot : Snapshot) (t : ThreadId) (draws : List Draw) : Level :=
  { step, entries := (snapshot.map Entry.capture).modify t Entry.mark, draws }

/-- The level at which this thread is selected. -/
def Level.picked (step : Step) (snapshot : Snapshot) (t : ThreadId) (draws : List Draw) : Level :=
  { Level.aimed step snapshot t draws with selected := some t }

namespace Level

variable {step : Step} {snapshot : Snapshot} {t : ThreadId} {draws : List Draw}

@[simp] theorem pendings_picked : (picked step snapshot t draws).pendings = snapshot := by
  have h := pendings_modifyEntry { step, entries := snapshot.map Entry.capture } t
    (f := Entry.mark) fun _ => rfl
  refine Eq.trans h ?_
  simp [pendings, Function.comp_def]

theorem getElem?_aimed {p : Pending} (hp : snapshot[t]? = some p) :
    (aimed step snapshot t draws).entries[t]? = some (Entry.capture p).mark := by
  simp [aimed, hp]

/-- The only thread that is marked is the first one to explore. -/
theorem firstAwake_aimed (dense : snapshot.Dense) {p : Pending} (hp : snapshot[t]? = some p)
    (start : ThreadId) : (aimed step snapshot t draws).firstAwake start = .thread t := by
  have hmarked : (aimed step snapshot t draws).entries[t]? = some (Entry.capture p).mark :=
    getElem?_aimed hp
  obtain ⟨u, hu⟩ := exists_firstAwake start (List.mem_of_getElem? hmarked) rfl
  obtain ⟨e, he, hawake, rfl⟩ := exists_awake_of_firstAwake hu
  obtain ⟨i, hi⟩ := List.mem_iff_getElem?.1 he
  rw [aimed, List.getElem?_modify, List.getElem?_map] at hi
  obtain ⟨c, hc, rfl⟩ := Option.map_eq_some_iff.1 hi
  obtain ⟨q, hq, rfl⟩ := Option.map_eq_some_iff.1 hc
  by_cases hit : t = i
  · subst hit
    rw [hu, if_pos rfl]
    exact congrArg Choice.thread (dense t q hq)
  · simp [hit, Entry.awake] at hawake

end Level

namespace Scheduler

/-- The scheduler explores at random, and reverses a race after every iteration. -/
structure Roams (limit : Option Nat) (s : Scheduler) : Prop where
  randomized : s.schedule.randomized = true
  generator : s.generator.isSome
  analysis : s.analysis.isSome
  sleepSets : s.sleepSets = false
  stepLimit : s.stepLimit = limit
  unlimited : s.reversalLimit = none

theorem Roams.atStepLimit_on {limit : Option Nat} {s : Scheduler} (h : s.Roams limit)
    (levels : List Level) (visited : Nat) :
    (s.on levels visited).atStepLimit = limit.any fun bound => bound ≤ visited := by
  rw [← h.stepLimit]
  rfl

/-- The scheduler after one more directive. -/
def followed (s : Scheduler) : Scheduler := { s with replayed := s.replayed + 1 }

theorem Roams.followed {limit : Option Nat} {s : Scheduler} (h : s.Roams limit) :
    s.followed.Roams limit :=
  ⟨h.randomized, h.generator, h.analysis, h.sleepSets, h.stepLimit, h.unlimited⟩

theorem pending_followed {s : Scheduler} {d : Directive} {ds : List Directive}
    (h : s.pending = d :: ds) : s.followed.pending = ds := by
  change s.replay.drop (s.replayed + 1) = ds
  rw [← List.tail_drop]
  exact congrArg List.tail h

/-- The scheduler with another generator. -/
def regenerated (s : Scheduler) (g : Pcg) : Scheduler := { s with generator := some g }

theorem Roams.regenerated {limit : Option Nat} {s : Scheduler} (h : s.Roams limit) (g : Pcg) :
    (s.regenerated g).Roams limit :=
  ⟨h.randomized, rfl, h.analysis, h.sleepSets, h.stepLimit, h.unlimited⟩

/-- What was counted does not matter. -/
theorem Roams.recounted {limit : Option Nat} {s : Scheduler} (h : s.Roams limit) (iterations : Nat)
    (counters : Counters) : ({ s with iterations, counters } : Scheduler).Roams limit :=
  ⟨h.randomized, h.generator, h.analysis, h.sleepSets, h.stepLimit, h.unlimited⟩

variable {limit : Option Nat} {s : Scheduler} {below rest : List Level} {top : Level}
  {choices : Snapshot} {current t : ThreadId}

/-- The thread that ran at a level before is run again. -/
theorem next_replay (dense : choices.Dense) (hl : top.pendings = choices.unstick) {e : Entry}
    (hs : top.selected = some t) (he : top.entries[t]? = some e) (hr : e.runnable) :
    (next choices current).Yields (s.on (below ++ top :: rest) below.length) (.run t)
      (s.on (below ++ top.rewindDraws :: rest) (below.length + 1)) :=
  (Setting.Governs.visit_replay dense current hl).bind (settle_selected hs he hr)

/-- Past the end of the stack a level is added. It inherits nothing where sleep is not inherited. -/
theorem visit_fresh (awake : s.sleepSets = false) (dense : choices.Dense)
    {forced : Option ThreadId} {s' : Scheduler} {l : Level}
    (hmark : (markTop forced current).Yields
      (s.on (below ++ [{ step := below.length + 1, entries := choices.unstick.map Entry.capture }])
        (below.length + 1)) () (s'.on (below ++ [l]) (below.length + 1))) :
    (visit forced choices current).Yields (s.on below below.length) ()
      (s'.on (below ++ [l]) (below.length + 1)) := by
  refine (onSchedule_yields (Schedule.push_fresh dense.unstick below)).bind ?_
  simp only [if_true]
  refine (yields_get _).bind ?_
  have hsleep (levels : List Level) (visited : Nat) : (s.on levels visited).sleepSets = false :=
    awake
  rw [hsleep, if_neg Bool.false_ne_true]
  exact hmark

/-- At a level that was just added the thread is run that was marked there. -/
theorem settle_picked (dense : choices.Dense) {step : Step} {draws : List Draw} {p : Pending}
    (hp : choices.unstick[t]? = some p) (henabled : p.enabled) :
    (settle current).Yields
      (s.on (below ++ [Level.aimed step choices.unstick t draws]) (below.length + 1)) (.run t)
      (s.on (below ++ [Level.picked step choices.unstick t draws]) (below.length + 1)) := by
  refine settle_thread rfl (Level.firstAwake_aimed dense.unstick hp current)
    (Level.getElem?_aimed hp) ?_
  simp [Pending.runnable, Entry.mark, Entry.capture, henabled]

/-- A directive is followed. -/
theorem Roams.next_directive (h : s.Roams limit) (dense : choices.Dense) {d : Directive}
    {ds : List Directive} (hpending : s.pending = d :: ds) {p : Pending}
    (hp : choices.unstick[d.thread]? = some p) (henabled : p.enabled) :
    (next choices current).Yields (s.on below below.length) (.run d.thread)
      (s.followed.on (below ++ [Level.picked (below.length + 1) choices.unstick d.thread d.draws])
        (below.length + 1)) := by
  have hreplay : s.replay[s.replayed]? = some d := by
    rw [← List.head?_drop]
    exact congrArg List.head? hpending
  obtain ⟨analysis, ha⟩ := Option.isSome_iff_exists.1 h.analysis
  refine (visit_fresh h.sleepSets dense ?_).bind (settle_picked dense hp henabled)
  refine (yields_get _).bind ((yields_lift (top_mid rfl) _).bind ?_)
  simp only [on_analysis, on_replay, on_replayed, ha, hreplay]
  refine (onSchedule_yields ⟨[], by rw [modify_apply, Schedule.modifyTop_mid]⟩).bind
    ((onSchedule_yields (Schedule.onTop_mid (a := ()) ?_)).bind (yields_modify _ _))
  simp only [Level.restoreDraws, Level.entry, List.getElem?_map, hp, Option.map_some, bind,
    Except.bind]
  rw [if_pos (by simp [Pending.runnable, Entry.capture, henabled])]
  rfl

/-- Marks a thread that is enabled, if there is one. -/
theorem markRandom_seen (step : Step) (snapshot : Snapshot) (g : Pcg) :
    ∃ g', (∃ t p, snapshot[t]? = some p ∧ p.enabled ∧
        Level.markRandom { step, entries := snapshot.map Entry.capture } g =
          (Level.aimed step snapshot t [], g')) ∨
      (∀ p ∈ snapshot, ¬ p.enabled) ∧
        Level.markRandom { step, entries := snapshot.map Entry.capture } g =
          ({ step, entries := snapshot.map Entry.capture }, g') := by
  unfold Level.markRandom
  generalize hcandidates : (List.range _).filter _ = candidates
  have hmem {t : Nat} : t ∈ candidates ↔ ∃ p, snapshot[t]? = some p ∧ p.enabled := by
    rw [← hcandidates, List.mem_filter, List.mem_range]
    simp only [Level.availableAt, List.getElem?_map, List.length_map]
    constructor
    · rintro ⟨hlt, havailable⟩
      refine ⟨_, List.getElem?_eq_getElem hlt, ?_⟩
      simpa [hlt, Entry.available, Entry.capture] using havailable
    · rintro ⟨p, hp, henabled⟩
      refine ⟨(List.getElem?_eq_some_iff.1 hp).1, ?_⟩
      simp [hp, Entry.available, Entry.capture, henabled]
  cases candidates with
  | nil =>
    refine ⟨g, .inr ⟨fun p hp henabled => ?_, rfl⟩⟩
    obtain ⟨t, ht⟩ := List.mem_iff_getElem?.1 hp
    simpa using hmem.2 ⟨p, ht, henabled⟩
  | cons first others =>
    have hpos : 0 < (first :: others).length := Nat.succ_pos others.length
    obtain ⟨n, g', hbelow, hlt⟩ := g.exists_below 64 hpos
    have ht := List.getElem?_eq_getElem hlt
    obtain ⟨p, hp, henabled⟩ := hmem.1 (List.mem_of_getElem? ht)
    refine ⟨g', .inl ⟨_, p, hp, henabled, ?_⟩⟩
    rw [if_neg (by simp), hbelow]
    simp only [ht]
    rfl

/-- When all directives were followed, a thread that is enabled is picked at random. -/
theorem Roams.next_random (h : s.Roams limit) (dense : choices.Dense) (hpending : s.pending = [])
    (below : List Level) (current : ThreadId) :
    ∃ g, (∃ (t : ThreadId) (p : Pending), choices.unstick[t]? = some p ∧ p.enabled ∧
        (next choices current).Yields (s.on below below.length) (.run t)
          ((s.regenerated g).on (below ++ [Level.picked (below.length + 1) choices.unstick t []])
            (below.length + 1))) ∨
      (∀ p ∈ choices.unstick, ¬ p.enabled) ∧
        (next choices current).Yields (s.on below below.length) .deadlock
          ((s.regenerated g).on
            (below ++ [{ step := below.length + 1, entries := choices.unstick.map Entry.capture }])
            (below.length + 1)) := by
  obtain ⟨analysis, ha⟩ := Option.isSome_iff_exists.1 h.analysis
  obtain ⟨g, hg⟩ := Option.isSome_iff_exists.1 h.generator
  have hreplay : s.replay[s.replayed]? = none := by
    rw [← List.head?_drop]
    exact congrArg List.head? hpending
  -- the level that was added is marked at random
  have hmark {g' : Pcg} {l : Level}
      (hl : Level.markRandom
        { step := below.length + 1, entries := choices.unstick.map Entry.capture } g = (l, g')) :
      (markTop none current).Yields
        (s.on
          (below ++ [{ step := below.length + 1, entries := choices.unstick.map Entry.capture }])
          (below.length + 1)) ()
        ((s.regenerated g').on (below ++ [l]) (below.length + 1)) := by
    refine (yields_get _).bind ((yields_lift (top_mid rfl) _).bind ?_)
    simp only [on_analysis, on_replay, on_replayed, on_generator, ha, hreplay, hg, hl]
    rw [on_schedule, Schedule.modifyTop_mid, ← ha]
    exact yields_set _ _
  obtain ⟨g', ⟨t, p, hp, henabled, hl⟩ | ⟨hnone, hl⟩⟩ :=
    markRandom_seen (below.length + 1) choices.unstick g
  · exact ⟨g', .inl ⟨t, p, hp, henabled,
      (visit_fresh h.sleepSets dense (hmark hl)).bind (settle_picked dense hp henabled)⟩⟩
  · refine ⟨g', .inr ⟨hnone,
      (visit_fresh h.sleepSets dense (hmark hl)).bind (settle_nothing rfl ?_)⟩⟩
    have hawake : ∀ e ∈ choices.unstick.map Entry.capture, ¬ e.awake ∧ ¬ e.asleep := by
      simp [Entry.awake]
    cases hfirst : Level.firstAwake
        { step := below.length + 1, entries := choices.unstick.map Entry.capture } current with
    | nothing => rfl
    | thread t =>
      obtain ⟨e, he, ha, -⟩ := Level.exists_awake_of_firstAwake hfirst
      exact absurd ha (hawake e he).1
    | allAsleep =>
      obtain ⟨e, he, ha⟩ := (Level.firstAwake_eq_allAsleep hfirst).2
      exact absurd ha (hawake e he).2

/-- Past the recorded truth values one is drawn at random. -/
theorem Roams.drawBool_random (h : s.Roams limit) (below rest : List Level) (top : Level)
    (hd : top.cursor = top.draws.length) :
    ∃ (g : Pcg) (b : Bool), drawBool.Yields (s.on (below ++ top :: rest) (below.length + 1)) b
      ((s.regenerated g).on (below ++ top.record (.ofBool b) :: rest) (below.length + 1)) := by
  obtain ⟨g, hg⟩ := Option.isSome_iff_exists.1 h.generator
  obtain ⟨v, g', hfresh, hlt⟩ := Level.exists_fresh .bool 2 g
  have hdraw : top.draw .bool 2 s.generator =
      .ok (v, top.record (.ofBool (v == 1)), some g') := by
    have hnone : top.draws[top.cursor]? = none := by simp [hd]
    have hvalue : Draw.ofBool (v == 1) = ⟨.bool, v⟩ := by
      have : v = 0 ∨ v = 1 := by
        have := hlt rfl
        omega
      rcases this with rfl | rfl <;> rfl
    simp [Level.draw, hnone, hg, hfresh, hvalue]
  exact ⟨g', v == 1, (draw_mid hdraw).bind (yields_pure _ _)⟩

end Scheduler

end Interleaving
