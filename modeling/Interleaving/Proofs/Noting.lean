import Interleaving.Proofs.Schedules

/-!
# What an analysis changes

Step by step the walk over a schedule enters a step into its tables, joins clocks and looks for
races. The search for races adds races and marks and nothing else. At random, the reversal of a race
cuts the schedule back.

## Main definitions

* `Level.Remarked`, `Schedule.Remarked`, `Workspace.Noted` — what the search for races changes.
* `Analysis.sources`, `Analysis.clocked` — the tables after one more step.

## Main statements

* `Workspace.visit_ensures` — what one step of the walk does.
* `Workspace.walk_ensures` — an invariant of the walk.
* `Workspace.reverse_ensures` — what the reversal of a race does.
* `Workspace.analyse_cut` — the two together.
-/

namespace Interleaving

open Interleaving.Action

/-! ## Marks -/

/-- The second level has more marks than the first one, and is else the same. -/
structure Level.Remarked (l l' : Level) : Prop where
  rest : l' = { l with entries := l'.entries }
  entries : ∀ i : Nat, l'.entries[i]? = l.entries[i]? ∨
    ∃ e : Entry, l.entries[i]? = some e ∧ l'.entries[i]? = some e.mark

namespace Level.Remarked

variable {l l' l'' : Level}

theorem refl (l : Level) : l.Remarked l := ⟨rfl, fun _ => .inl rfl⟩

theorem trans (h : l.Remarked l') (h' : l'.Remarked l'') : l.Remarked l'' := by
  refine ⟨?_, fun i => ?_⟩
  · rw [h'.rest, h.rest]
  · rcases h'.entries i with hi' | ⟨e', he', hi'⟩
    · rw [hi']
      exact h.entries i
    · rcases h.entries i with hi | ⟨e, he, hi⟩
      · exact .inr ⟨e', hi ▸ he', hi'⟩
      · obtain rfl : e.mark = e' := by simpa [hi] using he'
        exact .inr ⟨e, he, hi'⟩

theorem selected (h : l.Remarked l') : l'.selected = l.selected := by rw [h.rest]

/-- An entry keeps its operation and its sleep, and its mark if it has one. -/
theorem getElem? (h : l.Remarked l') {i : Nat} {e : Entry} (he : l.entries[i]? = some e) :
    ∃ e', l'.entries[i]? = some e' ∧ e'.toPending = e.toPending ∧ e'.asleep = e.asleep ∧
      (e.marked → e'.marked) := by
  rcases h.entries i with hi | ⟨f, hf, hi⟩
  · exact ⟨e, hi.trans he, rfl, rfl, id⟩
  · obtain rfl : e = f := by simpa [he] using hf
    exact ⟨e.mark, hi, rfl, rfl, fun _ => rfl⟩

theorem pendings (h : l.Remarked l') : l'.pendings = l.pendings := by
  apply List.ext_getElem?
  intro i
  rw [Level.pendings_getElem?, Level.pendings_getElem?]
  rcases h.entries i with hi | ⟨e, he, hi⟩
  · rw [hi]
  · simp [he, hi]

theorem length_entries (h : l.Remarked l') : l'.entries.length = l.entries.length := by
  have := congrArg List.length h.pendings
  simpa [Level.pendings] using this

theorem dense (h : l.Remarked l') (hl : l.Dense) : l'.Dense := by
  rw [Level.dense_iff] at hl ⊢
  rwa [h.pendings]

end Level.Remarked

theorem Level.remarked_mark (l : Level) (position : Nat) :
    l.Remarked (l.modifyEntry position Entry.mark) := by
  refine ⟨rfl, fun i => ?_⟩
  simp only [Level.getElem?_modifyEntry]
  cases l.entries[i]? with
  | none => simp
  | some e => by_cases hi : i = position <;> simp [hi]

/-- The second schedule has more marks than the first one, and is else the same. -/
structure Schedule.Remarked (s s' : Schedule) : Prop where
  rest : s' = { s with levels := s'.levels }
  length : s'.levels.length = s.levels.length
  levels : ∀ (i : Nat) (l : Level), s.levels[i]? = some l →
    ∃ l', s'.levels[i]? = some l' ∧ l.Remarked l'

namespace Schedule.Remarked

variable {s s' s'' : Schedule}

theorem refl (s : Schedule) : s.Remarked s := ⟨rfl, rfl, fun _ l hl => ⟨l, hl, .refl l⟩⟩

theorem trans (h : s.Remarked s') (h' : s'.Remarked s'') : s.Remarked s'' := by
  refine ⟨?_, h'.length.trans h.length, fun i l hl => ?_⟩
  · rw [h'.rest, h.rest]
  · obtain ⟨l', hl', hmarked⟩ := h.levels i l hl
    obtain ⟨l'', hl'', hmarked'⟩ := h'.levels i l' hl'
    exact ⟨l'', hl'', hmarked.trans hmarked'⟩

theorem visited (h : s.Remarked s') : s'.visited = s.visited := by rw [h.rest]

theorem of_getElem? (h : s.Remarked s') {i : Nat} {l' : Level} (hl' : s'.levels[i]? = some l') :
    ∃ l, s.levels[i]? = some l ∧ l.Remarked l' := by
  have hlt : i < s.levels.length := h.length ▸ (List.getElem?_eq_some_iff.1 hl').1
  obtain ⟨m, hm, hmarked⟩ := h.levels i _ (List.getElem?_eq_getElem hlt)
  obtain rfl : l' = m := by simpa [hl'] using hm
  exact ⟨_, List.getElem?_eq_getElem hlt, hmarked⟩

/-- The levels run the same steps whatever marks they have. -/
theorem performs (h : s.Remarked s') {tr : Trace} (hp : Performs s.levels tr) :
    Performs s'.levels tr := by
  intro k p hk
  obtain ⟨l, e, hl, he, hresolved, hselected⟩ := hp k p hk
  obtain ⟨l', hl', hmarked⟩ := h.levels (k - 1) l hl
  obtain ⟨t, ht, hentry⟩ := Level.of_selectedEntry_eq_ok he
  obtain ⟨e', he', hpending, -⟩ := hmarked.getElem? hentry
  refine ⟨l', e', hl', Level.selectedEntry_eq_ok (hmarked.selected.trans ht) he', ?_,
    hmarked.selected.trans hselected⟩
  rw [← hresolved, Level.resolved, Level.resolved, hpending, hmarked.length_entries, h.length]

end Schedule.Remarked

theorem Schedule.remarked_modifyLevel (s : Schedule) {f : Level → Level}
    (hf : ∀ l : Level, l.Remarked (f l))
    (step : Step) : s.Remarked (s.modifyLevel f step) := by
  cases step with
  | zero => exact .refl s
  | succ position =>
    refine ⟨rfl, by simp [Schedule.modifyLevel], fun i l hl => ?_⟩
    simp only [Schedule.modifyLevel, List.getElem?_modify, hl]
    by_cases hi : position = i
    · exact ⟨f l, by simp [hi], hf l⟩
    · exact ⟨l, by simp [hi], .refl l⟩

/-! ## The search for races -/

/-- The second workspace has other races than the first one, and more marks. -/
structure Workspace.Noted (w w' : Workspace) : Prop where
  analysis : ∃ races, w'.analysis = { w.analysis with races }
  generator : w'.generator = w.generator
  schedule : w.schedule.Remarked w'.schedule

namespace Workspace

variable {w w' w'' : Workspace}

theorem Noted.refl (w : Workspace) : w.Noted w := ⟨⟨w.analysis.races, rfl⟩, rfl, .refl _⟩

theorem Noted.trans (h : w.Noted w') (h' : w'.Noted w'') : w.Noted w'' := by
  obtain ⟨races, hraces⟩ := h.analysis
  obtain ⟨races', hraces'⟩ := h'.analysis
  refine ⟨⟨races', ?_⟩, h'.generator.trans h.generator, h.schedule.trans h'.schedule⟩
  rw [hraces', hraces]

theorem noted_addRace (w : Workspace) (race : Race) : w.Noted (w.addRace race) :=
  ⟨⟨_, rfl⟩, rfl, .refl _⟩

theorem Noted.join (h : w.Noted w') (i s : Step) :
    (w.modifyAnalysis (·.join i s)).Noted (w'.modifyAnalysis (·.join i s)) := by
  obtain ⟨races, hraces⟩ := h.analysis
  exact ⟨⟨races, by simp [modifyAnalysis, Analysis.join, hraces]⟩, h.generator, h.schedule⟩

theorem addBacktrackPoint_noted (race : Race) (first second : ThreadId) :
    (addBacktrackPoint race first second).Ensures w fun _ w' => w.Noted w' := by
  refine (addBacktrackPoint_ensures race first second).mono fun _ w' hw' => ?_
  obtain ⟨_, _, position, _, -, -, -, -, ⟨-, rfl⟩ | rfl⟩ := hw'
  · exact .refl _
  · exact ⟨⟨_, rfl⟩, rfl, w.schedule.remarked_modifyLevel (fun l => l.remarked_mark position) _⟩

theorem addRaces_noted (b : Step) (e : Entry) (a : Step) :
    (addRaces b e a).Ensures w fun _ w' => w.Noted w' := by
  refine (yields_get w).bind_ensures (ensures_each (P := w.Noted) (fun j v hv => ?_) (.refl w))
  refine (yields_get v).bind_ensures (bind_lift_ensures fun d _ => ?_)
  split
  · exact (yields_notify _ _).bind_ensures
      ((yields_set _ _).ensures (hv.trans (v.noted_addRace _)))
  · exact ensures_pure hv

/-- A step is compared only with a step that there is. -/
theorem detect_noted (b : Step) (e : Entry) (a : Step) :
    (detect b e a).Ensures w fun _ w' => 0 < a ∧ w.Noted w' := by
  refine (yields_get w).bind_ensures (bind_lift_ensures fun d hd => ?_)
  have ha : 0 < a := by
    rcases Nat.eq_zero_or_pos a with rfl | ha
    · simp [executed, Schedule.level, Schedule.level?, bind, Except.bind] at hd
    · exact ha
  split
  · exact ensures_pure ⟨ha, .refl w⟩
  · split
    · exact (addRaces_noted b e a).mono fun _ _ h => ⟨ha, h⟩
    · refine (yields_notify _ _).bind_ensures ((yields_set _ _).bind_ensures ?_)
      exact (addBacktrackPoint_noted _ _ _).mono fun _ _ h =>
        ⟨ha, (w.noted_addRace _).trans h⟩

/-- A step is ordered only after an earlier one. Its clock is joined with that of the earlier one
unless it is a send in random mode. -/
theorem order_ensures {b : Step} {e : Entry} {a : Step} {Q : Unit → Workspace → Prop}
    (h : ∀ w', 0 < a → a < b → w.Noted w' → Q ()
      (if w.randomized && e.op == .send then w' else w'.modifyAnalysis (·.join b a))) :
    (order b e a).Ensures w Q := by
  unfold order
  split
  · exact ensures_fail _ _ _
  · next hba =>
    refine ((detect_noted b e a).mono fun _ w' hw' => ?_).bind
    have hrandom : w'.randomized = w.randomized := by
      rw [randomized, randomized, hw'.2.generator]
    refine (yields_modify _ _).ensures ?_
    rw [hrandom]
    exact h w' hw'.1 (Nat.lt_of_not_le hba) hw'.2

end Workspace

/-! ## The clock of a step -/

@[simp] theorem ClockTable.width_fill (table : ClockTable) (step : Step)
    (f : ClockTable → ThreadId → Nat) : (table.fill step f).width = table.width := by
  unfold fill
  generalize List.range table.width = threads
  induction threads generalizing table with
  | nil => rfl
  | cons t threads ih => simp [ih]

@[simp] theorem ClockTable.width_join (table : ClockTable) (target source : Step) :
    (table.join target source).width = table.width := table.width_fill _ _

namespace Analysis

/-- The steps other than the one before it of its thread that step `i`, which runs `q`, is ordered
after: the last steps of the other threads if it waits for quiescence, and else its source. -/
def sources (a : Analysis) (sends : Bool) (i : Step) (q : Pending) : List Step :=
  if q.op = .quiesce then
    (a.begin i q.thread).lastStep.zipIdx.filterMap fun (last, u) =>
      if u = q.thread then none else last
  else if q.op = .send ∧ sends = false then []
  else (a.enter i q).2.toList

/-- The tables after step `i`, which runs `q`. -/
def clocked (a : Analysis) (sends : Bool) (i : Step) (q : Pending) : Analysis :=
  { (a.enter i q).1 with
    clocks := (a.sources sends i q).foldl (fun clocks s => clocks.join i s) (a.enter i q).1.clocks }

variable {a : Analysis} {sends : Bool} {i : Step} {q : Pending}

theorem enter_of_quiesce (h : q.op = .quiesce) : a.enter i q = (a.begin i q.thread, none) := by
  unfold enter
  split <;> simp [h, access]

theorem clocked_of_quiesce (h : q.op = .quiesce) :
    a.clocked sends i q = (a.begin i q.thread).quiesce i q.thread := by
  simp [clocked, sources, enter_of_quiesce h, h, quiesce]

theorem clocked_of_none (h : q.op ≠ .quiesce) (hs : (a.enter i q).2 = none) :
    a.clocked sends i q = (a.enter i q).1 := by
  have hsources : a.sources sends i q = [] := by simp [sources, h, hs]
  rw [clocked, hsources]
  rfl

theorem clocked_of_some {s : Step} (h : q.op ≠ .quiesce) (hs : (a.enter i q).2 = some s) :
    a.clocked sends i q =
      if !sends && q.op == .send then (a.enter i q).1 else (a.enter i q).1.join i s := by
  by_cases hunordered : q.op = .send ∧ sends = false
  · have hsources : a.sources sends i q = [] := by simp [sources, hunordered]
    rw [clocked, hsources, if_pos (by simp [hunordered])]
    rfl
  · have hsources : a.sources sends i q = [s] := by simp [sources, h, hs, hunordered]
    rw [clocked, hsources, if_neg (by simpa [and_comm] using hunordered)]
    rfl

@[simp] theorem width_begin (a : Analysis) (i : Step) (t : ThreadId) :
    (a.begin i t).clocks.width = a.clocks.width := by
  unfold begin
  cases a.lastStep[t]?.join <;> simp [ClockTable.stamp, ClockTable.clear, ClockTable.copy]

@[simp] theorem width_clocked (a : Analysis) (sends : Bool) (i : Step) (q : Pending) :
    (a.clocked sends i q).clocks.width = a.clocks.width := by
  have hjoins (sources : List Step) (table : ClockTable) :
      (sources.foldl (fun clocks s => clocks.join i s) table).width = table.width := by
    induction sources generalizing table with
    | nil => rfl
    | cons s sources ih => simp [ih]
  simp [clocked, hjoins]

@[simp] theorem length_lastStep_clocked (a : Analysis) (sends : Bool) (i : Step) (q : Pending) :
    (a.clocked sends i q).lastStep.length = a.lastStep.length := by
  simp [clocked, begin]

end Analysis

namespace Workspace

variable {w : Workspace}

/-- The workspace with step `i` entered, which runs `q`. -/
abbrev enter (w : Workspace) (i : Step) (q : Pending) : Workspace :=
  { w with analysis := (w.analysis.enter i q).1 }

/-- What the visit of a step comes to, in terms of the operation that it runs. -/
theorem visit_comesTo {i : Step} {l : Level} {e : Entry} {q : Pending}
    (hl : w.schedule.level i = .ok l) (he : l.selectedEntry = .ok e)
    (hq : l.resolved w.schedule.levels.length i e = q) :
    (visit i).ComesTo w
      (match (w.analysis.enter i q).2 with
        | none => Action.set { w with analysis := w.analysis.clocked (!w.randomized) i q }
        | some a => order i e a) (w.enter i q) := by
  have htarget (a : Analysis) : target? { w with analysis := a } i l e = q.target := by
    rw [← hq]
    rfl
  have hop : e.op = q.op := by rw [← hq]; rfl
  have hthread : e.thread = q.thread := by rw [← hq]; rfl
  have hsend : e.sendStep = q.sendStep := by rw [← hq]; rfl
  refine ((yields_get _).bind_comesTo _).trans (((yields_lift hl _).bind_comesTo _).trans
    (((yields_lift he _).bind_comesTo _).trans ?_))
  simp only [modifyAnalysis, htarget, hop, hthread, hsend]
  by_cases hwaits : q.op = .quiesce
  · rw [if_pos hwaits, Analysis.enter_of_quiesce hwaits, Analysis.clocked_of_quiesce hwaits]
    exact ⟨rfl, rfl⟩
  · rw [if_neg hwaits]
    cases hx : q.target with
    | none =>
      have henter : w.analysis.enter i q = (w.analysis.begin i q.thread, none) := by
        simp [Analysis.enter, hx]
      rw [Analysis.clocked_of_none hwaits (by rw [henter]), henter]
      exact ⟨rfl, rfl⟩
    | some x =>
      have henter : w.analysis.enter i q =
          (w.analysis.begin i q.thread).access i q.op x q.sendStep := by
        simp [Analysis.enter, hx]
      refine ((yields_set _ _).bind_comesTo _).trans ?_
      cases hs : (w.analysis.enter i q).2 with
      | none =>
        rw [Analysis.clocked_of_none hwaits hs, ← henter, hs]
        exact ⟨rfl, rfl⟩
      | some a =>
        rw [← henter, hs]
        exact .refl _ _

/-- A step that is visited has an earlier source or none, and it is given its clock. -/
theorem visit_ensures {i : Step} {l : Level} {e : Entry} {q : Pending}
    (hl : w.schedule.level i = .ok l) (he : l.selectedEntry = .ok e)
    (hq : l.resolved w.schedule.levels.length i e = q) :
    (visit i).Ensures w fun _ w' =>
      (q.op ≠ .quiesce → ∀ s ∈ (w.analysis.enter i q).2, 0 < s ∧ s < i) ∧
      Noted { w with analysis := w.analysis.clocked (!w.randomized) i q } w' := by
  refine (visit_comesTo hl he hq).ensures ?_
  cases hs : (w.analysis.enter i q).2 with
  | none => exact (yields_set _ _).ensures ⟨by simp, .refl _⟩
  | some s =>
    have hwaits : q.op ≠ .quiesce := by
      intro hwaits
      simp [Analysis.enter_of_quiesce hwaits] at hs
    have hop : e.op = q.op := by rw [← hq]; rfl
    refine order_ensures fun w' hpos hlt noted => ⟨by simp [hpos, hlt], ?_⟩
    rw [Analysis.clocked_of_some hwaits hs, Bool.not_not, hop]
    by_cases hunordered : (w.randomized && q.op == .send) = true
    · rw [if_pos hunordered]
      exact (if_pos hunordered).symm ▸ noted
    · rw [if_neg hunordered]
      exact (if_neg hunordered).symm ▸ noted.join i s

/-- An invariant of the walk, `P k` holding after the first `k` steps. -/
theorem walk_ensures (P : Nat → Workspace → Prop)
    (start : P 0 (w.modifyAnalysis (·.reset w.steps w.threads)))
    (step : ∀ k v, k < w.steps → P k v → (visit (k + 1)).Ensures v fun _ v' => P (k + 1) v') :
    walk.Ensures w fun _ w' => P w.steps w' := by
  refine (yields_get _).bind_ensures ((yields_set _ _).bind_ensures ?_)
  have hall : (each visit (List.range' 1 w.steps)).Ensures _ fun _ w' => P _ w' :=
    ensures_each_at P start fun k i v hi hv => by
      obtain ⟨hlt, rfl⟩ := List.getElem?_eq_some_iff.1 hi
      rw [List.length_range'] at hlt
      rw [List.getElem_range', Nat.one_mul, Nat.add_comm]
      exact step k v hlt hv
  rwa [List.length_range'] at hall

/-- The second workspace has other tables than the first one, and more marks. -/
structure Marked (w w' : Workspace) : Prop where
  generator : w'.generator = w.generator
  schedule : w.schedule.Remarked w'.schedule

/-- A step that is visited has a level with a selection. -/
theorem visit_reads (i : Step) : (visit i).Ensures w fun _ _ =>
    ∃ l e, w.schedule.level i = .ok l ∧ l.selectedEntry = .ok e :=
  (yields_get w).bind_ensures (bind_lift_ensures fun l hl => bind_lift_ensures fun e he =>
    fun _ _ _ => ⟨l, e, hl, he⟩)

theorem visit_marked (i : Step) : (visit i).Ensures w fun _ w' => w.Marked w' := by
  intro u w' h
  obtain ⟨l, e, hl, he⟩ := visit_reads i u w' h
  obtain ⟨-, -, hgenerator, hschedule⟩ := visit_ensures hl he rfl u w' h
  exact ⟨hgenerator, hschedule⟩

theorem walk_marked : walk.Ensures w fun _ w' => w.Marked w' := by
  refine walk_ensures (fun _ v => w.Marked v) ⟨rfl, .refl _⟩ fun k v _ hv => ?_
  exact (visit_marked (k + 1)).mono fun _ v' hv' =>
    ⟨hv'.generator.trans hv.generator, hv.schedule.trans hv'.schedule⟩

/-! ## The reversal of a race -/

/-- The second workspace has the tables of the first one, other threads missing perhaps, and keeps
as much of its schedule as is told. -/
structure Cut (w w' : Workspace) : Prop where
  analysis : ∃ missing, w'.analysis = { w.analysis with missing }
  generator : w'.generator.isSome = w.generator.isSome
  schedule : ∃ n, w'.schedule = w.schedule.cut n

theorem Cut.clocks {w' : Workspace} (h : w.Cut w') : w'.analysis.clocks = w.analysis.clocks := by
  obtain ⟨missing, hmissing⟩ := h.analysis
  rw [hmissing]

theorem Cut.races {w' : Workspace} (h : w.Cut w') : w'.analysis.races = w.analysis.races := by
  obtain ⟨missing, hmissing⟩ := h.analysis
  rw [hmissing]

theorem Cut.refl (hvisited : w.schedule.visited ≤ w.schedule.size) : w.Cut w := by
  refine ⟨⟨_, rfl⟩, rfl, w.schedule.size, ?_⟩
  have hmin : min w.schedule.visited w.schedule.levels.length = w.schedule.visited :=
    Nat.min_eq_left hvisited
  simp [Schedule.cut, Schedule.size, hmin]

theorem of_addMissing_eq_ok {a a' : Analysis} {t : ThreadId} (h : a.addMissing t = .ok a') :
    t ∉ a.missing ∧ a' = { a with
      missing := a.missing.takeWhile (· < t) ++ t :: a.missing.dropWhile (· < t) } := by
  unfold Analysis.addMissing at h
  split at h
  · simp at h
  · next hmem => exact ⟨hmem, (Except.ok.inj h).symm⟩

/-- What is kept of a race is told without a change of the schedule. -/
theorem keep_ensures {first : Event} : ∀ {steps : List Step} {kept : List Directive}
    {w : Workspace}, (keep first steps kept).Ensures w fun _ w' =>
      (∃ missing, w'.analysis = { w.analysis with missing }) ∧ w'.generator = w.generator ∧
        w'.schedule = w.schedule
  | [], _, _ => ensures_pure ⟨⟨_, rfl⟩, rfl, rfl⟩
  | i :: rest, kept, w => by
    refine (yields_get _).bind_ensures (bind_lift_ensures fun l _ => ?_)
    split
    · refine bind_lift_ensures fun e _ => ?_
      split
      · refine bind_lift_ensures fun analysis hmissing => (yields_set _ _).bind_ensures ?_
        obtain ⟨-, rfl⟩ := of_addMissing_eq_ok hmissing
        exact keep_ensures.mono fun _ _ h => h
      · exact keep_ensures
    · exact bind_lift_ensures fun d _ => keep_ensures

theorem reversal_ensures (race : Race) : (reversal race).Ensures w fun _ w' => w.Cut w' := by
  refine (yields_get _).bind_ensures (bind_lift_ensures fun t _ => ?_)
  refine (yields_notify _ _).bind_ensures (keep_ensures.mono fun kept v hv => ?_).bind
  obtain ⟨hanalysis, hgen, hschedule⟩ := hv
  refine (yields_get _).bind_ensures (bind_lift_ensures fun later _ => ?_)
  refine bind_lift_ensures fun earlier _ => (yields_set _ _).bind_ensures (ensures_pure ?_)
  exact ⟨hanalysis, congrArg Option.isSome hgen, _, congrArg (Schedule.cut · _) hschedule⟩

/-- The reversal of a race keeps the beginning of the schedule. -/
theorem reverse_ensures (g : Pcg) (hgenerator : w.generator.isSome)
    (hvisited : w.schedule.visited ≤ w.schedule.size) :
    (reverse g).Ensures w fun _ w' => w.Cut w' := by
  obtain ⟨n, g', hbelow⟩ : ∃ n g', g.below 64 w.analysis.races.length = (n, g') :=
    ⟨_, _, Prod.mk.eta.symm⟩
  refine (yields_get _).bind_ensures ?_
  by_cases hempty : w.analysis.races.isEmpty = true
  · rw [if_pos hempty]
    refine (yields_notify _ _).bind_ensures ((yields_set _ _).bind_ensures (ensures_pure ?_))
    exact ⟨⟨_, rfl⟩, rfl, 0, by simp [modifySchedule, Schedule.clear, Schedule.cut]⟩
  · rw [if_neg hempty, hbelow]
    refine (yields_set _ _).bind_ensures ?_
    have hdrawn : w.Cut { w with generator := some g' } :=
      let same := Cut.refl hvisited
      ⟨same.analysis, hgenerator.symm, same.schedule⟩
    cases w.analysis.races[n]? with
    | none => exact ensures_pure hdrawn
    | some race =>
      exact (reversal_ensures race).mono fun _ _ h =>
        ⟨h.analysis, h.generator.trans hgenerator.symm, h.schedule⟩

/-- An analysis walks over the schedule, and at random it reverses a race then. -/
theorem analyse_cut (hvisited : w.schedule.visited ≤ w.schedule.size) :
    analyse.Ensures w fun replay w' =>
      ∃ v, walk.Yields w () v ∧ v.Cut w' ∧ (w.generator = none → replay = []) := by
  intro replay w' h
  obtain ⟨_, v, hwalk, hrest⟩ := h.of_bind
  have hmarked := walk_marked () v hwalk
  have hle : v.schedule.visited ≤ v.schedule.size := by
    rw [hmarked.schedule.visited, Schedule.size, hmarked.schedule.length]
    exact hvisited
  refine ⟨v, hwalk, ?_⟩
  refine (yields_get v).bind_ensures
    (Q := fun replay w' => v.Cut w' ∧ (w.generator = none → replay = [])) ?_ replay w' hrest
  rw [← hmarked.generator]
  cases hg : v.generator with
  | none => exact ensures_pure ⟨.refl hle, fun _ => rfl⟩
  | some g =>
    have hsome : v.generator.isSome := by rw [hg]; rfl
    exact (reverse_ensures g hsome hle).mono fun _ _ h => ⟨h, by simp⟩

end Workspace

end Interleaving
