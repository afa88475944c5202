import Interleaving.Proofs.Accounting

/-!
# Alternatives that an analysis adds

In depth-first mode an analysis adds alternatives to a schedule. Where it ends well, each race has
its alternative among the marked threads of its earlier step, also after later races were met, so
that another analysis finds the same races and nothing to mark.

## Main definitions

* `Trace.Alternative` — the threads that may reverse a race.
* `Answering` — the walk as long as it goes well.
* `Workspace.AddsAlternatives` — what an analysis adds.

## Main statements

* `Clocking.candidates_eq_ok` — the candidates for a race are its alternatives.
* `Answering.visit`, `Answering.walk` — one step of the walk, and all of them.
* `Answering.walk_again` — another walk changes nothing.
* `analyse_adds_alternatives` — what an analysis adds.
-/

namespace Interleaving

open Interleaving.Action

/-! ## As long as the walk goes well -/

/-- The thread may be run at the earlier step of a race to reverse it, as the entries there are: it
is that of the later step and could run, or another one whose first step from there on comes neither
after the earlier step nor after the first step of a third one. -/
def Trace.Alternative (tr : Trace) (entries : List Entry) (race : Race) (t : ThreadId) : Prop :=
  ∃ p q, tr.stepAt race.earlier = some p ∧ tr.stepAt race.later = some q ∧
    ((t = q.thread ∧ ∃ e, entries[t]? = some e ∧ e.runnable) ∨
      ∃ k, tr.ReversesIn (tr.Before true) (Bystander entries p.thread q.thread) race.earlier
        race.later t k)

/-- An alternative to the earlier step of a race is marked. -/
def Schedule.Answers (s : Schedule) (tr : Trace) (race : Race) : Prop :=
  ∃ l e, s.level race.earlier = .ok l ∧ e ∈ l.entries ∧ e.marked ∧
    tr.Alternative l.entries race e.thread

theorem Schedule.Remarked.level_eq_ok {s s' : Schedule} (h : s.Remarked s') {step : Step}
    {l : Level} (hl : s.level step = .ok l) : ∃ l', s'.level step = .ok l' ∧ l.Remarked l' := by
  obtain ⟨k, rfl, hk⟩ := Schedule.exists_of_level_eq_ok hl
  obtain ⟨l', hl', hmarked⟩ := h.levels k l hk
  exact ⟨l', Schedule.level_eq_ok.2 hl', hmarked⟩

/-- Marks do not matter to what the alternatives are. -/
theorem Trace.Alternative.remarked {tr : Trace} {l l' : Level} {race : Race} {t : ThreadId}
    (h : tr.Alternative l.entries race t) (hmarked : l.Remarked l') :
    tr.Alternative l'.entries race t := by
  obtain ⟨p, q, hp, hq, ⟨ht, e, he, hrun⟩ | hreverses⟩ := h
  · obtain ⟨e', he', hpending, -⟩ := hmarked.getElem? he
    exact ⟨p, q, hp, hq, .inl ⟨ht, e', he', hpending ▸ hrun⟩⟩
  · exact ⟨p, q, hp, hq, .inr (Level.bystander_eq hmarked.pendings ▸ hreverses)⟩

theorem Schedule.Answers.remarked {s s' : Schedule} {tr : Trace} {race : Race}
    (h : s.Answers tr race) (hmarked : s.Remarked s') : s'.Answers tr race := by
  obtain ⟨l, e, hl, he, hm, halternative⟩ := h
  obtain ⟨l', hl', hremarked⟩ := hmarked.level_eq_ok hl
  obtain ⟨i, hi⟩ := List.mem_iff_getElem?.1 he
  obtain ⟨e', he', hpending, -, hm'⟩ := hremarked.getElem? hi
  refine ⟨l', e', hl', List.mem_of_getElem? he', hm' hm, ?_⟩
  rw [show e'.thread = e.thread from congrArg (·.thread) hpending]
  exact halternative.remarked hremarked

theorem Workspace.level_mark {w : Workspace} {step : Step} {l : Level}
    (hl : w.schedule.level step = .ok l) (position : Nat) :
    (w.mark step position).schedule.level step = .ok (l.modifyEntry position Entry.mark) := by
  obtain ⟨k, rfl, hk⟩ := Schedule.exists_of_level_eq_ok hl
  rw [Schedule.level_eq_ok]
  simp [mark, modifySchedule, Schedule.modifyLevel, Schedule.level?, hk]

theorem Workspace.level_mark_of_ne {w : Workspace} {step other : Step} (h : other ≠ step)
    (position : Nat) : (w.mark step position).schedule.level other = w.schedule.level other := by
  cases step with
  | zero => rfl
  | succ k =>
    cases other with
    | zero => rfl
    | succ j =>
      have hne : k ≠ j := fun heq => h (congrArg (· + 1) heq.symm)
      simp [mark, modifySchedule, Schedule.modifyLevel, Schedule.level, Schedule.level?, hne]

/-- Whatever mark the second schedule has and the first one has not is that of an alternative to the
earlier step of one of the races. -/
def Schedule.Warrants (s s' : Schedule) (tr : Trace) (races : List Race) : Prop :=
  ∀ (step : Step) (l' : Level) (i : Nat) (e' : Entry), s'.level step = .ok l' →
    l'.entries[i]? = some e' → e'.marked →
    (∃ l e, s.level step = .ok l ∧ l.entries[i]? = some e ∧ e.marked) ∨
      ∃ race ∈ races, race.earlier = step ∧ tr.Alternative l'.entries race i

namespace Schedule.Warrants

variable {s s' : Schedule} {tr : Trace} {races races' : List Race}

theorem refl (s : Schedule) (tr : Trace) (races : List Race) : s.Warrants s tr races :=
  fun _ l _ e hl he hm => .inl ⟨l, e, hl, he, hm⟩

theorem mono (h : s.Warrants s' tr races) (hsub : races ⊆ races') : s.Warrants s' tr races' :=
  fun step l' i e' hl' he' hm => (h step l' i e' hl' he' hm).imp_right
    fun ⟨race, hrace, hrest⟩ => ⟨race, hsub hrace, hrest⟩

theorem mark {w : Workspace} (h : s.Warrants w.schedule tr races) {race : Race} {l : Level}
    {position : Nat} (hl : w.schedule.level race.earlier = .ok l) (hrace : race ∈ races)
    (halternative : tr.Alternative l.entries race position) :
    s.Warrants (w.mark race.earlier position).schedule tr races := by
  intro step l' i e' hl' he' hm
  by_cases hstep : step = race.earlier
  · subst hstep
    obtain rfl := Except.ok.inj ((Workspace.level_mark hl position).symm.trans hl')
    have hremarked := l.remarked_mark position
    by_cases hi : i = position
    · exact .inr ⟨race, hrace, rfl, hi ▸ halternative.remarked hremarked⟩
    · have he : l.entries[i]? = some e' := by simpa [hi] using he'
      exact (h _ l i e' hl he hm).imp_right
        fun ⟨r, hr, hearlier, hother⟩ => ⟨r, hr, hearlier, hother.remarked hremarked⟩
  · rw [Workspace.level_mark_of_ne hstep] at hl'
    exact h step l' i e' hl' he' hm

end Schedule.Warrants

section Candidates

variable {tr : Trace} {threads k a : Nat} {w : Workspace} {p q : Pending} {l : Level}

/-- The candidates for a race that is found are its alternatives. -/
theorem Clocking.candidates_eq_ok (h : Clocking tr none threads k w) (forward : tr.Forward)
    (hp : tr.stepAt a = some p) (hq : tr.stepAt (k + 1) = some q) (hlt : a < k + 1)
    (hl : w.schedule.level a = .ok l) (dense : l.Dense) :
    ∃ found, ((w.enter (k + 1) q).addRace ⟨a, k + 1⟩).candidates ⟨a, k + 1⟩ p.thread q.thread =
        .ok found ∧
      ∀ t, t ∈ found ↔ tr.Alternative l.entries ⟨a, k + 1⟩ t := by
  obtain ⟨previous, -, entered⟩ := h.walked.enter (Trace.order_before forward) hq
  obtain ⟨found, hfound, hcandidates⟩ := Workspace.candidates_eq_ok
    (w := (w.enter (k + 1) q).addRace ⟨a, k + 1⟩) (R := tr.Before true) q.thread h.performs
    ⟨p, hp, rfl⟩ hlt (Trace.stepAt_le hq)
    (fun j hpos hj u i hran => Entered.happensBefore_iff_of_le (w := w.enter (k + 1) q) entered
      hran hpos (Nat.le_of_lt_succ hj))
    (fun u i hran => by
      obtain ⟨r, hr, rfl⟩ := hran
      exact entered.threads r (Trace.mem_of_stepAt hr)) hl dense
  refine ⟨found, hfound, fun t => (hcandidates t).trans ?_⟩
  constructor
  · rintro (⟨rfl, hown⟩ | hreverses)
    · exact ⟨p, q, hp, hq, .inl ⟨rfl, hown⟩⟩
    · exact ⟨p, q, hp, hq, .inr hreverses⟩
  · rintro ⟨p', q', hp', hq', h⟩
    obtain rfl : p = p' := Option.some.inj (hp.symm.trans hp')
    obtain rfl : q = q' := Option.some.inj (hq.symm.trans hq')
    rcases h with ⟨rfl, hown⟩ | hreverses
    · exact .inl ⟨rfl, hown⟩
    · exact .inr hreverses

end Candidates

/-- The walk in depth-first mode over the schedule `s` after the first `k` steps. The races found so
far have alternatives that are marked, and nothing else was marked for them. -/
structure Answering (s : Schedule) (tr : Trace) (threads k : Nat) (w : Workspace) : Prop
    extends Racing tr threads k w where
  dense : ∀ l ∈ w.schedule.levels, l.Dense
  answered : ∀ race ∈ w.analysis.races, w.schedule.Answers tr race
  warranted : s.Warrants w.schedule tr w.analysis.races

namespace Answering

variable {s : Schedule} {tr : Trace} {threads k : Nat} {w : Workspace}

theorem dense_level (h : Answering s tr threads k w) {step : Step} {l : Level}
    (hl : w.schedule.level step = .ok l) : l.Dense := by
  obtain ⟨position, -, hget⟩ := Schedule.exists_of_level_eq_ok hl
  exact h.dense l (List.mem_of_getElem? hget)

/-- One step of the walk. -/
theorem visit (h : Answering s tr threads k w) (forward : tr.Forward) (hk : k < tr.length) :
    (Workspace.visit (k + 1)).Ensures w fun _ w' => Answering s tr threads (k + 1) w' := by
  intro u w' hyields
  have racing := h.toRacing.visit forward hk u w' hyields
  have hmarked := (Workspace.visit_marked (k + 1) u w' hyields).schedule
  have dense : ∀ l ∈ w'.schedule.levels, l.Dense := by
    intro l hl
    obtain ⟨i, hi⟩ := List.mem_iff_getElem?.1 hl
    obtain ⟨m, hm, hremarked⟩ := hmarked.of_getElem? hi
    exact hremarked.dense (h.dense m (List.mem_of_getElem? hm))
  obtain ⟨q, hq⟩ := Trace.exists_stepAt (Nat.succ_pos k) hk
  by_cases hany : ∃ a, tr.DirectRace (tr.Before true) a (k + 1)
  · obtain ⟨a, hrace⟩ := hany
    obtain ⟨x, -, hlast⟩ := hrace.consecutive
    obtain ⟨p, hp, -⟩ := hlast.2.1
    obtain ⟨v, hpoint, rfl⟩ := (h.toClocking.visit_race forward hq hp hrace).1 hyields
    obtain ⟨found, l, position, e, hfound, hl, he, hmem, hcase⟩ :=
      Workspace.addBacktrackPoint_ensures _ _ _ () v hpoint
    obtain ⟨found', hfound', halternatives⟩ :=
      h.toClocking.candidates_eq_ok forward hp hq hlast.1 hl (h.dense_level hl)
    obtain rfl : found = found' := Except.ok.inj (hfound.symm.trans hfound')
    have halternative := (halternatives e.thread).1 hmem
    have hraces : v.analysis.races = w.analysis.races ++ [⟨a, k + 1⟩] := by
      rcases hcase with ⟨-, rfl⟩ | rfl <;> exact congrArg (· ++ _) (Analysis.races_enter _ _ _)
    have warranted := h.warranted.mono (List.subset_append_left w.analysis.races [⟨a, k + 1⟩])
    refine ⟨racing, dense, fun race hmem => ?_, ?_⟩
    · have hmem : race ∈ w.analysis.races ++ [⟨a, k + 1⟩] := hraces ▸ hmem
      rcases List.mem_append.1 hmem with hold | hnew
      · exact (h.answered race hold).remarked hmarked
      · obtain rfl := List.mem_singleton.1 hnew
        rcases hcase with ⟨hm, rfl⟩ | rfl
        · exact ⟨l, e, hl, List.mem_of_getElem? he, hm, halternative⟩
        · refine ⟨_, e.mark, Workspace.level_mark hl position,
            List.mem_of_getElem? (i := position) ?_, rfl,
            halternative.remarked (l.remarked_mark position)⟩
          simp [he]
    · change s.Warrants v.schedule tr v.analysis.races
      rw [hraces]
      rcases hcase with ⟨-, rfl⟩ | rfl
      · exact warranted
      · rw [h.dense_level hl position e he] at halternative
        have hmem : (⟨a, k + 1⟩ : Race) ∈ w.analysis.races ++ [⟨a, k + 1⟩] := by simp
        exact warranted.mark hl hmem halternative
  · rw [not_exists] at hany
    obtain ⟨-, rfl⟩ := (h.toClocking.visit_quiet forward hq hany).value_eq hyields
    exact ⟨racing, dense, by simpa using h.answered, by simpa using h.warranted⟩

/-- The whole walk. -/
theorem walk (performs : Performs w.schedule.levels tr) (hsteps : w.steps = tr.length)
    (hgenerator : w.generator = none) (dense : ∀ l ∈ w.schedule.levels, l.Dense) :
    Workspace.walk.Ensures w fun _ w' => Answering w.schedule tr w.threads w.steps w' := by
  intro u w' hyields
  have forward := walk_forward performs hsteps u w' hyields
  refine Workspace.walk_ensures (fun k v => Answering w.schedule tr w.threads k v) ?_
    (fun k v hk hv => hv.visit forward (hsteps ▸ hk)) u w' hyields
  exact ⟨racing_reset performs hsteps hgenerator, dense, fun race h => absurd h List.not_mem_nil,
    .refl _ _ _⟩

/-- Where all races have their alternatives, one more step of another walk changes nothing. -/
theorem visit_again (h : Answering s tr threads tr.length w) (forward : tr.Forward) {threads' : Nat}
    {again : Workspace} (racing : Racing tr threads' k again) (hsame : again.schedule = w.schedule)
    (hk : k < tr.length) : ∃ next, (Workspace.visit (k + 1)).Yields again () next ∧
      Racing tr threads' (k + 1) next ∧ next.schedule = w.schedule := by
  obtain ⟨q, hq⟩ := Trace.exists_stepAt (Nat.succ_pos k) hk
  by_cases hany : ∃ a, tr.DirectRace (tr.Before true) a (k + 1)
  · obtain ⟨a, hrace⟩ := hany
    obtain ⟨x, -, hlast⟩ := hrace.consecutive
    obtain ⟨p, hp, -⟩ := hlast.2.1
    have hmem : ⟨a, k + 1⟩ ∈ w.analysis.races := (h.mem_races ⟨a, k + 1⟩).2 ⟨hk, hrace⟩
    obtain ⟨l, e, hl, he, hm, halternative⟩ := h.answered _ hmem
    have dense := h.dense_level hl
    rw [← hsame] at hl
    obtain ⟨found, hfound, halternatives⟩ :=
      racing.toClocking.candidates_eq_ok forward hp hq hlast.1 hl dense
    have hpoint := Workspace.addBacktrackPoint_of_marked hfound hl he
      ((halternatives _).2 halternative) hm
    have hyields := (racing.toClocking.visit_race forward hq hp hrace).2 ⟨_, hpoint, rfl⟩
    have clocking := racing.toClocking.visit forward hk _ _ hyields
    refine ⟨_, hyields, racing.race hrace clocking ?_, hsame⟩
    exact congrArg (· ++ _) (Analysis.races_enter _ _ _)
  · rw [not_exists] at hany
    have hyields := racing.toClocking.visit_quiet forward hq hany
    exact ⟨_, hyields, racing.quiet hany (racing.toClocking.visit forward hk _ _ hyields)
      (Analysis.races_clocked _ _ _ _), hsame⟩

/-- Another walk finds the same races and changes nothing. -/
theorem walk_again (h : Answering s tr threads tr.length w) (forward : tr.Forward)
    (hsteps : w.steps = tr.length) (a : Analysis) :
    ∃ again, Workspace.walk.Yields ⟨a, w.schedule, none⟩ () again ∧ again.generator = none ∧
      again.schedule = w.schedule ∧ again.analysis.races = w.analysis.races := by
  have hsteps' : Workspace.steps ⟨a, w.schedule, none⟩ = tr.length := hsteps
  obtain ⟨again, hwalk, racing, hsame⟩ := Workspace.exists_walk_yields (w := ⟨a, w.schedule, none⟩)
    (fun k v => Racing tr (Workspace.threads ⟨a, w.schedule, none⟩) k v ∧ v.schedule = w.schedule)
    ⟨racing_reset h.performs hsteps' rfl, rfl⟩
    fun k v hk hv => by
      obtain ⟨next, hyields, hnext⟩ := h.visit_again forward hv.1 hv.2 (hsteps' ▸ hk)
      exact ⟨next, hyields, hnext⟩
  rw [hsteps'] at racing
  exact ⟨again, hwalk, racing.generator, hsame, racing.races_eq h.toRacing⟩

/-- The alternative to the earlier step of a race, in terms of what the schedule shows. -/
theorem exists_alternative (h : Answering s tr threads tr.length w) {race : Race}
    (hrace : race ∈ w.analysis.races) :
    ∃ l e, w.schedule.level race.earlier = .ok l ∧ e ∈ l.entries ∧ e.marked ∧ e.runnable ∧
      l.selected ≠ some e.thread ∧ (tr.Ran e.thread race.later ∨
        ∃ k, race.earlier < k ∧ k < race.later ∧ tr.Ran e.thread k ∧
          ¬ w.analysis.Orders tr race.earlier k) := by
  obtain ⟨l, e, hl, he, hm, p, q, hp, hq, halternative⟩ := h.answered race hrace
  have dense := h.dense_level hl
  have hdirect := ((h.mem_races race).1 hrace).2
  obtain ⟨l', d, hl', hd, hresolved⟩ := h.performs.exists_entry hp
  obtain rfl : l = l' := Except.ok.inj (hl.symm.trans hl')
  obtain ⟨t, hselected, ht⟩ := Level.of_selectedEntry_eq_ok hd
  obtain rfl : p.thread = t := by
    rw [← hresolved]
    exact dense t d ht
  have hentry {f : Entry} (hf : l.entries[e.thread]? = some f) : e = f :=
    Option.some.inj ((dense.getElem? he).symm.trans hf)
  rcases halternative with ⟨hthread, f, hf, hrun⟩ | ⟨k, hreverses⟩
  · obtain rfl := hentry hf
    refine ⟨l, e, hl, he, hm, hrun, fun heq => ?_, .inl ⟨q, hq, hthread.symm⟩⟩
    have hsame : p.thread = q.thread :=
      (Option.some.inj (hselected.symm.trans heq)).trans hthread
    exact hdirect.other p.thread ⟨p, hp, rfl⟩ ⟨q, hq, hsame.symm⟩
  · obtain ⟨f, hf, hrun, hfirst, -⟩ := hreverses.sought
    obtain rfl := hentry hf
    obtain ⟨hlt, hran, -⟩ := hreverses.first
    refine ⟨l, e, hl, he, hm, hrun, fun heq => ?_,
      .inr ⟨k, hlt, hreverses.lt, hran, fun horders => ?_⟩⟩
    · exact hfirst (Option.some.inj (heq.symm.trans hselected))
    · obtain ⟨r, hr, -⟩ := hran
      exact hreverses.unreached
        ((h.walked.orders_iff (Trace.stepAt_pos hr) (Trace.stepAt_le hr)).1 horders).2

end Answering

/-- The marks of a schedule do not matter to how many steps there are. -/
theorem Schedule.Remarked.steps_eq {w w' : Workspace} (h : w.schedule.Remarked w'.schedule) :
    w'.steps = w.steps := by
  have hsize : w'.schedule.size = w.schedule.size := h.length
  simp only [Workspace.steps, last?, List.getLast?_eq_getElem?, h.length, hsize]
  cases hl : w.schedule.levels[w.schedule.levels.length - 1]? with
  | none =>
    have hl' : w'.schedule.levels[w.schedule.levels.length - 1]? = none := by
      rw [List.getElem?_eq_none_iff, h.length]
      exact List.getElem?_eq_none_iff.1 hl
    rw [hl']
  | some l =>
    obtain ⟨l', hl', hmarked⟩ := h.levels _ l hl
    simp only [hl', hmarked.selected]

/-! ## The analysis -/

/-- In depth-first mode every mark that an analysis adds is that of an alternative to the earlier
step of a race. -/
theorem analyse_marks_alternatives {w w' : Workspace} {directives : List Directive}
    (flagged : w.schedule.Flagged) (decided : w.schedule.Decided) (hgenerator : w.generator = none)
    (hanalyse : Workspace.analyse.Yields w directives w') :
    w.schedule.Warrants w'.schedule w.schedule.trace w'.analysis.races := by
  have regular := flagged.regular
  have hwalk := Workspace.walk_of_analyse hgenerator hanalyse
  exact (Answering.walk (Schedule.performs_trace regular decided)
    (Schedule.length_trace regular decided).symm hgenerator (fun l hl => (regular l hl).dense) () w'
    hwalk).warranted

/-- What an analysis in depth-first mode adds to the schedule of `w` when the outcome is `o`. -/
structure Workspace.AddsAlternatives (w : Workspace) (o : Outcome Workspace (List Directive)) :
    Prop where
  /-- Where there are candidates one of them can be marked. -/
  marked : ∀ step, o.result ≠ .error (.notMarked step)
  /-- Nothing changes but that entries are marked. -/
  remarked : w.schedule.Remarked o.state.schedule
  /-- No level has more new marks than there are races with that step as the earlier one. -/
  newMarks : ∀ (position : Nat) (l l' : Level), w.schedule.levels[position]? = some l →
    o.state.schedule.levels[position]? = some l' →
    l.newMarks l' ≤ o.state.analysis.races.countP (·.earlier == position + 1)
  /-- If the analysis ends well, there is for every race an entry that is marked at the earlier
  step, of another thread than the one that ran there, that could run there and makes either the
  later step or one between that the earlier one does not happen before. -/
  answered : ∀ directives, o.result = .ok directives → ∀ race ∈ o.state.analysis.races,
    ∃ l e, o.state.schedule.level race.earlier = .ok l ∧ e ∈ l.entries ∧ e.marked ∧ e.runnable ∧
      l.selected ≠ some e.thread ∧ (w.schedule.trace.Ran e.thread race.later ∨
        ∃ k, race.earlier < k ∧ k < race.later ∧ w.schedule.trace.Ran e.thread k ∧
          ¬ o.state.analysis.Orders w.schedule.trace race.earlier k)
  /-- Then another analysis, whatever its tables are, finds the same races and changes nothing. -/
  again : ∀ directives, o.result = .ok directives → ∀ a,
    ∃ v, analyse.Yields ⟨a, o.state.schedule, none⟩ [] v ∧ v.schedule = o.state.schedule ∧
      v.analysis.races = o.state.analysis.races

/-- The analysis in depth-first mode of a schedule with any sleep and any marks adds alternatives to
it, and nothing else. -/
theorem analyse_adds_alternatives {w : Workspace} (flagged : w.schedule.Flagged)
    (decided : w.schedule.Decided) (hgenerator : w.generator = none) :
    w.AddsAlternatives (Workspace.analyse w) := by
  have regular := flagged.regular
  have dense (l : Level) (hl : l ∈ w.schedule.levels) := (regular l hl).dense
  have performs := Schedule.performs_trace regular decided
  have hlength := Schedule.length_trace regular decided
  obtain ⟨accounted, absent⟩ := Accounted.analyse regular hgenerator
  have remarked := accounted.marked.remarked
  have well {directives : List Directive} (h : (Workspace.analyse w).result = .ok directives) :
      w.schedule.trace.Forward ∧
        Answering w.schedule w.schedule.trace w.threads w.schedule.trace.length
          (Workspace.analyse w).state := by
    have hwalk := Workspace.walk_of_analyse hgenerator (yields_of_result h)
    exact ⟨walk_forward performs hlength.symm () _ hwalk,
      hlength ▸ Answering.walk performs hlength.symm hgenerator dense () _ hwalk⟩
  refine ⟨fun step h => ?_, remarked, fun _ _ _ hl hl' => accounted.marked.newMarks_le hl hl',
    fun directives h race hrace => (well h).2.exists_alternative hrace, fun directives h a => ?_⟩
  · cases absent _ h
  · obtain ⟨v, hwalk, hnone, hschedule, hraces⟩ :=
      (well h).2.walk_again (well h).1 (remarked.steps_eq.trans hlength.symm) a
    exact ⟨v, Workspace.analyse_of_walk hwalk hnone, hschedule, hraces⟩

/-- The two sends, the second thread being asleep at the first step. -/
def drowsy : Workspace :=
  { sent with
    schedule :=
      sends.modifyLevel (·.modifyEntry 1 fun e => { e with asleep := true, marked := false }) 1 }

theorem decided_drowsy : drowsy.schedule.Decided := by
  rintro (_ | _ | position) l hl hlast
  · obtain rfl := Option.some.inj hl
    rfl
  · exact absurd hlast (by decide)
  · simp [drowsy, sends, Schedule.modifyLevel] at hl

/-- Their analysis ends well, and adds alternatives. -/
theorem analyse_drowsy_adds_alternatives :
    (Workspace.analyse drowsy).result = .ok [] ∧
      drowsy.AddsAlternatives (Workspace.analyse drowsy) :=
  ⟨rfl, analyse_adds_alternatives (.flag 1 1 true false (.built built_sends)) decided_drowsy rfl⟩

/-- The second thread is marked at the first step, where it sleeps on. -/
example : ((Workspace.analyse drowsy).state.schedule.levels.map fun l =>
    l.entries.map fun e => (e.asleep, e.marked)) =
      [[(false, false), (true, true)], [(false, false), (false, false)]] := by rfl

end Interleaving
