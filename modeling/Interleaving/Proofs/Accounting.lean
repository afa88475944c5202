import Interleaving.Proofs.DirectRaces

/-!
# Marks are accounted for

In depth-first mode an analysis marks entries of a schedule and does nothing else to it, whether it
ends well or with a fault: for each race that it records one entry at most, at the earlier step. It
never ends with a race whose candidates cannot be marked, whatever sleep and marks there were
before.

## Main definitions

* `Schedule.Flagged` — the schedules that are analysed, with any sleep and any marks.
* `Schedule.MarkedFor` — what is marked for a list of races.
* `Fault.Absent` — the faults that there may be.
* `Accounted` — the walk, as far as it got.

## Main statements

* `Schedule.MarkedFor.newMarks_le` — marks are not more than races.
* `Workspace.addBacktrackPoint_keeps` — where there are candidates one is marked.
* `Accounted.visit`, `Accounted.analyse` — one step of the walk, and the whole analysis.
-/

namespace Interleaving

open Interleaving.Action

/-! ## Schedules with flags -/

/-- The schedules that are built level by level and have any sleep and any marks. -/
inductive Schedule.Flagged : Schedule → Prop
  | built {s : Schedule} : s.Built → Flagged s
  | flag {s : Schedule} (step : Step) (position : Nat) (asleep marked : Bool) : Flagged s →
      Flagged (s.modifyLevel (·.modifyEntry position fun e => { e with asleep, marked }) step)

theorem Schedule.Flagged.regular {s : Schedule} (h : s.Flagged) : ∀ l ∈ s.levels, Regular l := by
  induction h with
  | built h => exact h.regular.2
  | @flag s step position asleep marked _ ih =>
    intro l hl
    cases step with
    | zero => exact ih l hl
    | succ k =>
      obtain ⟨i, hi⟩ := List.mem_iff_getElem?.1 hl
      simp only [modifyLevel, List.getElem?_modify, Option.map_eq_map, Option.map_eq_some_iff] at hi
      obtain ⟨m, hm, rfl⟩ := hi
      have regular := ih m (List.mem_of_getElem? hm)
      split
      · refine ⟨?_, fun t ht => ?_⟩
        · have hpendings := m.pendings_modifyEntry position
            (f := fun e => { e with asleep, marked }) fun _ => rfl
          rw [Level.dense_iff, hpendings, ← Level.dense_iff]
          exact regular.dense
        · rw [Level.length_entries_modifyEntry]
          exact regular.inRange t ht
      · exact regular

/-! ## What is marked for races -/

/-- The second schedule is the first one with marks for a list of races: for each of them one entry
at most was marked, at the earlier step. -/
inductive Schedule.MarkedFor (s : Schedule) : List Race → Schedule → Prop
  | nil : MarkedFor s [] s
  | reused {races : List Race} {s' : Schedule} (race : Race) :
      MarkedFor s races s' → MarkedFor s (races ++ [race]) s'
  | marked {races : List Race} {s' : Schedule} (race : Race) (position : Nat) :
      MarkedFor s races s' → MarkedFor s (races ++ [race])
        (s'.modifyLevel (·.modifyEntry position Entry.mark) race.earlier)

/-- The number of entries of the first level that have a mark in the second level only. -/
def Level.newMarks (l l' : Level) : Nat :=
  (l.entries.zip l'.entries).countP fun (e, e') => e'.marked && !e.marked

theorem Level.newMarks_self (l : Level) : l.newMarks l = 0 := by
  rw [newMarks, List.countP_eq_zero]
  rintro ⟨e, e'⟩ h
  obtain rfl : e = e' := by
    obtain ⟨i, hi⟩ := List.mem_iff_getElem?.1 h
    simp only [List.getElem?_zip_eq_some] at hi
    exact Option.some.inj (hi.1.symm.trans hi.2)
  simp

theorem countP_zip_modify_le {α β : Type} (p : α × β → Bool) (f : β → β) (position : Nat) :
    ∀ (xs : List α) (ys : List β),
      (xs.zip (ys.modify position f)).countP p ≤ (xs.zip ys).countP p + 1 := by
  induction position with
  | zero =>
    rintro (_ | ⟨x, xs⟩) (_ | ⟨y, ys⟩) <;> simp [List.countP_cons]
    split <;> omega
  | succ position ih =>
    rintro (_ | ⟨x, xs⟩) (_ | ⟨y, ys⟩) <;> simp [List.countP_cons]
    have := ih xs ys
    omega

namespace Schedule.MarkedFor

variable {s s' : Schedule} {races : List Race}

theorem remarked (h : s.MarkedFor races s') : s.Remarked s' := by
  induction h with
  | nil => exact .refl s
  | reused _ _ ih => exact ih
  | marked race position _ ih =>
    exact ih.trans (remarked_modifyLevel _ (fun l => l.remarked_mark position) _)

/-- At a level there are no more new marks than races with that step as the earlier one. -/
theorem newMarks_le (h : s.MarkedFor races s') {i : Nat} {l l' : Level}
    (hl : s.levels[i]? = some l) (hl' : s'.levels[i]? = some l') :
    l.newMarks l' ≤ races.countP (·.earlier == i + 1) := by
  induction h generalizing l' with
  | nil =>
    obtain rfl : l = l' := by simpa [hl] using hl'
    exact (l.newMarks_self).le
  | reused race _ ih =>
    rw [List.countP_append]
    exact (ih hl').trans (Nat.le_add_right _ _)
  | @marked races s' race position hmarked ih =>
    rw [List.countP_append]
    obtain ⟨earlier, later⟩ := race
    cases earlier with
    | zero => exact (ih hl').trans (Nat.le_add_right _ _)
    | succ k =>
      simp only [modifyLevel, List.getElem?_modify, Option.map_eq_map,
        Option.map_eq_some_iff] at hl'
      obtain ⟨m, hm, rfl⟩ := hl'
      split
      · next hk =>
        subst hk
        refine (countP_zip_modify_le _ _ position _ _).trans (Nat.add_le_add (ih hm) ?_)
        simp
      · exact (ih hm).trans (Nat.le_add_right _ _)

end Schedule.MarkedFor

/-! ## Faults -/

/-- What the analysis looks for is not there: a step, its selection, a thread, or any candidate. -/
inductive Fault.Absent : Fault → Prop
  | step (step : Step) : Absent (.stepOutOfRange step)
  | selection (step : Step) : Absent (.noSelection step)
  | thread (t : ThreadId) : Absent (.unknownThread t)
  | candidates (earlier later : Step) : Absent (.noCandidates earlier later)

theorem Schedule.absent_of_level {s : Schedule} {step : Step} {fault : Fault}
    (h : s.level step = .error fault) : fault.Absent := by
  unfold level at h
  split at h
  · simp at h
  · obtain rfl := Except.error.inj h
    exact .step step

theorem Level.absent_of_selection {l : Level} {fault : Fault} (h : l.selection = .error fault) :
    fault.Absent := by
  unfold selection at h
  split at h
  · simp at h
  · obtain rfl := Except.error.inj h
    exact .selection l.step

theorem Level.absent_of_selectedEntry {l : Level} {fault : Fault}
    (h : l.selectedEntry = .error fault) : fault.Absent := by
  unfold selectedEntry at h
  cases ht : l.selection with
  | error fault' =>
    obtain rfl : fault' = fault := by simpa [ht, bind, Except.bind] using h
    exact absent_of_selection ht
  | ok t =>
    simp only [ht, bind, Except.bind, entry] at h
    split at h
    · simp at h
    · obtain rfl := Except.error.inj h
      exact .thread t

namespace Workspace

variable {w : Workspace} {fault : Fault}

theorem absent_of_executed {step : Step} (h : w.executed step = .error fault) : fault.Absent := by
  unfold executed at h
  cases hl : w.schedule.level step with
  | error fault' =>
    obtain rfl : fault' = fault := by simpa [hl, bind, Except.bind] using h
    exact Schedule.absent_of_level hl
  | ok l =>
    simp only [hl, bind, Except.bind] at h
    exact Level.absent_of_selectedEntry h

theorem absent_of_run {steps : List Step} :
    ∀ {search : Search}, search.run w steps = .error fault → fault.Absent := by
  induction steps with
  | nil => intro search h; simp [Search.run] at h
  | cons k rest ih =>
    intro search h
    rw [Search.run] at h
    split at h
    · simp at h
    · cases hl : w.schedule.level k with
      | error fault' =>
        obtain rfl : fault' = fault := by simpa [hl, bind, Except.bind] using h
        exact Schedule.absent_of_level hl
      | ok l =>
        cases ht : l.selection with
        | error fault' =>
          obtain rfl : fault' = fault := by simpa [hl, ht, bind, Except.bind] using h
          exact Level.absent_of_selection ht
        | ok t =>
          simp only [hl, ht, bind, Except.bind] at h
          exact ih h

theorem absent_of_candidates {race : Race} {first second : ThreadId}
    (h : w.candidates race first second = .error fault) : fault.Absent := by
  unfold candidates at h
  cases hl : w.schedule.level race.earlier with
  | error fault' =>
    obtain rfl : fault' = fault := by simpa [hl, bind, Except.bind] using h
    exact Schedule.absent_of_level hl
  | ok l =>
    simp only [hl, bind, Except.bind] at h
    split at h
    · next hrun =>
      obtain rfl := Except.error.inj h
      exact absent_of_run hrun
    · simp [pure, Except.pure] at h

/-- Where there are candidates, one of them is marked: the entries of all are in the range that is
searched. -/
theorem addBacktrackPoint_keeps {P : Workspace → Prop} {race : Race} {first second : ThreadId}
    (hlevel : ∀ l, w.schedule.level race.earlier = .ok l →
      l.Dense ∧ l.entries.length ≤ w.analysis.clocks.width)
    (hP : P w) (hmark : ∀ position, P (w.mark race.earlier position)) :
    (addBacktrackPoint race first second).Keeps w P Fault.Absent := by
  refine ((yields_get w).bind_comesTo _).keeps
    (bind_lift_keeps hP (fun _ => absent_of_candidates) fun found hfound => ?_)
  split
  · exact keeps_fail hP (.candidates _ _)
  · next hempty =>
    refine bind_lift_keeps hP (fun _ => Schedule.absent_of_level) fun l hl => ?_
    split
    · exact keeps_pure () hP
    · split
      · next position e _ =>
        exact Yields.keeps ((yields_notify _ w).bind (yields_set w _)) (hmark position)
      · next hnone =>
        obtain ⟨dense, hlength⟩ := hlevel l hl
        obtain ⟨t, ht⟩ : ∃ t, t ∈ found := List.exists_mem_of_ne_nil found (by simpa using hempty)
        obtain ⟨e, he, -⟩ := runnable_of_candidate hfound hl dense ht
        obtain ⟨i, f, hpreferred, -⟩ := preferred?_eq_some second
          ((List.getElem?_eq_some_iff.1 he).1.trans_le hlength) he (dense t e he ▸ ht)
        simp [hpreferred] at hnone

/-- Where a candidate is marked already, nothing is. -/
theorem addBacktrackPoint_of_marked {race : Race} {first second : ThreadId} {found : List ThreadId}
    {l : Level} {e : Entry} (hfound : w.candidates race first second = .ok found)
    (hl : w.schedule.level race.earlier = .ok l) (he : e ∈ l.entries) (hmem : e.thread ∈ found)
    (hmarked : e.marked) : (addBacktrackPoint race first second).Yields w () w := by
  refine (yields_get w).bind ((yields_lift hfound _).bind ?_)
  rw [if_neg (by simpa using List.ne_nil_of_mem hmem)]
  refine (yields_lift hl _).bind ?_
  rw [if_pos (List.any_eq_true.2 ⟨e, he, by simp [hmem, hmarked]⟩)]
  exact yields_pure _ _

end Workspace

/-! ## However the walk ends -/

/-- The walk in depth-first mode, which has marked the schedule `s` for the races found so far. -/
structure Accounted (s : Schedule) (threads : Nat) (w : Workspace) : Prop where
  generator : w.generator = none
  width : w.analysis.clocks.width = threads
  marked : s.MarkedFor w.analysis.races w.schedule

namespace Accounted

variable {s : Schedule} {threads : Nat} {w : Workspace}

/-- The tables may change, but for the races and the width of the clocks. -/
theorem withAnalysis (h : Accounted s threads w) {a : Analysis}
    (hraces : a.races = w.analysis.races) (hwidth : a.clocks.width = w.analysis.clocks.width) :
    Accounted s threads { w with analysis := a } :=
  ⟨h.generator, hwidth.trans h.width, hraces ▸ h.marked⟩

theorem addBacktrackPoint (hs : ∀ l ∈ s.levels, l.Dense ∧ l.entries.length ≤ threads)
    (h : Accounted s threads w) (race : Race) (first second : ThreadId) :
    (Workspace.addBacktrackPoint race first second).Keeps (w.addRace race) (Accounted s threads)
      Fault.Absent := by
  refine Workspace.addBacktrackPoint_keeps (fun l hl => ?_)
    ⟨h.generator, h.width, .reused race h.marked⟩
    fun position => ⟨h.generator, h.width, .marked race position h.marked⟩
  obtain ⟨k, -, hk⟩ := Schedule.exists_of_level_eq_ok hl
  obtain ⟨m, hm, hremarked⟩ := h.marked.remarked.of_getElem? hk
  obtain ⟨dense, hlength⟩ := hs m (List.mem_of_getElem? hm)
  refine ⟨hremarked.dense dense, ?_⟩
  rw [hremarked.length_entries]
  exact hlength.trans_eq h.width.symm

theorem detect (hs : ∀ l ∈ s.levels, l.Dense ∧ l.entries.length ≤ threads)
    (h : Accounted s threads w) (b : Step) (e : Entry) (a : Step) :
    (Workspace.detect b e a).Keeps w (Accounted s threads) Fault.Absent := by
  cases hd : w.executed a with
  | error fault =>
    refine ((yields_get w).bind_comesTo _).keeps
      (bind_lift_keeps h (fun _ => Workspace.absent_of_executed) fun d hd' => ?_)
    simp [hd] at hd'
  | ok d =>
    by_cases hskip : w.analysis.happensBefore ⟨d.thread, a⟩ b ∨ ¬ (d.op = .send ∧ e.op = .send)
    · exact (Workspace.detect_skip hd hskip).keeps h
    · rw [not_or, not_not] at hskip
      exact (Workspace.detect_race h.generator hd hskip.1 hskip.2).keeps
        (h.addBacktrackPoint hs _ _ _)

theorem order (hs : ∀ l ∈ s.levels, l.Dense ∧ l.entries.length ≤ threads)
    (h : Accounted s threads w) (b : Step) (e : Entry) (a : Step) :
    (Workspace.order b e a).Keeps w (Accounted s threads) Fault.Absent := by
  unfold Workspace.order
  split
  · exact keeps_fail h (.step a)
  · refine (h.detect hs b e a).bind fun _ v _ hv => (yields_modify _ _).keeps ?_
    split
    · exact hv
    · exact hv.withAnalysis rfl (ClockTable.width_join _ _ _)

/-- One step of the walk. -/
theorem visit (hs : ∀ l ∈ s.levels, l.Dense ∧ l.entries.length ≤ threads)
    (h : Accounted s threads w) (i : Step) :
    (Workspace.visit i).Keeps w (Accounted s threads) Fault.Absent := by
  by_cases hentry : ∃ l e, w.schedule.level i = .ok l ∧ l.selectedEntry = .ok e
  · obtain ⟨l, e, hl, he⟩ := hentry
    refine (Workspace.visit_comesTo hl he rfl).keeps ?_
    have entered := h.withAnalysis
      (a := (w.analysis.enter i (l.resolved w.schedule.levels.length i e)).1) (by simp) (by simp)
    split
    · exact (yields_set _ _).keeps (h.withAnalysis (by simp) (by simp))
    · exact entered.order hs i e _
  · refine ((yields_get w).bind_comesTo _).keeps
      (bind_lift_keeps h (fun _ => Schedule.absent_of_level) fun l hl =>
        bind_lift_keeps h (fun _ => Level.absent_of_selectedEntry) fun e he => ?_)
    exact absurd ⟨l, e, hl, he⟩ hentry

/-- The whole analysis. -/
theorem analyse (regular : ∀ l ∈ w.schedule.levels, Schedule.Regular l)
    (hgenerator : w.generator = none) :
    Workspace.analyse.Keeps w (Accounted w.schedule w.threads) Fault.Absent := by
  have start : Accounted w.schedule w.threads (w.modifyAnalysis (·.reset w.steps w.threads)) :=
    ⟨hgenerator, rfl, .nil⟩
  have hwalk : Workspace.walk.Keeps w (Accounted w.schedule w.threads) Fault.Absent := by
    refine (((yields_get w).bind_comesTo _).trans ((yields_set _ _).bind_comesTo _)).keeps ?_
    exact keeps_each (fun i v hv => hv.visit
      (fun l hl => ⟨(regular l hl).dense, length_le_threads hl⟩) i) start
  refine hwalk.bind fun _ v _ hv => ((yields_get v).bind_comesTo _).keeps ?_
  rw [hv.generator]
  exact keeps_pure [] hv

end Accounted

end Interleaving
