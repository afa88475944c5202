import Interleaving.Proofs.Candidates
import Interleaving.Proofs.Scheduling
import Interleaving.Scheduler.Iteration

/-!
# What an analysis can change

Whatever races the analysis of a schedule finds in depth-first mode, and whether or not it comes to
its end, all that it does to the levels is to mark threads that could run.

## Main definitions

* `Marking` — the workspace of an analysis that so far only added marks.

## Main statements

* `Workspace.addBacktrackPoint_ensures` — what becomes of a race.
* `Marking.visit` — a step of the walk only adds marks.
* `Setting.Governs.analyse_ensures` — so does the whole analysis, if it ends well.
-/

namespace Interleaving

open Interleaving.Action

/-! ## Candidates could run -/

/-- Only threads that are sought become candidates. -/
theorem Search.mem_candidates_of_run {w : Workspace} {steps : List Step} :
    ∀ {search found : Search}, search.run w steps = .ok found → ∀ t ∈ found.candidates,
      t ∈ search.candidates ∨ t ∈ search.sought := by
  induction steps with
  | nil =>
    intro search found h t ht
    obtain rfl : search = found := by simpa [Search.run] using h
    exact .inl ht
  | cons k steps ih =>
    intro search found h t ht
    rw [Search.run] at h
    split at h
    · obtain rfl : search = found := by simpa using h
      exact .inl ht
    · cases hl : w.schedule.level k with
      | error fault => simp [hl, bind, Except.bind] at h
      | ok l =>
        cases hs : l.selection with
        | error fault => simp [hl, hs, bind, Except.bind] at h
        | ok u =>
          simp only [hl, hs, bind, Except.bind] at h
          have hmet := ih h t ht
          unfold Search.meet at hmet
          split at hmet
          · next hu =>
            simp only [List.mem_filter] at hmet
            rcases hmet with hmet | hmet
            · split at hmet
              · exact .inl hmet
              · rcases List.mem_append.1 hmet with hmet | hmet
                · exact .inl hmet
                · exact .inr (List.mem_singleton.1 hmet ▸ hu)
            · exact .inr hmet.1
          · exact hmet

/-- A candidate for the reversal of a race could run at the earlier step. -/
theorem Workspace.runnable_of_candidate {w : Workspace} {race : Race} {first second : ThreadId}
    {found : List ThreadId} (h : w.candidates race first second = .ok found) {l : Level}
    (hl : w.schedule.level race.earlier = .ok l) (dense : l.Dense) {t : ThreadId} (ht : t ∈ found) :
    ∃ e, l.entries[t]? = some e ∧ e.runnable := by
  simp only [candidates, hl, bind, Except.bind] at h
  split at h
  · simp at h
  · next search hsearch =>
    obtain rfl : search.candidates = found := by simpa [pure, Except.pure] using h
    rcases Search.mem_candidates_of_run hsearch t ht with hown | hsought
    · split at hown
      · next hrun =>
        obtain rfl : t = second := by simpa using hown
        obtain ⟨e, he, hrunnable⟩ := (Option.any_eq_true _ _).1 hrun
        exact ⟨e, he, hrunnable⟩
      · simp at hown
    · obtain ⟨e, he, hrunnable, -⟩ := (seeks_iff dense).1 (List.mem_filter.1 hsought).2
      exact ⟨e, he, hrunnable⟩

/-- What is preferred is one of the candidates. -/
theorem Workspace.of_preferred? {l : Level} {width start i : Nat} {candidates : List ThreadId}
    {e : Entry} (h : preferred? l width candidates start = some (i, e)) :
    l.entries[i]? = some e ∧ e.thread ∈ candidates := by
  let fitting := ((Level.turn start width).filterMap fun position =>
    l.entries[position]?.map fun e => (position, e)).filter fun r => r.2.thread ∈ candidates
  have hmem : (i, e) ∈ fitting := by
    have hp : preferred? l width candidates start =
        ((fitting.find? fun r => r.2.asleep) <|> (fitting.find? fun r => r.2.enabled) <|>
          fitting.head?) := rfl
    rw [hp] at h
    cases hasleep : fitting.find? fun r => r.2.asleep with
    | some r =>
      obtain rfl : r = (i, e) := by simpa [hasleep] using h
      exact List.mem_of_find?_eq_some hasleep
    | none =>
      cases henabled : fitting.find? fun r => r.2.enabled with
      | some r =>
        obtain rfl : r = (i, e) := by simpa [hasleep, henabled] using h
        exact List.mem_of_find?_eq_some henabled
      | none =>
        simp only [hasleep, henabled] at h
        exact List.mem_of_head? h
  simp only [fitting, List.mem_filter, List.mem_filterMap, Option.map_eq_some_iff,
    decide_eq_true_eq] at hmem
  obtain ⟨⟨j, -, f, hf, heq⟩, hthread⟩ := hmem
  obtain ⟨rfl, rfl⟩ := Prod.mk.inj heq
  exact ⟨hf, hthread⟩

/-- The workspace with a mark at one entry of the level of a step. -/
def Workspace.mark (w : Workspace) (step : Step) (position : Nat) : Workspace :=
  w.modifySchedule (·.modifyLevel (·.modifyEntry position Entry.mark) step)

/-- At the earlier step of a race a candidate is marked already, or one is marked then. -/
theorem Workspace.addBacktrackPoint_ensures {w : Workspace} (race : Race)
    (first second : ThreadId) :
    (addBacktrackPoint race first second).Ensures w fun _ w' => ∃ found l position e,
      w.candidates race first second = .ok found ∧ w.schedule.level race.earlier = .ok l ∧
        l.entries[position]? = some e ∧ e.thread ∈ found ∧
          (e.marked ∧ w' = w ∨ w' = w.mark race.earlier position) := by
  refine (yields_get w).bind_ensures (bind_lift_ensures fun found hfound => ?_)
  split
  · exact ensures_fail _ _ _
  · refine bind_lift_ensures fun l hl => ?_
    split
    · next hmarked =>
      obtain ⟨e, he, hok⟩ := List.any_eq_true.1 hmarked
      obtain ⟨position, hposition⟩ := List.mem_iff_getElem?.1 he
      simp only [Bool.and_eq_true, decide_eq_true_eq] at hok
      exact ensures_pure ⟨found, l, position, e, hfound, hl, hposition, hok.1, .inl ⟨hok.2, rfl⟩⟩
    · split
      · next position e hpreferred =>
        obtain ⟨hentry, hcandidate⟩ := of_preferred? hpreferred
        exact (yields_notify _ _).bind_ensures ((yields_set _ _).ensures
          ⟨found, l, position, e, hfound, hl, hentry, hcandidate, .inr rfl⟩)
      · exact ensures_fail _ _ _

/-! ## The walk -/

/-- The workspace of an analysis of the levels `G` in depth-first mode that only added marks. -/
structure Marking {σ : Type} (S : Setting σ) (G : List Level) (w : Workspace) : Prop where
  generator : w.generator = none
  visited : w.schedule.visited = G.length
  plain : w.schedule.randomized = false
  marks : S.Marks G w.schedule.levels

/-- Each thread stands at its own position, and those that could run may be marked. -/
structure Markable {σ : Type} (S : Setting σ) (G : List Level) : Prop where
  dense : ∀ l ∈ G, l.Dense
  may : ∀ l ∈ G, ∀ e ∈ l.entries, e.runnable → S.may e.toPending

namespace Marking

variable {σ : Type} {S : Setting σ} {G : List Level} {w : Workspace}

theorem analysis (h : Marking S G w) (a : Analysis) : Marking S G { w with analysis := a } :=
  ⟨h.generator, h.visited, h.plain, h.marks⟩

theorem level (hG : Markable S G) (h : Marking S G w) {step : Step} {l : Level}
    (hl : w.schedule.level step = .ok l) :
    l.Dense ∧ ∀ e ∈ l.entries, e.runnable → S.may e.toPending := by
  obtain ⟨position, -, hget⟩ := Schedule.exists_of_level_eq_ok hl
  have hlt : position < G.length := by
    rw [← h.marks.length_eq]
    exact (List.getElem?_eq_some_iff.1 hget).1
  obtain ⟨l', hl', hmore⟩ := h.marks.getElem? (List.getElem?_eq_getElem hlt)
  obtain rfl : l' = l := by simpa [hl'] using hget
  have hmem : G[position] ∈ G := List.getElem_mem hlt
  refine ⟨hmore.dense (hG.dense _ hmem), fun e he hrun => ?_⟩
  obtain ⟨i, hi⟩ := List.mem_iff_getElem?.1 he
  obtain ⟨e₀, he₀, hpending, -⟩ := hmore.of_getElem? hi
  rw [hpending] at hrun ⊢
  exact hG.may _ hmem e₀ (List.mem_of_getElem? he₀) hrun

theorem addBacktrackPoint (hG : Markable S G) (h : Marking S G w) (race : Race)
    (first second : ThreadId) :
    (Workspace.addBacktrackPoint race first second).Ensures w fun _ w' => Marking S G w' := by
  refine (Workspace.addBacktrackPoint_ensures race first second).mono fun _ w' hw' => ?_
  obtain ⟨found, l, position, e, hfound, hl, hentry, hcandidate, ⟨-, rfl⟩ | rfl⟩ := hw'
  · exact h
  · obtain ⟨dense, may⟩ := h.level hG hl
    have hthread := dense position e hentry
    obtain ⟨e', he', hrun⟩ := Workspace.runnable_of_candidate hfound hl dense hcandidate
    obtain rfl : e = e' := by
      rw [hthread, hentry] at he'
      simpa using he'
    obtain ⟨k, hk, hlevel⟩ := Schedule.exists_of_level_eq_ok hl
    refine ⟨h.generator, ?_, ?_, ?_⟩
    · simpa [Workspace.mark, Workspace.modifySchedule, Schedule.modifyLevel, hk] using h.visited
    · simpa [Workspace.mark, Workspace.modifySchedule, Schedule.modifyLevel, hk] using h.plain
    · simp only [Workspace.mark, Workspace.modifySchedule, Schedule.modifyLevel, hk]
      refine h.marks.trans (.modify fun m hm => ⟨rfl, fun j => ?_⟩)
      obtain rfl : m = l := by simpa [hm] using hlevel
      rw [Level.getElem?_modifyEntry]
      by_cases hj : j = position
      · subst hj
        exact .inr ⟨e, hentry, may e (List.mem_of_getElem? hentry) hrun, by simp [hentry]⟩
      · left
        cases m.entries[j]? <;> simp [hj]

theorem detect (hG : Markable S G) (h : Marking S G w) (b : Step) (e : Entry) (a : Step) :
    (Workspace.detect b e a).Ensures w fun _ w' => Marking S G w' := by
  refine (yields_get w).bind_ensures ?_
  refine bind_lift_ensures fun d _ => ?_
  have hrandom : w.randomized = false := by simp [Workspace.randomized, h.generator]
  split
  · exact ensures_pure h
  · rw [if_neg (by simp [hrandom])]
    refine (yields_notify _ _).bind_ensures ?_
    refine (yields_set _ _).bind_ensures ?_
    exact addBacktrackPoint hG (h.analysis _) _ _ _

theorem order (hG : Markable S G) (h : Marking S G w) (b : Step) (e : Entry) (a : Step) :
    (Workspace.order b e a).Ensures w fun _ w' => Marking S G w' := by
  unfold Workspace.order
  split
  · exact ensures_fail _ _ _
  · refine ((detect hG h b e a).mono fun _ w' hw' => ?_).bind
    refine (yields_modify _ _).ensures ?_
    split
    · exact hw'
    · exact hw'.analysis _

/-- A step of the walk only adds marks. -/
theorem visit (hG : Markable S G) (h : Marking S G w) (i : Step) :
    (Workspace.visit i).Ensures w fun _ w' => Marking S G w' := by
  refine (yields_get w).bind_ensures ?_
  refine bind_lift_ensures fun l _ => bind_lift_ensures fun e _ => ?_
  simp only
  split
  · exact (yields_set _ _).ensures (h.analysis _)
  · split
    · exact (yields_set _ _).ensures (h.analysis _)
    · refine (yields_set _ _).bind_ensures ?_
      split
      · exact ensures_pure (h.analysis _)
      · exact order hG (h.analysis _) _ _ _

theorem walk (hG : Markable S G) (h : Marking S G w) :
    Workspace.walk.Ensures w fun _ w' => Marking S G w' := by
  refine (yields_get w).bind_ensures ?_
  refine (yields_set _ _).bind_ensures ?_
  exact ensures_each (fun i w' hw' => visit hG hw' i) (h.analysis _)

end Marking

/-- The scheduler after an analysis in depth-first mode that left the workspace `w`. -/
def Scheduler.analysed (s : Scheduler) (w : Workspace) : Scheduler :=
  { s with
    analysis := some w.analysis
    schedule := w.schedule
    generator := w.generator
    replay := []
    replayed := 0
    counters := s.counters.add .races w.analysis.races.length }

namespace Marking

variable {σ : Type} {S : Setting σ} {G : List Level} {w : Workspace} {s : Scheduler}

theorem governs (hw : Marking S G w) (h : S.Governs s) (hreduction : S.reduction = true) :
    S.Governs (s.analysed w) :=
  ⟨hw.plain, hw.generator, hreduction.symm, h.sleepSets, h.stepLimit, rfl⟩

theorem on_analysed (hw : Marking S G w) :
    (s.analysed w).on w.schedule.levels w.schedule.levels.length = s.analysed w := by
  have : (⟨w.schedule.levels, w.schedule.levels.length, w.schedule.randomized⟩ : Schedule) =
      w.schedule := by
    rw [hw.marks.length_eq, ← hw.visited]
  simp only [Scheduler.on, Scheduler.analysed, this]

end Marking

/-- If the analysis of a schedule ends well, marks were added to its levels. -/
theorem Setting.Governs.analyse_ensures {σ : Type} {S : Setting σ} {s : Scheduler}
    (h : S.Governs s) {G : List Level} (hG : Markable S G) :
    Scheduler.analyse.Ensures (s.on G G.length) fun _ t =>
      ∃ s' G', t = s'.on G' G'.length ∧ S.Governs s' ∧ S.Marks G G' := by
  refine (yields_get _).bind_ensures ?_
  have ha : (s.on G G.length).analysis = s.analysis := rfl
  have hgen : (s.on G G.length).generator = none := h.generator
  rw [ha]
  cases hs : s.analysis with
  | none =>
    have hrandom : (s.on G G.length).randomized = false := by
      simp [Scheduler.randomized, h.generator]
    simp only [hrandom, Bool.false_eq_true, if_false]
    exact ensures_pure ⟨s, G, rfl, h, .refl G⟩
  | some analysis =>
    simp only
    have start : Marking S G ⟨analysis, (s.on G G.length).schedule, (s.on G G.length).generator⟩ :=
      ⟨hgen, rfl, h.plain, .refl G⟩
    have hanalyse : Workspace.analyse.Ensures
        ⟨analysis, (s.on G G.length).schedule, (s.on G G.length).generator⟩
        fun replay w => replay = [] ∧ Marking S G w := by
      refine ((start.walk hG).mono fun _ w hw => ?_).bind
      refine (yields_get w).bind_ensures ?_
      rw [hw.generator]
      exact ensures_pure ⟨rfl, hw⟩
    refine Ensures.bind (Ensures.within ?_)
    refine hanalyse.mono fun replay w hw => ?_
    obtain ⟨rfl, hw⟩ := hw
    refine (yields_modify _ _).bind_ensures ?_
    refine (yields_get _).bind_ensures ((yields_modify _ _).ensures ?_)
    have hreduction : S.reduction = true := by rw [← h.analysis, hs]; rfl
    exact ⟨s.analysed w, w.schedule.levels, hw.on_analysed.symm, hw.governs h hreduction, hw.marks⟩

end Interleaving
