import Interleaving.Proofs.Marking

/-!
# The walk over a schedule in depth-first mode

Step by step the walk gives every step its clock. Where a send races with the last send to its
target before it, a candidate is marked at the earlier step.

## Main definitions

* `Trace.Races` — a send and the last send before it to the same target that are not ordered.
* `Handled` — candidates are marked for all races.

## Main statements

* `Walking.visit` — one step of the walk.
* `walk_yields` — the walk ends well, and all races are handled.
* `Setting.Governs.analyse_yields` — so they are when a scheduler analyses its schedule.
-/

namespace Interleaving

open Interleaving.Action

/-- The two steps are sends to the same target with none between them, and the earlier one reaches
no step of the later one's thread before the later one. -/
structure Trace.Races (tr : Trace) (a b : Nat) (p q : Pending) : Prop where
  earlier : tr.stepAt a = some p
  later : tr.stepAt b = some q
  lt : a < b
  sends : p.op = .send ∧ q.op = .send
  target : ∃ x, p.target = some x ∧ q.target = some x ∧ ∀ k, a < k → k < b → ¬ tr.SentTo x k
  unordered : ∀ k < b, tr.Ran q.thread k → ¬ tr.Reaches a k

/-- For every race whose later step is among the first `k`, a candidate is marked at the level of
the earlier step. -/
def Handled (tr : Trace) (G levels : List Level) (k : Nat) : Prop :=
  ∀ a b p q, tr.Races a b p q → b ≤ k → ∃ l l' t e, G[a - 1]? = some l ∧
    levels[a - 1]? = some l' ∧ l'.entries[t]? = some e ∧ e.marked ∧
    tr.Candidate (Bystander l.entries p.thread q.thread) a b q.thread t

/-- The steps of a trace do not wait for quiescence, and receive messages that were sent before. -/
structure Trace.Calm (tr : Trace) : Prop where
  quiesce : ∀ p ∈ tr, p.op ≠ .quiesce
  receive : ∀ k p, tr.stepAt k = some p → p.op = .receive → p.target.isSome →
    ∀ i ∈ p.sendStep, 0 < i ∧ i < k

section Marks

variable {σ : Type} {S : Setting σ} {G G' : List Level}

theorem Performs.marks {tr : Trace} (h : Performs G tr) (hm : S.Marks G G') : Performs G' tr := by
  intro k p hp
  obtain ⟨l, e, hl, he, hpending, hselected⟩ := h k p hp
  obtain ⟨l', hl', hmarked⟩ := hm.getElem? hl
  have hentry : l.entries[p.thread]? = some e := by
    have hselection : l.selection = .ok p.thread := Level.selection_eq_ok.2 hselected
    simp only [Level.selectedEntry, hselection, bind, Except.bind] at he
    exact Level.entry_eq_ok.1 he
  obtain ⟨e', he', hpending', -⟩ := hmarked.getElem? hentry
  refine ⟨l', e', hl', Level.selectedEntry_eq_ok (hmarked.selected.trans hselected) he', ?_,
    hmarked.selected.trans hselected⟩
  rw [← hpending, Level.resolved, Level.resolved, hm.length_eq, hpending', hmarked.length_entries]

theorem Handled.marks {tr : Trace} {levels levels' : List Level} {k : Nat}
    (h : Handled tr G levels k) (hm : S.Marks levels levels') : Handled tr G levels' k := by
  intro a b p q hr hb
  obtain ⟨l, l', t, e, hl, hl', he, hmarked, hc⟩ := h a b p q hr hb
  obtain ⟨l'', hl'', hmore⟩ := hm.getElem? hl'
  rcases hmore.entries t with ht | ⟨f, hf, -, ht⟩
  · exact ⟨l, l'', t, e, hl, hl'', ht.trans he, hmarked, hc⟩
  · exact ⟨l, l'', t, f.mark, hl, hl'', ht, rfl, hc⟩

end Marks

/-- The levels of a finished schedule, as the walk needs them: they run the trace, threads that
can run may be marked, and for every race there is a candidate. -/
structure Walkable {σ : Type} (S : Setting σ) (G : List Level) (tr : Trace) : Prop where
  performs : Performs G tr
  calm : tr.Calm
  dense : ∀ l ∈ G, l.Dense
  may : ∀ l ∈ G, ∀ e ∈ l.entries, e.runnable → S.may e.toPending
  ready : ∀ a b p q, tr.Races a b p q → ∀ l, G[a - 1]? = some l →
    (∃ e, l.entries[q.thread]? = some e ∧ e.runnable) ∨
      ∃ t k, tr.Reverses (Bystander l.entries p.thread q.thread) a b t k

/-! ## The comparison of two steps -/

namespace Workspace

variable {w : Workspace} {a b : Step} {d e : Entry}

/-- What is run at a step is the operation of the selected entry. -/
theorem executed_of_performs {tr : Trace} (performs : Performs w.schedule.levels tr) {p : Pending}
    (hp : tr.stepAt a = some p) :
    ∃ d, w.executed a = .ok d ∧ d.thread = p.thread ∧ d.op = p.op ∧
      (p.op = .send → d.target = p.target) := by
  obtain ⟨l, d, hl, hd, rfl⟩ := performs.exists_entry hp
  refine ⟨d, by simp [executed, hl, hd, bind, Except.bind], rfl, rfl, fun hop => ?_⟩
  have hop : d.op = .send := hop
  simp [Level.resolved, hop]

/-- Two steps that do not race are compared. -/
theorem detect_skip (hd : w.executed a = .ok d)
    (hskip : w.analysis.happensBefore ⟨d.thread, a⟩ b ∨ ¬ (d.op = .send ∧ e.op = .send)) :
    (detect b e a).Yields w () w := by
  refine (yields_get _).bind ((yields_lift hd _).bind ?_)
  rw [if_pos (by simpa [or_iff_not_imp_left] using hskip)]
  exact yields_pure _ _

/-- Two sends are compared that race. -/
theorem detect_race (hgenerator : w.generator = none) (hd : w.executed a = .ok d)
    (hbefore : ¬ w.analysis.happensBefore ⟨d.thread, a⟩ b) (hsends : d.op = .send ∧ e.op = .send) :
    (detect b e a).ComesTo w (addBacktrackPoint ⟨a, b⟩ d.thread e.thread) (w.addRace ⟨a, b⟩) := by
  refine ((yields_get _).bind_comesTo _).trans (((yields_lift hd _).bind_comesTo _).trans ?_)
  have hrandom : w.randomized = false := by simp [randomized, hgenerator]
  rw [if_neg (by simp [hbefore, hsends]), if_neg (by simp [hrandom])]
  exact ((yields_notify _ _).bind_comesTo _).trans ((yields_set _ _).bind_comesTo _)

/-- Two sends are compared in random mode that are not ordered. -/
theorem detect_random (hrandom : w.randomized) (hd : w.executed a = .ok d)
    (hbefore : ¬ w.analysis.happensBefore ⟨d.thread, a⟩ b) (hsends : d.op = .send ∧ e.op = .send) :
    (detect b e a).ComesTo w (addRaces b e a) w := by
  refine ((yields_get _).bind_comesTo _).trans (((yields_lift hd _).bind_comesTo _).trans ?_)
  rw [if_neg (by simp [hbefore, hsends]), if_pos hrandom]
  exact .refl _ _

end Workspace

section Detect

variable {σ : Type} {S : Setting σ} {G : List Level} {R : Nat → Nat → Prop} {tr : Trace} {k a : Nat}
  {previous : Option Nat} {w : Workspace} {e : Entry} {p q : Pending}

/-- A row tells whether a step that was run has the property. -/
theorem ClockTable.Tells.happensBefore_iff {analysis : Analysis} {Q : Nat → Prop} {j : Nat}
    (h : analysis.clocks.Tells tr j Q) (threads : ∀ p ∈ tr, p.thread < analysis.clocks.width)
    {t i : Nat} (hran : tr.Ran t i) : analysis.happensBefore ⟨t, i⟩ j ↔ Q i := by
  obtain ⟨q, hq, ht⟩ := hran
  have hlt : t < analysis.clocks.width := ht ▸ threads q (Trace.mem_of_stepAt hq)
  simpa [Analysis.happensBefore, ClockTable.happensBefore] using (h t hlt).2 i ⟨q, hq, ht⟩

theorem Entered.happensBefore_iff (h : Entered R tr k previous w.analysis) {t i : Nat}
    (hran : tr.Ran t i) :
    w.analysis.happensBefore ⟨t, i⟩ (k + 1) ↔ i = k + 1 ∨ ∃ p, previous = some p ∧ R i p :=
  h.row.happensBefore_iff h.threads hran

theorem Entered.happensBefore_iff_of_le (h : Entered R tr k previous w.analysis) {t i j : Nat}
    (hran : tr.Ran t i) (hpos : 0 < j) (hle : j ≤ k) :
    w.analysis.happensBefore ⟨t, i⟩ j ↔ R i j :=
  (h.clocks j hpos hle).happensBefore_iff h.threads hran

theorem Walked.happensBefore_iff {analysis : Analysis} (h : Walked R tr k analysis) {t i j : Nat}
    (hran : tr.Ran t i) (hpos : 0 < j) (hle : j ≤ k) :
    analysis.happensBefore ⟨t, i⟩ j ↔ R i j :=
  (h.clocks j hpos hle).happensBefore_iff h.threads hran

/-- A send that is ordered after a send, which reaches no earlier step of its thread, races with
it. -/
theorem Trace.races_of_source (hp : tr.stepAt a = some p) (hq : tr.stepAt (k + 1) = some q)
    (hsource : tr.Source (k + 1) q (some a)) (hlast : LastOf (tr.Ran q.thread) (k + 1) previous)
    (hsends : p.op = .send ∧ q.op = .send)
    (hbefore : ¬ ∃ j, previous = some j ∧ tr.Reaches a j) : tr.Races a (k + 1) p q := by
  have hlt := (hsource.linked hq).1
  obtain ⟨x, hx⟩ := hsource.exists_target
  rw [Trace.source_send_iff hsends.2 hx] at hsource
  obtain ⟨p', hp', -, htarget⟩ := hsource.2.1
  obtain rfl : p = p' := by simpa [hp] using hp'
  refine ⟨hp, hq, hlt, hsends, ⟨x, htarget, hx, fun j haj hjk hj => ?_⟩, fun j hj hran hr => ?_⟩
  · have := hsource.2.2 j hjk hj
    omega
  · cases previous with
    | none => exact hlast j hj hran
    | some i =>
      refine hbefore ⟨i, rfl, hr.trans ?_⟩
      rcases Nat.lt_or_eq_of_le (hlast.2.2 j hj hran) with hji | rfl
      · exact .single ⟨hji, .inl ⟨q.thread, hran, hlast.2.1⟩⟩
      · exact .refl

/-- For a race candidates are found, at least one of them. All of them are candidates, and may be
marked. -/
theorem exists_candidates (hG : Walkable S G tr) (marks : S.Marks G w.schedule.levels)
    (entered : Entered tr.Reaches tr k previous w.analysis) (hrace : tr.Races a (k + 1) p q)
    {l : Level} (hlevel : w.schedule.level a = .ok l) :
    ∃ l₀ found u f, G[a - 1]? = some l₀ ∧ l.Dense ∧
      w.candidates ⟨a, k + 1⟩ p.thread q.thread = .ok found ∧ u ∈ found ∧
      l.entries[u]? = some f ∧ u < w.analysis.clocks.width ∧
      (∀ t ∈ found, ∀ g, l.entries[t]? = some g → S.may g.toPending) ∧
      ∀ t ∈ found,
        tr.Candidate (Bystander l₀.entries p.thread q.thread) a (k + 1) q.thread t := by
  obtain ⟨l₀, -, hl₀, -⟩ := hG.performs a _ hrace.earlier
  obtain ⟨l₁, hl₁, hmore⟩ := marks.getElem? hl₀
  obtain ⟨position, ha, hl⟩ := Schedule.exists_of_level_eq_ok hlevel
  obtain rfl : l = l₁ := by simpa [ha, hl] using hl₁
  have hdense := hmore.dense (hG.dense l₀ (List.mem_of_getElem? hl₀))
  have hbystander := Level.bystander_eq hmore.pendings
  have hthreads : ∀ u i, tr.Ran u i → u < w.analysis.clocks.width := by
    rintro u i ⟨r, hr, rfl⟩
    exact entered.threads _ (Trace.mem_of_stepAt hr)
  obtain ⟨found, hfound, hcandidates⟩ := Workspace.candidates_eq_ok q.thread
    (hG.performs.marks marks) ⟨p, hrace.earlier, rfl⟩ hrace.lt (Trace.stepAt_le hrace.later)
    (fun j hj hjk u i hu => entered.happensBefore_iff_of_le hu hj (by omega)) hthreads hlevel hdense
  -- candidates could run, and make a step
  have hentry : ∀ t ∈ found, (∃ f, l.entries[t]? = some f ∧ f.runnable) ∧ ∃ i, tr.Ran t i := by
    intro t ht
    rcases (hcandidates t).1 ht with ⟨rfl, hf⟩ | ⟨j, hj⟩
    · exact ⟨hf, k + 1, q, hrace.later, rfl⟩
    · obtain ⟨f, hf, hrun, -⟩ := hj.sought
      exact ⟨⟨f, hf, hrun⟩, j, hj.first.2.1⟩
  obtain ⟨u, hu⟩ : ∃ u, u ∈ found := by
    rcases hG.ready a (k + 1) p q hrace l₀ hl₀ with ⟨f₀, hf₀, hrun⟩ | ⟨t, j, hj⟩
    · obtain ⟨f, hf, hpending, -⟩ := hmore.getElem? hf₀
      exact ⟨q.thread, (hcandidates _).2 (.inl ⟨rfl, f, hf, hpending ▸ hrun⟩)⟩
    · rw [← hbystander] at hj
      exact ⟨t, (hcandidates t).2 (.inr ⟨j, hj⟩)⟩
  obtain ⟨⟨f, hf, -⟩, i, hi⟩ := hentry u hu
  refine ⟨l₀, found, u, f, hl₀, hdense, hfound, hu, hf, hthreads u i hi, fun t ht g hg => ?_,
    fun t ht => ?_⟩
  · obtain ⟨⟨g', hg', hrun⟩, -⟩ := hentry t ht
    obtain rfl : g = g' := by simpa [hg] using hg'
    obtain ⟨g₀, hg₀, hpending, -⟩ := hmore.of_getElem? hg
    rw [hpending] at hrun ⊢
    exact hG.may l₀ (List.mem_of_getElem? hl₀) g₀ (List.mem_of_getElem? hg₀) hrun
  · rw [← hbystander]
    exact ((hcandidates t).1 ht).imp_left And.left

/-- A step is compared with the one it is to be ordered after. If the two race, a candidate is
marked. -/
theorem detect_yields (hG : Walkable S G tr) (hgen : w.generator = none)
    (marks : S.Marks G w.schedule.levels) (entered : Entered tr.Reaches tr k previous w.analysis)
    (hlast : LastOf (tr.Ran q.thread) (k + 1) previous) (hq : tr.stepAt (k + 1) = some q)
    (hthread : q.thread = e.thread) (hop : q.op = e.op) (hp : tr.stepAt a = some p)
    (hsource : tr.Source (k + 1) q (some a)) :
    ∃ levels races, (Workspace.detect (k + 1) e a).Yields w ()
        { w with schedule := { w.schedule with levels }, analysis := { w.analysis with races } } ∧
      S.Marks w.schedule.levels levels ∧ (tr.Races a (k + 1) p q →
        ∃ l l' t f, G[a - 1]? = some l ∧ levels[a - 1]? = some l' ∧ l'.entries[t]? = some f ∧
          f.marked ∧
          tr.Candidate (Bystander l.entries p.thread q.thread) a (k + 1) q.thread t) := by
  obtain ⟨l, d, hlevel, hd, hresolved⟩ := (hG.performs.marks marks).exists_entry hp
  have hpthread : p.thread = d.thread := by rw [← hresolved]; rfl
  have hpop : p.op = d.op := by rw [← hresolved]; rfl
  have hexecuted : w.executed a = .ok d := by
    simp only [Workspace.executed, hlevel, bind, Except.bind, hd]
  have hbefore := entered.happensBefore_iff (t := d.thread) ⟨p, hp, hpthread⟩
  by_cases hskip : w.analysis.happensBefore ⟨d.thread, a⟩ (k + 1) ∨
      ¬ (d.op = .send ∧ e.op = .send)
  · refine ⟨w.schedule.levels, w.analysis.races, Workspace.detect_skip hexecuted hskip, .refl _,
      fun hr => ?_⟩
    rw [hbefore] at hskip
    rcases hskip with (heq | ⟨j, rfl, hj⟩) | hsends
    · exact absurd heq (Nat.ne_of_lt hr.lt)
    · exact absurd hj (hr.unordered j hlast.1 hlast.2.1)
    · exact absurd ⟨hpop.symm.trans hr.sends.1, hop.symm.trans hr.sends.2⟩ hsends
  · rw [not_or, not_not] at hskip
    obtain ⟨hunordered, hsends⟩ := hskip
    have hrace : tr.Races a (k + 1) p q := by
      rw [hbefore, not_or] at hunordered
      exact Trace.races_of_source hp hq hsource hlast
        ⟨hpop.trans hsends.1, hop.trans hsends.2⟩ hunordered.2
    -- the race is added, which changes neither the clocks nor the schedule
    let w' := w.addRace ⟨a, k + 1⟩
    have added : Entered tr.Reaches tr k previous w'.analysis := { entered with }
    obtain ⟨l₀, found, u, f, hl₀, hdense, hfound, hu, hf, hwidth, hmay, hcandidate⟩ :=
      exists_candidates (w := w') hG marks added hrace hlevel
    rw [hpthread, hthread] at hfound
    obtain ⟨levels, hyields, hmarks, l', t, g, hl', hg, hmarked, ht⟩ :=
      Workspace.addBacktrackPoint_yields (S := S) (w := w') hlevel hfound hu hf hdense hwidth hmay
    exact ⟨levels, w'.analysis.races,
      (Workspace.detect_race hgen hexecuted hunordered hsends).yields_iff.2 hyields, hmarks,
      fun _ => ⟨l₀, l', t, g, hl₀, hl', hg, hmarked, hcandidate t ht⟩⟩

end Detect

/-- The earlier step of a race is the one that the later step is ordered after. -/
theorem Trace.Races.source {tr : Trace} {a b : Nat} {p q : Pending} (h : tr.Races a b p q)
    {source : Option Nat} (hs : tr.Source b q source) : source = some a := by
  obtain ⟨x, hp, hq, hbetween⟩ := h.target
  have hsent : tr.SentTo x a := ⟨p, h.earlier, h.sends.1, hp⟩
  rw [Trace.source_send_iff h.sends.2 hq] at hs
  cases source with
  | none => exact absurd hsent (hs a h.lt)
  | some s =>
    rcases Nat.lt_or_eq_of_le (hs.2.2 a h.lt hsent) with hlt | rfl
    · exact absurd hs.2.1 (hbetween s hlt hs.1)
    · rfl

/-- The walk in depth-first mode after the first `k` steps. -/
structure Walking {σ : Type} (S : Setting σ) (G : List Level) (tr : Trace) (k : Nat)
    (w : Workspace) : Prop extends Marking S G w where
  walked : Walked tr.Reaches tr k w.analysis
  handled : Handled tr G w.schedule.levels k

section Walk

variable {σ : Type} {S : Setting σ} {G : List Level} {tr : Trace} {k : Nat} {w : Workspace}

/-- A step is visited by entering it and ordering it after its source. -/
theorem visit_yields {i : Step} {l : Level} {e : Entry} {w' : Workspace}
    (hl : w.schedule.level i = .ok l) (he : l.selectedEntry = .ok e) (hquiesce : e.op ≠ .quiesce)
    (h : (match (w.analysis.enter i (l.resolved w.schedule.levels.length i e)).2 with
        | none => pure ()
        | some a => Workspace.order i e a).Yields
      { w with analysis := (w.analysis.enter i (l.resolved w.schedule.levels.length i e)).1 } ()
      w') :
    (Workspace.visit i).Yields w () w' := by
  have htarget (a : Analysis) : Workspace.target? { w with analysis := a } i l e =
      (l.resolved w.schedule.levels.length i e).target := rfl
  refine (yields_get _).bind ((yields_lift hl _).bind ((yields_lift he _).bind ?_))
  simp only [hquiesce, if_false, Workspace.modifyAnalysis, htarget]
  unfold Analysis.enter at h
  cases hx : (l.resolved w.schedule.levels.length i e).target with
  | none =>
    simp only [hx] at h ⊢
    obtain ⟨notices, h⟩ := h
    obtain ⟨-, rfl, -⟩ := Outcome.mk.inj h
    exact yields_set _ _
  | some x =>
    simp only [hx] at h ⊢
    exact (yields_set _ _).bind h

/-- A step is ordered after another one. -/
theorem order_yields {a b : Step} {e : Entry} {w' : Workspace} (hab : a < b)
    (hd : (Workspace.detect b e a).Yields w () w') (hgen : w'.generator = none) :
    (Workspace.order b e a).Yields w () (w'.modifyAnalysis (·.join b a)) := by
  unfold Workspace.order
  rw [if_neg (Nat.not_le.2 hab)]
  have hmodify : (fun w : Workspace =>
      if w.randomized && e.op == .send then w else w.modifyAnalysis (·.join b a)) w' =
      w'.modifyAnalysis (·.join b a) := by
    simp [Workspace.randomized, hgen]
  rw [← hmodify]
  exact hd.bind (yields_modify _ _)

/-- One step of the walk. -/
theorem Walking.visit (hG : Walkable S G tr) (h : Walking S G tr k w) (hk : k < tr.length) :
    ∃ w', (Workspace.visit (k + 1)).Yields w () w' ∧ Walking S G tr (k + 1) w' := by
  obtain ⟨q, hq⟩ := Trace.exists_stepAt (Nat.succ_pos k) hk
  obtain ⟨l, e, hl, he, hresolved, -⟩ := hG.performs.marks h.marks (k + 1) q hq
  have hlevel : w.schedule.level (k + 1) = .ok l := Schedule.level_eq_ok.2 hl
  have hthread : q.thread = e.thread := by rw [← hresolved]; rfl
  have hop : q.op = e.op := by rw [← hresolved]; rfl
  obtain ⟨previous, hlast, entered⟩ := h.walked.enter tr.order_reaches hq
  have hsource := h.walked.source_enter (hG.calm.receive (k + 1) _ hq)
  have hthrough := fun i => Trace.reaches_iff (i := i) hq hlast hsource
  have hvisit {w' : Workspace} := @visit_yields w (k + 1) l e w' hlevel he
    (hop ▸ hG.calm.quiesce _ (Trace.mem_of_stepAt hq))
  rw [hresolved] at hvisit
  generalize w.analysis.enter (k + 1) q = entry at *
  obtain ⟨analysis, source⟩ := entry
  cases source with
  | none =>
    refine ⟨_, hvisit (yields_pure _ _), h.toMarking.analysis _, entered.walked hq hthrough,
      fun a b p r hr hb => ?_⟩
    rcases Nat.lt_or_eq_of_le hb with hlt | rfl
    · exact h.handled a b p r hr (by omega)
    · obtain rfl : q = r := by simpa [hq] using hr.later
      exact absurd (hr.source hsource) (by simp)
  | some a =>
    have hlinked := hsource.linked hq
    obtain ⟨p, hp⟩ := Trace.exists_stepAt hlinked.pos (hlinked.1.le.trans hk)
    obtain ⟨levels, races, hdetect, hmarks, hraces⟩ := detect_yields
      (w := { w with analysis }) hG h.generator h.marks entered hlast hq hthread hop hp hsource
    have entered' : Entered tr.Reaches tr k previous { analysis with races } :=
      ⟨entered.roomy, entered.rows, entered.threads, entered.lastStep, entered.lastSend,
        entered.lastLifecycle, entered.clocks, entered.row⟩
    refine ⟨_, hvisit (order_yields hlinked.1 hdetect h.generator),
      ⟨h.generator, h.visited, h.plain, h.marks.trans hmarks⟩,
      entered'.walked_join hq hthrough (Trace.stepAt_pos hp) hlinked.1, fun a' b p' r hr hb => ?_⟩
    rcases Nat.lt_or_eq_of_le hb with hlt | rfl
    · exact h.handled.marks hmarks a' b p' r hr (by omega)
    · obtain rfl : q = r := by simpa [hq] using hr.later
      obtain rfl : a = a' := Option.some.inj (hr.source hsource)
      obtain rfl : p = p' := by simpa [hp] using hr.earlier
      exact hraces hr

theorem walked_reset {R : Nat → Nat → Prop} {a : Analysis} {threads : Nat}
    (h : ∀ p ∈ tr, p.thread < threads) :
    Walked R tr 0 (a.reset tr.length threads) := by
  have none_of (P : Nat → Prop) (hP : ¬ P 0) : LastOf P 1 none := by
    intro k hk
    obtain rfl : k = 0 := by omega
    exact hP
  refine ⟨ClockTable.roomy_reset _ _ _, rfl, h, fun t ht => ⟨none, ?_, ?_⟩, fun x => ?_,
    fun x => ?_, fun j hpos hle => by omega⟩
  · exact List.getElem?_replicate_of_lt ht
  · refine none_of _ ?_
    rintro ⟨p, hp, -⟩
    simp [Trace.stepAt] at hp
  · simp only [Analysis.reset, Std.TreeMap.getElem?_emptyc]
    refine none_of _ ?_
    rintro ⟨p, hp, -⟩
    simp [Trace.stepAt] at hp
  · simp only [Analysis.reset, Std.TreeMap.getElem?_emptyc]
    refine none_of _ ?_
    rintro ⟨p, hp, -⟩
    simp [Trace.stepAt] at hp

theorem length_le_threads {l : Level} (hl : l ∈ w.schedule.levels) :
    l.entries.length ≤ w.threads := by
  have hmax : (0 :: w.schedule.levels.map (·.entries.length)).max? = some w.threads := rfl
  exact (List.max?_eq_some_iff.1 hmax).2 _ (List.mem_cons_of_mem _ (List.mem_map_of_mem hl))

theorem Performs.thread_lt_threads (h : Performs G tr) (hlevels : w.schedule.levels = G) :
    ∀ p ∈ tr, p.thread < w.threads := by
  intro p hp
  obtain ⟨k, hk⟩ := List.mem_iff_getElem?.1 hp
  obtain ⟨l, e, hl, he, rfl, hselected⟩ := h (k + 1) p hk
  have hselection : l.selection = .ok e.thread := Level.selection_eq_ok.2 hselected
  simp only [Level.selectedEntry, hselection, bind, Except.bind, Level.entry_eq_ok] at he
  refine Nat.lt_of_lt_of_le (List.getElem?_eq_some_iff.1 he).1 (length_le_threads ?_)
  exact hlevels ▸ List.mem_of_getElem? hl

/-- An invariant of a walk that goes well, `P k` holding after the first `k` steps. -/
theorem Workspace.exists_walk_yields (P : Nat → Workspace → Prop)
    (start : P 0 (w.modifyAnalysis (·.reset w.steps w.threads)))
    (step : ∀ k v, k < w.steps → P k v → ∃ v', (visit (k + 1)).Yields v () v' ∧ P (k + 1) v') :
    ∃ w', walk.Yields w () w' ∧ P w.steps w' := by
  have hall : ∃ w', (each visit (List.range' 1 w.steps)).Yields _ () w' ∧ P _ w' :=
    yields_each P start fun k i v hi hv => by
      obtain ⟨hlt, rfl⟩ := List.getElem?_eq_some_iff.1 hi
      rw [List.length_range'] at hlt
      rw [List.getElem_range', Nat.one_mul, Nat.add_comm]
      exact step k v hlt hv
  obtain ⟨w', hw', hP⟩ := hall
  rw [List.length_range'] at hP
  exact ⟨w', (yields_get _).bind ((yields_set _ _).bind hw'), hP⟩

/-- The whole walk. All steps have their clocks at its end, and all races are handled. -/
theorem walk_yields (hG : Walkable S G tr) (hgen : w.generator = none)
    (hlevels : w.schedule.levels = G) (hvisited : w.schedule.visited = G.length)
    (hplain : w.schedule.randomized = false) (hsteps : w.steps = tr.length) :
    ∃ w', Workspace.walk.Yields w () w' ∧ Walking S G tr tr.length w' := by
  have hthreads := hG.performs.thread_lt_threads hlevels
  have start : Walking S G tr 0 (w.modifyAnalysis (·.reset w.steps w.threads)) := by
    refine ⟨⟨hgen, hvisited, hplain, hlevels ▸ .refl _⟩, hsteps ▸ walked_reset hthreads, ?_⟩
    intro a b p q hr hb
    have := hr.lt
    omega
  have hwalk := Workspace.exists_walk_yields (fun k w => Walking S G tr k w) start
    fun k v hk hv => hv.visit hG (hsteps ▸ hk)
  rwa [hsteps] at hwalk

/-- With reduction, a finished schedule is analysed: marks are added, and all races are handled. -/
theorem Setting.Governs.analyse_yields {s : Scheduler} (h : S.Governs s)
    (hreduction : S.reduction = true) (hG : Walkable S G tr)
    (hsteps : ∀ w : Workspace, w.schedule.levels = G → w.steps = tr.length) :
    ∃ s' G', Scheduler.analyse.Yields (s.on G G.length) () (s'.on G' G'.length) ∧ S.Governs s' ∧
      S.Marks G G' ∧ Handled tr G G' tr.length := by
  obtain ⟨analysis, ha⟩ := Option.isSome_iff_exists.1 (h.analysis.trans hreduction)
  obtain ⟨w, ⟨notices, hw⟩, walking⟩ := walk_yields
    (w := ⟨analysis, ⟨G, G.length, s.schedule.randomized⟩, s.generator⟩) hG h.generator rfl rfl
    h.plain (hsteps _ rfl)
  have hanalyse : Workspace.analyse.Yields
      ⟨analysis, ⟨G, G.length, s.schedule.randomized⟩, s.generator⟩ [] w := by
    refine (Yields.of_eq hw).bind ((yields_get _).bind ?_)
    simp only [walking.generator]
    exact yields_pure _ _
  refine ⟨s.analysed w, w.schedule.levels, ?_, walking.governs h hreduction, walking.marks,
    walking.handled⟩
  rw [walking.on_analysed]
  refine (yields_get _).bind ?_
  have ha' : (s.on G G.length).analysis = some analysis := ha
  simp only [ha']
  exact (Yields.within (s := s.on G G.length) hanalyse).bind ((yields_modify _ _).bind
    ((yields_get _).bind (yields_modify _ _)))

end Walk

end Interleaving
