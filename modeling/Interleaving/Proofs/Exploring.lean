import Interleaving.Proofs.Sweep
import Interleaving.Client

/-!
# Whole explorations

An iteration runs the client to its end, the schedule is analysed, and the stack goes back to the
next alternative. As no path is gone twice and a tame client has only so many, the exploration
comes to its end, and then its goal is achieved.

## Main definitions

* `Goal.Ready` — the exploration between two iterations.

## Main statements

* `Goal.Lawful.iterate` — one iteration.
* `Goal.Lawful.explore` — the exploration ends well, and the goal is achieved.
-/

namespace Interleaving

open Interleaving.Action

namespace Setting

variable {σ : Type} {S : Setting σ}

namespace Ends

variable {H G : List Level} {ending : Ending}

theorem selected (h : S.Ends H G ending) : ∀ l ∈ H, l.selected.isSome := by
  cases h with
  | finished hs => exact hs
  | deadlock hs => exact hs
  | allAsleep hs => exact hs
  | cut hs => exact hs

/-- The levels that the iteration went along are left, or one more, at which none is selected and
nothing is to be explored. -/
theorem eq_or_snoc (h : S.Ends H G ending) :
    G = H ∨ ∃ l, G = H ++ [l] ∧ l.selected = none ∧ ∀ e ∈ l.entries, ¬ e.awake := by
  cases h with
  | finished => exact .inl rfl
  | cut => exact .inl rfl
  | deadlock _ _ hn => exact .inr ⟨_, rfl, by simp, (Level.firstAwake_eq_nothing hn).1⟩
  | allAsleep _ _ hn => exact .inr ⟨_, rfl, by simp, (Level.firstAwake_eq_allAsleep hn).1⟩

/-- What is passed at the end is passed along the way of the iteration. -/
theorem passed (h : S.Ends H G ending) {p : List Answer} (hp : Passed G p) : Passed H p := by
  rcases h.eq_or_snoc with rfl | ⟨l, rfl, hn, hawake⟩
  · exact hp
  · rcases passed_snoc.1 hp with hp | hp
    · exact hp
    · cases hp with
      | asleep hor =>
        rcases hor with hsome | ⟨e, he, ha⟩
        · simp [hn] at hsome
        · exact absurd ha (hawake e he)
      | drawn ht => simp [hn] at ht

theorem stands (h : S.Ends H G ending) (hG : S.Stands G) : S.Stands H := by
  rcases h.eq_or_snoc with rfl | ⟨l, rfl, -⟩
  · exact hG
  · exact (upward_snoc.1 hG).1

/-- An iteration that neither sleep nor a limit stopped went a complete path. -/
theorem complete_of_ne (h : S.Ends H G ending) (hG : S.Stands G) (hmay : ∀ p, S.may p = p.enabled)
    (hne : ending ≠ .allAsleep) (hcut : ending ≠ .stepLimit) : S.Complete (course H) := by
  refine ⟨(h.stands hG).follows, ?_⟩
  cases h with
  | finished _ request => simp [offers, request]
  | @deadlock choices current _ request nothing =>
    obtain ⟨hawake, hasleep⟩ := Level.firstAwake_eq_nothing nothing
    simp only [offers, request, List.map_eq_nil_iff, List.filter_eq_nil_iff, hmay]
    intro p hp henabled
    rw [← S.pendings_fresh H choices current] at hp
    obtain ⟨e, he, rfl⟩ := List.mem_map.1 hp
    obtain ⟨f, hf, ha⟩ := exists_awake_fresh he
      (by simp [Entry.available, henabled, hasleep e he])
    exact hawake f hf ha
  | allAsleep => exact absurd rfl hne
  | cut => exact absurd rfl hcut

/-- Without a limit no iteration is cut short. -/
theorem ne_stepLimit (h : S.Ends H G ending) (hlimit : S.stepLimit = none) :
    ending ≠ .stepLimit := by
  rintro rfl
  cases h with
  | cut _ _ hl => simp [hlimit] at hl

/-- Without a limit, an iteration that sleep did not stop went a complete path. -/
theorem complete (h : S.Ends H G ending) (hG : S.Stands G) (hmay : ∀ p, S.may p = p.enabled)
    (hlimit : S.stepLimit = none) (hne : ending ≠ .allAsleep) : S.Complete (course H) :=
  h.complete_of_ne hG hmay hne (h.ne_stepLimit hlimit)

/-- The analysis goes over the levels that the iteration went along. -/
theorem steps_eq (h : S.Ends H G ending) {w : Workspace} (hw : w.schedule.levels = G) :
    w.steps = H.length := by
  rcases h.eq_or_snoc with rfl | ⟨l, rfl, hn, -⟩
  · unfold Workspace.steps Schedule.last?
    rw [Schedule.size, hw]
    split
    · next l hl =>
      have := h.selected l (List.mem_of_getLast? hl)
      rw [if_neg (by simpa [Option.isSome_iff_ne_none] using this)]
    · rfl
  · simp [Workspace.steps, Schedule.last?, Schedule.size, hw, hn]

/-- Going back, the level without a selection is dropped first. -/
theorem dropUnselected (h : S.Ends H G ending) {G' : List Level} (hm : S.Marks G G') :
    ∃ H' above, S.Marks H H' ∧ G' = H' ++ above ∧
      Schedule.dropUnselected G'.reverse = H'.reverse := by
  rcases h.eq_or_snoc with rfl | ⟨l, rfl, hn, -⟩
  · refine ⟨G', [], hm, (List.append_nil _).symm, ?_⟩
    have hs := hm.selected h.selected
    cases hrev : G'.reverse with
    | nil => rfl
    | cons l rest =>
      have hl : l ∈ G' := by
        rw [← List.mem_reverse, hrev]
        exact List.mem_cons_self
      have := hs l hl
      simp [Schedule.dropUnselected, Option.isSome_iff_ne_none.1 this]
  · generalize hG : H ++ [l] = G at hm
    cases hm with
    | nil => simp at hG
    | @snoc G₀ H' l₀ l' hm hl =>
      obtain ⟨rfl, hll⟩ := List.append_inj' hG rfl
      obtain rfl : l = l₀ := by simpa using hll
      refine ⟨H', [l'], hm, rfl, ?_⟩
      simp [Schedule.dropUnselected, hl.selected, hn]

end Ends

end Setting

namespace Goal

variable {g : Goal} {σ : Type} {S : Setting σ} {rs : List Record} {n : Nat}

theorem draws_of_marks {H H' : List Level} (h : S.Marks H H') (hs : ∀ l ∈ H, l.selected.isSome)
    (hH : S.Stands H) (hd : Upward (g.Draws rs) H) : Upward (g.Draws rs) H' := by
  induction h with
  | nil => exact upward_nil _
  | @snoc H H' l l' h hl ih =>
    obtain ⟨hb, hdl⟩ := upward_snoc.1 hd
    have hin := (h.snoc hl).inherited_eq hH hs
    refine upward_snoc.2 ⟨ih (fun m hm => hs m (by simp [hm])) (upward_snoc.1 hH).1 hb, ?_⟩
    intro t ds rest ht hds
    rw [h.course_eq, h.length_eq, hin]
    exact hdl t ds rest (hl.selected ▸ ht) (hl.draws ▸ hds)

/-- After its analysis, an iteration is done with. -/
theorem Sound.cleared (kept : g.Kept S) {H G G' H' above : List Level} {ending : Ending}
    (h : g.Sound S rs G) (he : S.Ends H G ending) (hm : S.Marks H H') (hG' : G' = H' ++ above)
    (hswept : Upward (g.Sweeps (rs ++ [(course H, ending)])) G') :
    g.Cleared S (rs ++ [(course H, ending)]) H' := by
  have hstands := he.stands h.stands
  have hdrawn : Upward (g.Draws rs) H := by
    rcases he.eq_or_snoc with rfl | ⟨l, rfl, -⟩
    · exact h.drawn
    · exact (upward_snoc.1 h.drawn).1
  refine ⟨hm.stands hstands, hm.selected he.selected, (hG' ▸ hswept).of_append, ?_, ?_, ?_⟩
  · refine (draws_of_marks hm he.selected hstands hdrawn).mono fun below l hl => ?_
    exact hl.mono kept (List.subset_append_left _ _)
  · unfold Clears
    rw [hm.course_eq, hm.inherited_eq hstands he.selected]
    exact kept.leaf h.stands he h.swept
  · intro r hr
    rcases List.mem_append.1 hr with hr | hr
    · exact .inl (hm.passed (he.passed (h.passed r hr)))
    · rw [List.mem_singleton.1 hr, hm.course_eq]
      exact .inr (List.prefix_refl _)

end Goal

/-! ## From one iteration to the next -/

namespace Setting

variable {σ : Type} (S : Setting σ)

/-- What an exploration keeps of an iteration. -/
def execution (r : Record) : Execution σ := ⟨S.after r.1, some r.2⟩

/-- An iteration of the client along a path, with its ending. -/
def Ran (r : Record) : Prop := ∃ H G, S.Stands G ∧ S.Ends H G r.2 ∧ r.1 = course H

variable {S}

theorem Ran.follows {r : Record} (h : S.Ran r) : S.Follows r.1 := by
  obtain ⟨H, G, hG, he, hr⟩ := h
  rw [hr]
  exact (he.stands hG).follows

end Setting

/-- The scheduler after one more iteration, which made so many steps. -/
def Scheduler.tallied (s : Scheduler) (steps : Nat) : Scheduler :=
  { s with
    iterations := s.iterations + 1
    counters := (s.counters.add .iterations 1).raise .steps steps }

namespace Setting

variable {σ : Type} {S : Setting σ}

/-- A new scheduler is governed by the setting that its options give. -/
theorem governs_new {c : Config} (hmode : c.mode = .depthFirst)
    (hreduction : c.reduction = S.reduction) (hsleep : c.sleepSets = S.sleepSets)
    (hsteps : c.stepLimit = S.stepLimit) : S.Governs (Scheduler.new c) := by
  refine ⟨?_, ?_, ?_, ?_, hsteps, rfl⟩
  · simp [Scheduler.new, hmode]
  · simp [Scheduler.new, hmode]
  · cases hr : S.reduction <;> simp [Scheduler.new, hreduction, hr]
  · simp [Scheduler.new, hmode, hsleep]

namespace Governs

open Scheduler

variable {s : Scheduler}

theorem tallied (h : S.Governs s) (steps : Nat) : S.Governs (s.tallied steps) :=
  ⟨h.plain, h.generator, h.analysis, h.sleepSets, h.stepLimit, h.replay⟩

theorem counted (h : S.Governs s) (counters : Counters) : S.Governs { s with counters } :=
  ⟨h.plain, h.generator, h.analysis, h.sleepSets, h.stepLimit, h.replay⟩

/-- Without reduction there is nothing to analyse. -/
theorem analyse_none (h : S.Governs s) (hr : S.reduction = false) (G : List Level) :
    analyse.Yields (s.on G G.length) () (s.on G G.length) := by
  have ha : (s.on G G.length).analysis = none := by
    have := h.analysis
    rw [hr] at this
    change s.analysis = none
    simpa using this
  have hg : (s.on G G.length).generator = none := h.generator
  refine (yields_get _).bind ?_
  simp only [ha, randomized, hg, Option.isSome_none, Bool.false_eq_true, if_false]
  exact yields_pure _ _

/-- The end of an iteration: the stack is analysed and goes back to the levels `L`. -/
theorem prepare_yields {s' : Scheduler} {G G' L : List Level} (h' : S.Governs s')
    (ha : analyse.Yields ((s.tallied G.length).on G G.length) () (s'.on G' G'.length))
    (hdrop : Schedule.dropExplored (Schedule.dropUnselected G'.reverse) = (L.reverse, .ok ())) :
    prepare.Yields (s.on G G.length) (L.length != 0) (s'.on L 0) := by
  have hrewind : Schedule.rewind.Yields ⟨G', G'.length, s'.schedule.randomized⟩ ()
      ⟨L, 0, s'.schedule.randomized⟩ := by
    refine ⟨[], ?_⟩
    simp [Schedule.rewind, h'.plain, hdrop]
  have hgen : (s'.on L 0).generator = none := h'.generator
  have hrandom : (s'.on L 0).randomized = false := by simp [randomized, h'.generator]
  refine (yields_modify _ _).bind (ha.bind ((onSchedule_yields hrewind).bind ?_))
  refine Yields.bind (a := ()) (t := s'.on L 0) ?_ ((yields_get _).bind ?_)
  · refine (yields_get _).bind ?_
    simp only [hgen]
    exact yields_pure _ _
  · simp only [hrandom, Bool.false_or, on_schedule, Schedule.size]
    split
    · exact (yields_notify _ _).bind (yields_pure _ _)
    · exact yields_pure _ _

end Governs

end Setting

namespace Goal

variable {g : Goal} {σ : Type} {S : Setting σ} {n : Nat}

/-- The exploration between two iterations, with the levels `L` to be replayed. -/
structure Ready (g : Goal) (S : Setting σ) (rs : List Record) (L : List Level) : Prop where
  sound : g.Sound S rs (L.map Level.settle)
  poised : ∀ l ∈ L, l.selected = none → ∃ e ∈ l.entries, e.awake

theorem Ready.midway {rs : List Record} {L : List Level} (h : g.Ready S rs L) :
    S.Midway [] L [] where
  stands := h.sound.stands
  path_eq := rfl
  selected := by simp
  settled := by simp
  poised := h.poised

/-- The client is executed once from the stack `L`. -/
theorem Kept.program (kept : g.Kept S) (tame : S.Tame n) {start : Nat → σ} {budget : σ → Nat}
    (hstart : ∀ i, start i = S.start) (hbudget : n < budget S.start) {s : Scheduler}
    (hs : S.Governs s) {rs : List Record} {L : List Level} (h : g.Ready S rs L)
    (executions : Array (Execution σ)) :
    ∃ H G ending, (S.client.program start budget).Yields (s.on L 0, executions) ending
        (s.on G G.length, executions.push (S.execution (course H, ending))) ∧
      S.Ends H G ending ∧ g.Sound S rs G := by
  obtain ⟨H, G, ending, ⟨notices, hx⟩, he, hG⟩ :=
    hs.execute_yields tame (budget S.start) h.midway (by simpa using hbudget)
  refine ⟨H, G, ending, ⟨notices, ?_⟩, he, kept.growths tame hG h.sound⟩
  simp only [List.nil_append, List.length_nil, Setting.after_nil] at hx
  simp only [Client.program, hstart, hx]
  rfl

theorem report_yields {ω : Type} (c : Config) (w : Scheduler × ω) :
    (Exploration.report c).Yields w () w := by
  refine (yields_get _).bind ?_
  simp only
  split
  · exact yields_notify _ _
  · exact yields_pure _ _

theorem onScheduler_yields {α ω : Type} {x : Action Scheduler α} {t t' : Scheduler} {a : α}
    (hx : x.Yields t a t') (w : ω) : (Exploration.onScheduler x).Yields (t, w) a (t', w) :=
  @Yields.within _ _ _ Prod.fst (fun s w => (s, w.2)) x (t, w) t' a hx

/-- An iteration runs the program and prepares the next iteration. There is to be one if something
is left to explore and not enough iterations were made. -/
theorem iterate_yields {ω : Type} {c : Config} {program : Action (Scheduler × ω) Ending}
    {s t s' : Scheduler} {w w' : ω} {ending : Ending} {more : Bool}
    (hx : program.Yields (s, w) ending (t, w'))
    (hprep : Scheduler.prepare.Yields { t with counters := t.counters.add (.ended ending) 1 } more
      s') :
    (Exploration.iterate c program).Yields (s, w)
      (more && !c.maxIterations.any fun limit => limit ≤ s'.iterations) (s', w') := by
  refine hx.bind ((onScheduler_yields (yields_modify _ _) _).bind
    ((onScheduler_yields hprep _).bind ((report_yields c _).bind ((yields_get _).bind ?_))))
  cases more with
  | false => exact yields_pure _ _
  | true =>
    by_cases hmax : (c.maxIterations.any fun limit => limit ≤ s'.iterations) = true
    · simp only [Bool.not_true, Bool.false_eq_true, if_false, hmax, if_true, Bool.and_false]
      exact (yields_notify _ _).bind (yields_pure _ _)
    · simp only [Bool.not_true, Bool.false_eq_true, if_false, hmax, Bool.not_false, Bool.and_true]
      exact yields_pure _ _

theorem explore_yields {ω : Type} {c : Config} {program : Action (Scheduler × ω) Ending}
    {fuel : Nat} {w w' : ω} {s : Scheduler}
    (h : (Exploration.run c program fuel).Yields (Scheduler.new c, w) true (s, w')) :
    (Interleaving.explore c program fuel).Yields w (some s.stats) w' := by
  obtain ⟨notices, h⟩ := h
  apply Yields.of_eq
  simp only [Interleaving.explore, bind_apply, get_apply, notify_apply, h, if_true, pure_apply]
  rfl

section Explore

variable {c : Config} {start : Nat → σ} {budget : σ → Nat}

/-- One iteration. It goes a path that no iteration went before, and then there is another one to
make, or else the goal is achieved. -/
theorem Lawful.iterate (lawful : g.Lawful S) (tame : S.Tame n) (hc : c.maxIterations = none)
    (hstart : ∀ i, start i = S.start) (hbudget : n < budget S.start) {s : Scheduler}
    (hs : S.Governs s) {rs : List Record} {L : List Level} (h : g.Ready S rs L)
    (executions : Array (Execution σ)) :
    ∃ s' L' r, (Exploration.iterate c (S.client.program start budget)).Yields
        (s.on L 0, executions) (L'.length != 0) (s'.on L' 0, executions.push (S.execution r)) ∧
      S.Governs s' ∧ S.Ran r ∧ (∀ r' ∈ rs, r'.1 ≠ r.1) ∧
      (L' = [] ∧ g.Done (rs ++ [r]) [] [] ∨ L' ≠ [] ∧ g.Ready S (rs ++ [r]) L') := by
  obtain ⟨H, G, ending, hx, he, hsound⟩ :=
    lawful.program tame hstart hbudget hs h executions
  have hcounted := hs.counted (s.counters.add (.ended ending) 1)
  obtain ⟨s', G', ha, hs', hm, hswept⟩ := lawful.analyse (hcounted.tallied G.length) hsound.stands
    he hsound.swept
  obtain ⟨H', above, hmH, hG', hdrop⟩ := he.dropUnselected hm
  obtain ⟨L', hL', hres⟩ := lawful.dropExplored (hsound.cleared lawful.toKept he hmH hG' hswept)
  have hprep := Setting.Governs.prepare_yields hs' ha (by rw [hdrop, hL'])
  refine ⟨s', L', (course H, ending), ?_, hs', ⟨H, G, hsound.stands, he, rfl⟩, ?_, ?_⟩
  · have := iterate_yields (c := c) hx hprep
    simpa only [hc, Option.any_none, Bool.not_false, Bool.and_true] using this
  · intro r' hr' heq
    refine (he.stands hsound.stands).not_course_isPrefix he.selected
      (he.passed (hsound.passed r' hr')) ?_
    rw [heq]
  · rcases hres with ⟨rfl, hclears⟩ | ⟨hne, hsound', hpoised⟩
    · exact .inl ⟨rfl, hclears⟩
    · exact .inr ⟨hne, hsound', hpoised⟩

/-- Different paths of a tame client are no more than all its paths. -/
theorem length_le_paths (tame : S.Tame n) {rs : List Record} (nodup : (rs.map Prod.fst).Nodup)
    (ran : ∀ r ∈ rs, S.Ran r) : rs.length ≤ (S.pathsUpTo n).length := by
  have hsub : rs.map Prod.fst ⊆ S.pathsUpTo n := by
    intro p hp
    obtain ⟨r, hr, rfl⟩ := List.mem_map.1 hp
    exact (ran r hr).follows.mem_pathsUpTo (tame.bounded (ran r hr).follows)
  simpa using (nodup.subperm hsub).length_le

/-- Iterations are made until the goal is achieved. -/
theorem Lawful.run (lawful : g.Lawful S) (tame : S.Tame n) (hc : c.maxIterations = none)
    (hstart : ∀ i, start i = S.start) (hbudget : n < budget S.start) (left : Nat) :
    ∀ {s : Scheduler} {rs : List Record} {L : List Level}, S.Governs s → g.Ready S rs L →
      (rs.map Prod.fst).Nodup → (∀ r ∈ rs, S.Ran r) → (S.pathsUpTo n).length ≤ rs.length + left →
      ∃ s' rs', (∀ fuel, left < fuel →
          (Exploration.run c (S.client.program start budget) fuel).Yields
            (s.on L 0, (rs.map S.execution).toArray) true
            (s', (rs'.map S.execution).toArray)) ∧
        (rs'.map Prod.fst).Nodup ∧ (∀ r ∈ rs', S.Ran r) ∧ g.Done rs' [] [] := by
  induction left using Nat.strong_induction_on with
  | h left ih =>
    intro s rs L hs h nodup ran hleft
    obtain ⟨s', L', r, hx, hs', hran, hne, hres⟩ :=
      lawful.iterate tame hc hstart hbudget hs h (rs.map S.execution).toArray
    have nodup' : ((rs ++ [r]).map Prod.fst).Nodup := by
      rw [List.map_append, List.map_singleton, List.nodup_append]
      refine ⟨nodup, List.nodup_singleton _, ?_⟩
      simpa using hne
    have ran' : ∀ r' ∈ rs ++ [r], S.Ran r' := by
      intro r' hr'
      rcases List.mem_append.1 hr' with hr' | hr'
      · exact ran r' hr'
      · rwa [List.mem_singleton.1 hr']
    have hlen := length_le_paths tame nodup' ran'
    have hpush : (rs.map S.execution).toArray.push (S.execution r) =
        ((rs ++ [r]).map S.execution).toArray := by simp
    rw [hpush] at hx
    rcases hres with ⟨rfl, hdone⟩ | ⟨hL', hready⟩
    · refine ⟨s'.on [] 0, rs ++ [r], fun fuel hfuel => ?_, nodup', ran', hdone⟩
      cases fuel with
      | zero => omega
      | succ fuel => exact hx.bind (yields_pure _ _)
    · have hlt : left - 1 < left := by simp at hlen; omega
      obtain ⟨t, rs', hrun, hfinal⟩ := ih (left - 1) hlt hs' hready nodup' ran' (by simp; omega)
      refine ⟨t, rs', fun fuel hfuel => ?_, hfinal⟩
      cases fuel with
      | zero => omega
      | succ fuel =>
        have hmore : (L'.length != 0) = true := by simpa using hL'
        rw [hmore] at hx
        exact hx.bind (hrun fuel (by omega))

/-- A whole exploration ends well. Its iterations go different paths, and the goal is achieved. -/
theorem Lawful.explore (lawful : g.Lawful S) (start : Nat → σ) (budget : σ → Nat)
    (tame : S.Tame n) (hmode : c.mode = .depthFirst) (hreduction : c.reduction = S.reduction)
    (hsleep : c.sleepSets = S.sleepSets) (hsteps : c.stepLimit = S.stepLimit)
    (hc : c.maxIterations = none) (hstart : ∀ i, start i = S.start) (hbudget : n < budget S.start) :
    ∃ rs stats, (∀ fuel, (S.pathsUpTo n).length < fuel →
        (Interleaving.explore c (S.client.program start budget) fuel).Yields #[] (some stats)
          (rs.map S.execution).toArray) ∧
      (rs.map Prod.fst).Nodup ∧ (∀ r ∈ rs, S.Ran r) ∧ g.Done rs [] [] := by
  have hgoverns := Setting.governs_new hmode hreduction hsleep hsteps
  have hready : g.Ready S [] [] := ⟨⟨upward_nil _, upward_nil _, upward_nil _, by simp⟩, by simp⟩
  obtain ⟨s, rs, hrun, hfinal⟩ := lawful.run tame hc hstart hbudget (S.pathsUpTo n).length hgoverns
    hready (by simp) (by simp) (by simp)
  refine ⟨rs, s.stats, fun fuel hfuel => ?_, hfinal⟩
  exact explore_yields (hrun fuel hfuel)

end Explore

end Goal

end Interleaving
