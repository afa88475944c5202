import Interleaving.Proofs.Commuting
import Interleaving.Proofs.Nodes

/-!
# Sleep sets

A thread that is asleep at a level was run there before, or at a level below since when only
independent operations were run. So every run in which the thread could come first is equivalent
to one that was explored. With sleep sets alone, an exploration thus misses no class of equivalent
runs.

## Main definitions

* `Covered` — an iteration that sleep did not stop was equivalent to a run.
* `covering` — the goal that all maximal runs are covered.

## Main statements

* `explore_covers_every_class` — every maximal run is equivalent to some iteration.
-/

namespace Interleaving

namespace Actors

open Machine

variable {scripts : List Script} {sleepSets reduction : Bool}

/-- An iteration that sleep did not stop was equivalent to a run. -/
def Covered (scripts : List Script) (rs : List Record) (xs : List Move) : Prop :=
  ∃ r ∈ rs, r.2 ≠ .allAsleep ∧ ∃ ys, r.1 = told 0 ys ∧ (load scripts).Equivalent xs ys

/-- Every maximal run is covered, except for those in which a thread could come first that is
asleep. Of those that go on from a level, the ones are covered in which a thread could come first
that fell asleep there. -/
def covering (scripts : List Script) : Goal where
  Done rs p z := ∀ xs, (load scripts).Maximal xs → p <+: told 0 xs →
    (∀ t ∈ z, ¬ Initial t (xs.drop (decisions p))) → Covered scripts rs xs
  Swept rs p z entries :=
    (∀ (t : Nat) (e : Entry), entries[t]? = some e → e.asleep → e.enabled) ∧
    (∀ e ∈ entries, e.enabled → e.marked) ∧
    ∀ xs, (load scripts).Maximal xs → p <+: told 0 xs →
      (∀ t ∈ z, ¬ Initial t (xs.drop (decisions p))) →
      ∀ (t : Nat) (e : Entry), entries[t]? = some e → e.asleep →
        Initial t (xs.drop (decisions p)) → Covered scripts rs xs

theorem Covered.mono {rs rs' : List Record} {xs : List Move} (hsub : rs ⊆ rs')
    (h : Covered scripts rs xs) : Covered scripts rs' xs := by
  obtain ⟨r, hr, h⟩ := h
  exact ⟨r, hsub hr, h⟩

theorem Covered.of_equivalent {rs : List Record} {xs ys : List Move}
    (h : (load scripts).Equivalent xs ys) (hys : Covered scripts rs ys) :
    Covered scripts rs xs := by
  obtain ⟨r, hr, hne, zs, hz, hequiv⟩ := hys
  exact ⟨r, hr, hne, zs, hz, h.trans _ _ _ hequiv⟩

/-- A thread that is asleep below and independent of what was run stays enabled. -/
theorem enabled_of_inherited (ordinary : Ordinary scripts) {below : List Level} {choices : Snapshot}
    {current : ThreadId} (hstands : (setting scripts sleepSets reduction).Stands below)
    (hselected : ∀ l ∈ below, l.selected.isSome)
    (hr : (setting scripts sleepSets reduction).request (course below) = .next choices current)
    (henabled : ∀ below' l, below = below' ++ [l] →
      ∀ (t : Nat) (e : Entry), l.entries[t]? = some e → e.asleep → e.enabled)
    {z : Nat} (hz : z ∈ inherited below) {p : Pending} (hp : choices.unstick[z]? = some p) :
    p.enabled := by
  cases below using List.reverseRecOn with
  | nil => simp at hz
  | append_singleton below l =>
    have hfits := (upward_snoc.1 hstands).2
    obtain ⟨t, ht⟩ := Option.isSome_iff_exists.1 (hselected l (by simp))
    obtain ⟨e, he, hawake⟩ := hfits.awake t ht
    rw [inherited_snoc ht he, mem_sleepers] at hz
    obtain ⟨f, hf, hasleep, hdep⟩ := hz
    obtain ⟨pre, hnode⟩ := exists_node ordinary hfits
    obtain ⟨pre', hpre', hcourse, hsnapshot⟩ := exists_executes_of_next ordinary hstands.follows hr
    obtain ⟨x, rfl, rfl, hx⟩ := hnode.exists_snoc hfits ht hpre' hcourse
    have orderly := hnode.executes.orderly (orderly_load ordinary)
    have idle := hnode.executes.idle (orderly_load ordinary) rfl
    -- the thread that is asleep can move before and after the move that is made
    obtain ⟨script, hscript, hshown⟩ := hnode.entry hf
    have hf' := henabled below l rfl z f hf hasleep
    obtain ⟨y, rest, hy, rfl, rfl⟩ := exists_can idle hscript (hshown ▸ hf')
    have hne : y.thread ≠ x.thread := by
      intro hyx
      rw [hyx, he, Option.some.injEq] at hf
      subst hf
      simp [Entry.awake, hasleep] at hawake
    have hindependent : x.Independent y := by
      obtain ⟨rest', hnext, -⟩ := hx.next
      obtain ⟨script', hscript', hshown'⟩ := hnode.entry he
      obtain rfl : x.instruction :: rest' = script' := by simpa [hnext] using hscript'
      rw [hshown, hshown', dependent_pending] at hdep
      exact ⟨hne.symm, by rw [Pending.dependent_comm, hdep]⟩
    obtain ⟨rest', hnext, hen⟩ := (hx.persists hy orderly hindependent.compatible).next
    rw [hsnapshot, getElem?_snapshot, moves_append, moves_cons, moves_nil, hnext, Option.map_some,
      Option.some.injEq] at hp
    rw [← hp]
    exact hen

/-- A sleeper that could come first after a move was moved to the front could do so before. -/
theorem initial_of_front {u v : List Move} {x : Move} {t : ThreadId}
    (h : Initial t (u ++ v)) (hx : ∀ u' y v', u ++ v = u' ++ y :: v' → y.thread = t →
      (∀ z ∈ u', z.Independent y) → x.Independent y) : Initial t (u ++ x :: v) := by
  obtain ⟨u', y, v', heq, hy, hind⟩ := h
  have hxy := hx u' y v' heq hy hind
  rcases List.append_eq_append_iff.1 heq with ⟨c, rfl, rfl⟩ | ⟨c, rfl, hc⟩
  · refine ⟨u ++ x :: c, y, v', by simp, hy, ?_⟩
    intro z hz
    simp only [List.mem_append, List.mem_cons] at hz hind
    rcases hz with hz | rfl | hz
    · exact hind z (.inl hz)
    · exact hxy
    · exact hind z (.inr hz)
  · cases c with
    | nil =>
      obtain rfl : v = y :: v' := by simpa using hc.symm
      refine ⟨u' ++ [x], y, v', by simp, hy, ?_⟩
      intro z hz
      rcases List.mem_append.1 hz with hz | hz
      · exact hind z hz
      · rwa [List.mem_singleton.1 hz]
    | cons c cs =>
      obtain ⟨rfl, -⟩ := List.cons.inj hc
      exact ⟨u', y, cs ++ x :: v, by simp, hy, hind⟩

section Lawful

variable {rs : List Record} {below : List Level} {l : Level} {pre : List Move}

/-- Where the covering of a level is known, in terms of the runs that go on from it. -/
theorem covered_of_sweeps (hnode : Node scripts below l pre)
    (h : (covering scripts).Sweeps rs below l) {w : List Move}
    (hmax : (load scripts).Maximal (pre ++ w)) (hz : ∀ t ∈ inherited below, ¬ Initial t w)
    {t : Nat} {e : Entry} (he : l.entries[t]? = some e) (ha : e.asleep) (hi : Initial t w) :
    Covered scripts rs (pre ++ w) := by
  have hdrop : (pre ++ w).drop (decisions (course below)) = w := by
    rw [hnode.course_eq, decisions_told, List.drop_left]
  refine h.2.2 (pre ++ w) hmax ?_ (by rwa [hdrop]) t e he ha (by rwa [hdrop])
  rw [hnode.course_eq, told_append]
  exact List.prefix_append _ _

/-- The thread selected at a level is put to sleep: all runs are covered in which it could come
first. -/
theorem covered_of_retired (plain : Plain scripts) (hnode : Node scripts below l pre)
    (hfits : (setting scripts true false).Fits below l) {t : ThreadId} {e : Entry}
    (he : l.entries[t]? = some e) (henabled : e.enabled) (hwakes : e.asleep = false)
    (h : (covering scripts).Sweeps rs below l)
    (hdone : (covering scripts).Done rs (course below ++ [.run t (below.length + 1)])
      (Schedule.sleepers l e)) {w : List Move} (hmax : (load scripts).Maximal (pre ++ w))
    (hz : ∀ t ∈ inherited below, ¬ Initial t w) (hi : Initial t w) :
    Covered scripts rs (pre ++ w) := by
  have tidy := hnode.executes.tidy (tidy_load plain)
  have idle := hnode.executes.idle (orderly_load plain.ordinary) rfl
  obtain ⟨u, x, v, rfl, rfl, hind⟩ := hi
  obtain ⟨-, hexec⟩ := executes_append.1 hmax.1
  obtain ⟨script, hscript, hshown⟩ := hnode.entry he
  obtain ⟨rest, hnext⟩ := next_of_executes tidy hexec fun y hy => (hind y hy).ne
  obtain rfl : x.instruction :: rest = script := by simpa [hnext] using hscript
  have hx : ((load scripts).moves pre).Can x :=
    ⟨idle, ⟨rest, hnext, hshown ▸ henabled⟩, toss_of_executes hexec⟩
  have hfront := equivalent_front (tidy_load plain) u hmax.1 hx hind
  by_cases hsleep : ∃ z ∈ Schedule.sleepers l e, Initial z (u ++ v)
  · -- a run in which a sleeper could come first was covered before
    obtain ⟨z, hz', hzi⟩ := hsleep
    obtain ⟨f, hf, hasleep, hdep⟩ := mem_sleepers.1 hz'
    refine covered_of_sweeps hnode h hmax hz hf hasleep (initial_of_front hzi ?_)
    rintro u' y v' heq rfl hind'
    have hne : x.thread ≠ y.thread := by
      intro hxy
      rw [← hxy, he, Option.some.injEq] at hf
      simp [← hf, hwakes] at hasleep
    have hafter := (executes_append.1 ((hfront.executes_iff (tidy_load plain)).1.1 hmax.1)).2
    rw [heq, ← List.cons_append] at hafter
    have hthreads : ∀ z ∈ x :: u', z.thread ≠ y.thread := by
      intro z hz
      rcases List.mem_cons.1 hz with rfl | hz
      · exact hne
      · exact (hind' z hz).ne
    obtain ⟨rest', hnext'⟩ := next_of_executes tidy hafter hthreads
    obtain ⟨script', hscript', hshown'⟩ := hnode.entry hf
    obtain rfl : y.instruction :: rest' = script' := by simpa [hnext'] using hscript'
    rw [hshown, hshown', dependent_pending] at hdep
    exact ⟨hne, by rw [Pending.dependent_comm, hdep]⟩
  · push Not at hsleep
    refine .of_equivalent hfront (hdone _ (hfront.maximal (tidy_load plain) hmax) ?_ ?_)
    · rw [hnode.course_eq, told_append, told, Move.answers, Nat.zero_add,
        hnode.length_eq hfits.below_selected]
      simp
    · have hlength := hnode.length_eq hfits.below_selected
      have hsplit : pre ++ x :: (u ++ v) = (pre ++ [x]) ++ (u ++ v) := by simp
      simp only [decisions_append, decisions_course hfits.below_selected, decisions_run,
        decisions_nil, Nat.zero_add, ← hlength]
      rwa [hsplit, List.drop_left' (by simp)]

/-- A run that goes on from a level, through a thread that is asleep there. -/
theorem covered_of_all_asleep (plain : Plain scripts) (hnode : Node scripts below l pre)
    (h : (covering scripts).Sweeps rs below l) (hall : ∀ e ∈ l.entries, e.enabled → e.asleep)
    (hsome : ∃ e ∈ l.entries, e.enabled) {w : List Move}
    (hmax : (load scripts).Maximal (pre ++ w)) (hz : ∀ t ∈ inherited below, ¬ Initial t w) :
    Covered scripts rs (pre ++ w) := by
  have idle := hnode.executes.idle (orderly_load plain.ordinary) rfl
  cases w with
  | nil =>
    obtain ⟨e, he, henabled⟩ := hsome
    obtain ⟨i, hi⟩ := List.mem_iff_getElem?.1 he
    obtain ⟨script, hscript, hshown⟩ := hnode.entry hi
    obtain ⟨x, -, hx, -⟩ := exists_can idle hscript (hshown ▸ henabled)
    rw [List.append_nil] at hmax
    exact absurd hx (hmax.2 x)
  | cons x w =>
    obtain ⟨-, hx, -⟩ := executes_append.1 hmax.1
    obtain ⟨e, -, he, henabled, -⟩ := hnode.exists_entry hx
    have ha := hall e (List.mem_of_getElem? he) henabled
    exact covered_of_sweeps hnode h hmax hz he ha (initial_cons x w)

end Lawful

/-- A level that is added shows what is enabled, and of that it puts to sleep what it inherits. -/
theorem covering_fresh (plain : Plain scripts) {rs : List Record} {below : List Level}
    {choices : Snapshot} {current : ThreadId}
    (hstands : (setting scripts true false).Stands below)
    (hselected : ∀ l ∈ below, l.selected.isSome)
    (hswept : Upward ((covering scripts).Sweeps rs) below)
    (hr : (setting scripts true false).request (course below) = .next choices current) :
    (covering scripts).Sweeps rs below
      ((setting scripts true false).fresh below choices current) := by
  have asleep {t : Nat} {e : Entry}
      (he : ((setting scripts true false).fresh below choices current).entries[t]? = some e)
      (ha : e.asleep) : t ∈ inherited below := by
    rw [(Setting.getElem?_fresh he).1] at ha
    simpa [setting, Setting.ofEnabled] using ha
  refine ⟨fun t e he ha => ?_, fun e he henabled => ?_, fun xs _ _ hz t e he ha hi => ?_⟩
  · refine enabled_of_inherited plain.ordinary hstands hselected hr ?_ (asleep he ha) ?_
    · rintro below' l rfl
      exact (upward_snoc.1 hswept).2.1
    · rw [← (setting scripts true false).pendings_fresh below choices current,
        Level.pendings_getElem?, he, Option.map_some]
  · obtain ⟨i, hi⟩ := List.mem_iff_getElem?.1 he
    exact (Setting.getElem?_fresh hi).2.2 rfl henabled
  · exact absurd hi (hz t (asleep he ha))

/-- An iteration covers the run along which it went. If it is stopped by sleep, the runs that go on
from there are covered. -/
theorem covering_leaf (plain : Plain scripts) {rs : List Record} {H G : List Level}
    {ending : Ending} (hG : (setting scripts true false).Stands G)
    (hends : (setting scripts true false).Ends H G ending)
    (hswept : Upward ((covering scripts).Sweeps rs) G) :
    (covering scripts).Clears (rs ++ [(course H, ending)]) H := by
  intro xs hxs hp hz
  by_cases hne : ending = .allAsleep
  · subst hne
    cases hends with
    | @allAsleep choices current hselected hr hall =>
      obtain ⟨hawake, f, hf, hasleep⟩ := Level.firstAwake_eq_allAsleep hall
      obtain ⟨pre, hnode⟩ := exists_node plain.ordinary (upward_snoc.1 hG).2
      have hsweeps := (upward_snoc.1 hswept).2
      obtain ⟨w, rfl, hdrop⟩ := hnode.exists_append hxs.1 hp
      rw [hdrop] at hz
      refine Covered.mono (List.subset_append_left _ _)
        (covered_of_all_asleep plain hnode hsweeps (fun e he henabled => ?_) ?_ hxs hz)
      · have := hawake e he
        simpa [Entry.awake, hsweeps.2.1 e he henabled] using this
      · obtain ⟨i, hi⟩ := List.mem_iff_getElem?.1 hf
        exact ⟨f, hf, hsweeps.1 i f hi hasleep⟩
  · have hcomplete := hends.complete hG (fun _ => rfl) rfl hne
    obtain ⟨rest, hrest⟩ := hp
    have hf : (setting scripts true false).Follows (told 0 xs) :=
      follows_told plain.ordinary hxs.1
    rw [← hrest] at hf
    obtain rfl := hcomplete.eq_of_append hf
    exact ⟨_, List.mem_append_right _ (List.mem_singleton.2 rfl), hne, xs, by simpa using hrest,
      .refl xs⟩

/-- Once all runs through a thread are covered it is put to sleep. -/
theorem covering_retire (plain : Plain scripts) {rs : List Record} {below : List Level} {l : Level}
    {t : ThreadId} {e : Entry} (hfits : (setting scripts true false).Fits below l)
    (ht : l.selected = some t) (he : l.entries[t]? = some e)
    (hl : (covering scripts).Sweeps rs below l)
    (hdone : (covering scripts).Done rs (course below ++ [.run t (below.length + 1)])
      (Schedule.sleepers l e)) : (covering scripts).Sweeps rs below (l.retired t) := by
  obtain ⟨e', he', hawake⟩ := hfits.awake t ht
  obtain rfl : e = e' := by simpa [he] using he'
  simp only [Entry.awake, Bool.and_eq_true, Bool.not_eq_true'] at hawake
  have henabled : e.enabled := hfits.marked e (List.mem_of_getElem? he) hawake.1
  refine ⟨fun u f hf ha => ?_, Level.marked_retired hl.2.1 t,
    fun xs hxs hp hz u f hf ha hi => ?_⟩ <;>
    obtain ⟨g, hg, hpending, -, hsame⟩ := Level.exists_of_retired hf <;> by_cases hu : u = t
  · obtain rfl : e = g := by simpa [hu, he] using hg
    rwa [hpending]
  · obtain rfl := hsame hu
    exact hl.1 u f hg ha
  · obtain ⟨pre, hnode⟩ := exists_node plain.ordinary hfits
    obtain ⟨w, rfl, hdrop⟩ := hnode.exists_append hxs.1 hp
    rw [hdrop] at hz hi
    exact covered_of_retired plain hnode hfits he henabled hawake.2 hl hdone hxs hz (hu ▸ hi)
  · obtain ⟨pre, hnode⟩ := exists_node plain.ordinary hfits
    obtain ⟨w, rfl, hdrop⟩ := hnode.exists_append hxs.1 hp
    rw [hdrop] at hz hi
    obtain rfl := hsame hu
    exact covered_of_sweeps hnode hl hxs hz hg ha hi

theorem covering_lawful (plain : Plain scripts) :
    (covering scripts).Lawful (setting scripts true false) where
  mono := fun hsub h xs hxs hp hz => (h xs hxs hp hz).mono hsub
  fresh := fun hstands hselected hswept hr _ => covering_fresh plain hstands hselected hswept hr
  analyse := by
    intro rs s H G ending hgov _ _ hswept
    refine ⟨s, G, hgov.analyse_none rfl G, hgov, .refl G, hswept.mono fun below l hl => ?_⟩
    refine ⟨hl.1, hl.2.1, fun xs hxs hp hz t e he ha hi => ?_⟩
    exact (hl.2.2 xs hxs hp hz t e he ha hi).mono (List.subset_append_left _ _)
  leaf := covering_leaf plain
  draw := by
    intro rs p z hp hdraw hfalse htrue xs hxs hpx hz
    have hf : (setting scripts true false).Follows (told 0 xs) := follows_told plain.ordinary hxs.1
    rcases hf.eq_or_snoc_isPrefix hpx with rfl | ⟨a, ha, hpre⟩
    · have orderly := orderly_load plain.ordinary
      have hcases := (hxs.1.orderly orderly).request_cases (hxs.1.idle orderly rfl)
      rw [request_told] at hdraw
      simp [hdraw] at hcases
    · simp only [Setting.offers, hdraw, List.mem_cons, List.not_mem_nil, or_false] at ha
      rcases ha with rfl | rfl
      · exact hfalse xs hxs hpre (by simpa using hz)
      · exact htrue xs hxs hpre (by simpa using hz)
  retire := covering_retire plain
  exhaust := by
    rintro rs below l hfits ⟨e, he, hm⟩ hex hl xs hxs hp hz
    obtain ⟨pre, hnode⟩ := exists_node plain.ordinary hfits
    obtain ⟨w, rfl, hdrop⟩ := hnode.exists_append hxs.1 hp
    rw [hdrop] at hz
    refine covered_of_all_asleep plain hnode hl (fun f hf henabled => ?_)
      ⟨e, he, hfits.marked e he hm⟩ hxs hz
    have := Level.exhausted_iff.1 hex f hf
    simpa [Entry.awake, hl.2.1 f hf henabled] using this

/-- With sleep sets alone no class of runs is lost. For plain scripts the exploration ends well, and
every maximal run is equivalent to an iteration that sleep did not stop. -/
theorem explore_covers_every_class (plain : Plain scripts) {c : Config}
    (mode : c.mode = .depthFirst) (reduction : c.reduction = false)
    (sleepSets : c.sleepSets = true) (stepLimit : c.stepLimit = none)
    (maxIterations : c.maxIterations = none) :
    ∃ (executions : List (Execution Machine)) (stats : Stats) (enough : Nat),
      (∀ fuel, enough < fuel → ∃ notices, (Campaign.mk [scripts] []).explore c fuel =
        ⟨.ok (some stats), executions.toArray, notices⟩) ∧
      ∀ xs, (load scripts).Maximal xs → ∃ ys ending, (load scripts).Equivalent xs ys ∧
        (ending = .allFinished ∨ ending = .deadlock) ∧
        ⟨(load scripts).moves ys, some ending⟩ ∈ executions := by
  obtain ⟨rs, stats, hx, -, ran, done⟩ := (covering_lawful plain).explore
    (Campaign.mk [scripts] []).machine Machine.budget plain.ordinary.tame mode reduction sleepSets
    stepLimit maxIterations (machine_single scripts) (lt_budget scripts)
  refine ⟨_, stats, _, hx, fun xs hxs => ?_⟩
  obtain ⟨r, hr, hne, ys, hys, hequiv⟩ := done xs hxs List.nil_prefix (by simp)
  refine ⟨ys, r.2, hequiv, ?_, List.mem_map.2 ⟨r, hr, ?_⟩⟩
  · obtain ⟨H, G, -, hends, -⟩ := ran r hr
    generalize r.2 = ending at hends hne
    cases hends with
    | finished => exact .inl rfl
    | deadlock => exact .inr rfl
    | allAsleep => exact absurd rfl hne
    | cut _ _ hl => simp [setting, Setting.ofEnabled] at hl
  · rw [Setting.execution, hys, after_told]

/-- A sender that tosses a coin, and a receiver that waits for it to finish. -/
theorem explore_covers_every_class_of_toss :
    ∃ (executions : List (Execution Machine)) (stats : Stats) (enough : Nat),
      (∀ fuel, enough < fuel → ∃ notices,
        (Campaign.mk [[[.send 0, .toss], [.receive 0, .join 0]]] []).explore
          { reduction := false } fuel = ⟨.ok (some stats), executions.toArray, notices⟩) ∧
      ∀ xs, (load [[.send 0, .toss], [.receive 0, .join 0]]).Maximal xs →
        ∃ ys ending, (load [[.send 0, .toss], [.receive 0, .join 0]]).Equivalent xs ys ∧
          (ending = .allFinished ∨ ending = .deadlock) ∧
          ⟨(load [[.send 0, .toss], [.receive 0, .join 0]]).moves ys, some ending⟩ ∈ executions :=
  explore_covers_every_class (by simp [Plain, Instruction.plain]) rfl rfl rfl rfl rfl

end Actors

end Interleaving
