import Interleaving.Proofs.Exploring
import Interleaving.Proofs.Marking

/-!
# Explorations that may break off

An exploration may be told to stop after a number of iterations, its iterations may be cut short,
and the analysis of a schedule may fail. Up to there it goes through the tree of paths as ever: of
any two iterations, the later one was made when the stack had left the earlier one behind.

## Main definitions

* `Goal.Robust` — the exploration keeps a goal whatever marks are added.
* `Goal.Succeeds` — an iteration that came after another one.
* `Setting.Stuck` — the analysis of some iteration fails.
* `Setting.limited` — a setting with another limit of steps.

## Main statements

* `Goal.Robust.iterate` — one iteration.
* `Goal.Robust.explore` — all iterations of an exploration, whichever way it ends.
-/

namespace Interleaving

open Interleaving.Action

namespace Setting

variable {σ : Type} {S : Setting σ}

/-- The analysis of some iteration fails. -/
def Stuck (S : Setting σ) : Prop :=
  ∃ s H G ending t, S.Governs s ∧ S.Stands G ∧ S.Ends H G ending ∧
    Scheduler.analyse.Fails (s.on G G.length) t

/-- The end of an iteration whose analysis fails. -/
theorem Governs.prepare_fails {s t : Scheduler} {G : List Level}
    (ha : Scheduler.analyse.Fails ((s.tallied G.length).on G G.length) t) :
    Scheduler.prepare.Fails (s.on G G.length) t :=
  (yields_modify _ _).bind_fails (ha.bind _)

/-! ## Limits -/

/-- The setting with another limit of steps. -/
def limited (S : Setting σ) (limit : Option Nat) : Setting σ := { S with stepLimit := limit }

variable {limit : Option Nat}

@[simp] theorem after_limited (p : List Answer) : (S.limited limit).after p = S.after p := rfl

@[simp] theorem request_limited (p : List Answer) :
    (S.limited limit).request p = S.request p := rfl

theorem Follows.of_limited {p : List Answer} (h : (S.limited limit).Follows p) : S.Follows p := by
  induction h with
  | nil => exact .nil
  | snoc _ ha ih => exact ih.snoc ha

theorem Tame.limited {n : Nat} (h : S.Tame n) (limit : Option Nat) : (S.limited limit).Tame n where
  dense hp hr := h.dense hp.of_limited hr
  drawn hp hr := h.drawn hp.of_limited hr
  plain hp := h.plain hp.of_limited
  bounded hp := h.bounded hp.of_limited

/-- What stands within a limit stands without one. -/
theorem Stands.of_limited {G : List Level} (hS : S.stepLimit = none)
    (h : (S.limited limit).Stands G) : S.Stands G := by
  refine h.mono fun below l hl => ?_
  exact ⟨hl.below_selected, by simp [hS], hl.step_eq, hl.seen, hl.follows.of_limited, hl.marked,
    hl.draws, hl.settled, hl.awake, hl.undrawn⟩

end Setting

namespace Goal

variable {g : Goal} {σ : Type} {S : Setting σ} {n : Nat}

/-- What an exploration does to its stack keeps the goal, and so do marks that are added. -/
structure Robust (g : Goal) (S : Setting σ) : Prop extends g.Kept S where
  marks : ∀ {rs : List Record} {r : Record} {G G' : List Level}, S.Marks G G' → S.Stands G →
    Upward (g.Sweeps rs) G → Upward (g.Sweeps (rs ++ [r])) G'

/-- The goal to achieve nothing. -/
def nothing : Goal := ⟨fun _ _ _ => True, fun _ _ _ _ => True⟩

theorem nothing_robust (S : Setting σ) : nothing.Robust S where
  mono := fun _ _ => trivial
  fresh := fun _ _ _ _ _ => trivial
  leaf := fun _ _ _ => trivial
  draw := fun _ _ _ _ => trivial
  retire := fun _ _ _ _ _ => trivial
  exhaust := fun _ _ _ _ => trivial
  marks := fun _ _ _ _ _ _ _ => trivial

/-- An iteration that was made after another one: the stack at its end was sound when the other one
was behind. -/
def Succeeds (g : Goal) (S : Setting σ) (r' r : Record) : Prop :=
  ∃ rs H G, r' ∈ rs ∧ g.Sound S rs G ∧ S.Ends H G r.2 ∧ r.1 = course H

/-- Two iterations go different paths. -/
theorem Succeeds.ne {r' r : Record} (h : g.Succeeds S r' r) : r'.1 ≠ r.1 := by
  obtain ⟨rs, H, G, hr', hsound, he, hr⟩ := h
  intro heq
  refine (he.stands hsound.stands).not_course_isPrefix he.selected
    (he.passed (hsound.passed r' hr')) ?_
  rw [heq, hr]

section Explore

variable {c : Config} {start : Nat → σ} {budget : σ → Nat}

theorem onScheduler_fails {α ω : Type} {x : Action Scheduler α} {t t' : Scheduler}
    (hx : x.Fails t t') (w : ω) : (Exploration.onScheduler x).Fails (t, w) (t', w) :=
  @Fails.within _ _ _ Prod.fst (fun s w => (s, w.2)) x (t, w) t' hx

/-- One iteration. It comes after all iterations before it, and then the exploration goes on from a
stack that is ready, or it stops, or the analysis fails. -/
theorem Robust.iterate (robust : g.Robust S) (tame : S.Tame n)
    (markable : ∀ G, S.Stands G → Markable S G) (hstart : ∀ i, start i = S.start)
    (hbudget : n < budget S.start) {s : Scheduler} (hs : S.Governs s) {rs : List Record}
    {L : List Level} (h : g.Ready S rs L) (executions : Array (Execution σ)) :
    ∃ r, S.Ran r ∧ (∀ r' ∈ rs, g.Succeeds S r' r) ∧
      ((∃ more s' L', (Exploration.iterate c (S.client.program start budget)).Yields
          (s.on L 0, executions) more (s'.on L' 0, executions.push (S.execution r)) ∧
          S.Governs s' ∧ (more → g.Ready S (rs ++ [r]) L')) ∨
        S.Stuck ∧ ∃ s', (Exploration.iterate c (S.client.program start budget)).Fails
          (s.on L 0, executions) (s', executions.push (S.execution r))) := by
  obtain ⟨H, G, ending, hx, he, hsound⟩ :=
    robust.program tame hstart hbudget hs h executions
  have hgov := (hs.counted (s.counters.add (.ended ending) 1)).tallied G.length
  refine ⟨(course H, ending), ⟨H, G, hsound.stands, he, rfl⟩,
    fun r' hr' => ⟨rs, H, G, hr', hsound, he, rfl⟩, ?_⟩
  rcases yields_or_fails Scheduler.analyse (Scheduler.on _ G G.length) with
    ⟨_, t, ha⟩ | ⟨t, ha⟩
  · obtain ⟨s', G', rfl, hs', hm⟩ :=
      hgov.analyse_ensures (markable G hsound.stands) _ _ ha
    obtain ⟨H', above, hmH, hG', hdrop⟩ := he.dropUnselected hm
    have hswept := robust.marks (r := (course H, ending)) hm hsound.stands hsound.swept
    obtain ⟨L', hL', hres⟩ :=
      robust.dropExplored (hsound.cleared robust.toKept he hmH hG' hswept)
    have hprep := Setting.Governs.prepare_yields hs' ha (by rw [hdrop, hL'])
    refine .inl ⟨_, s', L', iterate_yields hx hprep, hs', fun hmore => ?_⟩
    rcases hres with ⟨rfl, -⟩ | ⟨-, hsound', hpoised⟩
    · simp at hmore
    · exact ⟨hsound', hpoised⟩
  · refine .inr ⟨⟨_, H, G, ending, t, hgov, hsound.stands, he, ha⟩, t, ?_⟩
    refine hx.bind_fails ((onScheduler_yields (yields_modify _ _) _).bind_fails ?_)
    exact (onScheduler_fails (Setting.Governs.prepare_fails ha) _).bind _

/-- Iterations are made until the exploration stops, breaks off or has used up its fuel. -/
theorem Robust.run (robust : g.Robust S) (tame : S.Tame n)
    (markable : ∀ G, S.Stands G → Markable S G) (hstart : ∀ i, start i = S.start)
    (hbudget : n < budget S.start) (fuel : Nat) :
    ∀ {s : Scheduler} {rs : List Record} {L : List Level}, S.Governs s → g.Ready S rs L →
      (∀ r ∈ rs, S.Ran r) → rs.Pairwise (g.Succeeds S) →
      ∃ (s' : Scheduler) (rs' : List Record), (∀ r ∈ rs', S.Ran r) ∧ rs'.Pairwise (g.Succeeds S) ∧
        ((∃ ended, (Exploration.run c (S.client.program start budget) fuel).Yields
            (s.on L 0, (rs.map S.execution).toArray) ended
            (s', (rs'.map S.execution).toArray) ∧
            (ended = false → rs'.length = rs.length + fuel)) ∨
          S.Stuck ∧ (Exploration.run c (S.client.program start budget) fuel).Fails
            (s.on L 0, (rs.map S.execution).toArray) (s', (rs'.map S.execution).toArray)) := by
  induction fuel with
  | zero =>
    intro s rs L hs h ran pairwise
    exact ⟨s.on L 0, rs, ran, pairwise, .inl ⟨false, yields_pure _ _, fun _ => rfl⟩⟩
  | succ fuel ih =>
    intro s rs L hs h ran pairwise
    obtain ⟨r, hran, hsucceeds, hres⟩ :=
      robust.iterate (c := c) tame markable hstart hbudget hs h (rs.map S.execution).toArray
    have ran' : ∀ r' ∈ rs ++ [r], S.Ran r' := by
      intro r' hr'
      rcases List.mem_append.1 hr' with hr' | hr'
      · exact ran r' hr'
      · rwa [List.mem_singleton.1 hr']
    have pairwise' : (rs ++ [r]).Pairwise (g.Succeeds S) := by
      rw [List.pairwise_append]
      exact ⟨pairwise, List.pairwise_singleton _ _, by simpa using hsucceeds⟩
    have hpush : (rs.map S.execution).toArray.push (S.execution r) =
        ((rs ++ [r]).map S.execution).toArray := by simp
    rw [hpush] at hres
    rcases hres with ⟨more, s', L', hx, hs', hready⟩ | ⟨hstuck, s', hx⟩
    · cases more with
      | false =>
        refine ⟨s'.on L' 0, rs ++ [r], ran', pairwise', .inl ⟨true, ?_, by simp⟩⟩
        exact hx.bind (yields_pure _ _)
      | true =>
        obtain ⟨t, rs', ran'', pairwise'', hres⟩ := ih hs' (hready rfl) ran' pairwise'
        refine ⟨t, rs', ran'', pairwise'', hres.imp ?_ ?_⟩
        · rintro ⟨ended, hrun, hended⟩
          refine ⟨ended, hx.bind hrun, fun he => ?_⟩
          rw [hended he]
          simp
          omega
        · exact fun hr => ⟨hr.1, hx.bind_fails hr.2⟩
    · exact ⟨s', rs ++ [r], ran', pairwise', .inr ⟨hstuck, hx.bind _⟩⟩

/-- The iterations of an exploration in depth-first mode, with any limits: of any two, the later one
comes after the earlier one. Unless an analysis fails the exploration ends well, and it has an end
if there is fuel for all paths. -/
theorem Robust.explore (robust : g.Robust S) (start : Nat → σ) (budget : σ → Nat)
    (tame : S.Tame n) (markable : ∀ G, S.Stands G → Markable S G) (hmode : c.mode = .depthFirst)
    (hreduction : c.reduction = S.reduction) (hsleep : c.sleepSets = S.sleepSets)
    (hsteps : c.stepLimit = S.stepLimit) (hstart : ∀ i, start i = S.start)
    (hbudget : n < budget S.start) (fuel : Nat) :
    ∃ rs : List Record, (∀ r ∈ rs, S.Ran r) ∧ rs.Pairwise (g.Succeeds S) ∧
      (Interleaving.explore c (S.client.program start budget) fuel #[]).state =
        (rs.map S.execution).toArray ∧
      (S.Stuck ∨ ∃ stats, (Interleaving.explore c (S.client.program start budget) fuel #[]).result =
        .ok stats ∧ ((S.pathsUpTo n).length < fuel → stats.isSome)) := by
  have hgoverns := Setting.governs_new hmode hreduction hsleep hsteps
  have hready : g.Ready S [] [] := ⟨⟨upward_nil _, upward_nil _, upward_nil _, by simp⟩, by simp⟩
  obtain ⟨s, rs, ran, pairwise, hrun⟩ := robust.run (c := c) tame markable hstart hbudget fuel
    hgoverns hready (by simp) .nil
  refine ⟨rs, ran, pairwise, ?_⟩
  rcases hrun with ⟨ended, ⟨notices, hrun⟩, hended⟩ | ⟨hstuck, fault, notices, hrun⟩
  · have hrun' : Exploration.run c (S.client.program start budget) fuel (Scheduler.new c, #[]) =
        ⟨.ok ended, (s, (rs.map S.execution).toArray), notices⟩ := hrun
    cases ended with
    | true =>
      simp only [Interleaving.explore, bind_apply, get_apply, notify_apply, hrun', if_true,
        pure_apply]
      exact ⟨trivial, .inr ⟨_, rfl, by simp⟩⟩
    | false =>
      simp only [Interleaving.explore, bind_apply, get_apply, notify_apply, hrun', if_false,
        Bool.false_eq_true, pure_apply]
      refine ⟨trivial, .inr ⟨none, rfl, fun hfuel => ?_⟩⟩
      have nodup : (rs.map Prod.fst).Nodup := by
        rw [List.Nodup, List.pairwise_map]
        exact pairwise.imp Succeeds.ne
      have := length_le_paths tame nodup ran
      have := hended rfl
      simp at this
      omega
  · have hrun' : Exploration.run c (S.client.program start budget) fuel (Scheduler.new c, #[]) =
        ⟨.error fault, (s, (rs.map S.execution).toArray), notices⟩ := hrun
    simp only [Interleaving.explore, bind_apply, get_apply, notify_apply, hrun']
    exact ⟨trivial, .inl hstuck⟩

end Explore

end Goal

end Interleaving
