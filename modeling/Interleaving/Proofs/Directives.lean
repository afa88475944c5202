import Mathlib.Data.List.TakeWhile
import Interleaving.Proofs.Picks
import Interleaving.Proofs.RaceWalks

/-!
# The directives that reverse a race

After an iteration in random mode one of the races of its run is picked. The schedule is cut back to
before the race, and the directives for what follows are the moves of the run with the race
reversed.

## Main definitions

* `Move.directive` — a move as a directive.
* `Recorded` — the levels of a schedule record a run.

## Main statements

* `keep_yields` — the directives for what is left between the two steps of a race.
* `reversal_tells` — the directives that reverse a race.
* `analyse_tells` — what the analysis of a run comes to.
-/

namespace Interleaving

/-- The workspace with other missing threads. -/
def Workspace.withMissing (w : Workspace) (missing : List ThreadId) : Workspace :=
  { w with analysis := { w.analysis with missing } }

theorem happensBefore_withMissing {w : Workspace} {missing : List ThreadId} {e : Event}
    {n : Step} :
    (w.withMissing missing).analysis.happensBefore e n = w.analysis.happensBefore e n := rfl

namespace Actors

open Interleaving.Action Machine

/-- The values that a move draws. -/
def Move.draws (x : Move) : List Draw := x.toss.toList.map Draw.ofBool

/-- The directive to make a move. -/
def Move.directive (x : Move) : Directive := ⟨x.thread, x.draws⟩

/-- The levels stand along a run and record what its moves draw. -/
structure Recorded (scripts : List Script) (G : List Level) (xs : List Move) : Prop
    extends Along scripts G xs where
  draws : ∀ {k : Nat} {l : Level} {x : Move}, G[k]? = some l → xs[k]? = some x → l.draws = x.draws

/-! ## New numbers -/

section Renumber

variable {a : Analysis} {t : Nat}

/-- The new number of a thread is the number of those before it that are not missing. -/
theorem renumber_eq_rank (nodup : a.missing.Nodup) (ht : t ∉ a.missing) :
    a.renumber t = rank a.missing t := by
  have hperm : ((List.range t).filter fun u => decide (u ∈ a.missing)).Perm
      (a.missing.filter fun u => decide (u ≤ t)) := by
    rw [List.perm_ext_iff_of_nodup (List.nodup_range.filter _) (nodup.filter _)]
    intro u
    simp only [List.mem_filter, List.mem_range, decide_eq_true_eq]
    constructor
    · rintro ⟨hlt, hmem⟩
      exact ⟨hmem, Nat.le_of_lt hlt⟩
    · rintro ⟨hmem, hle⟩
      refine ⟨Nat.lt_of_le_of_ne hle ?_, hmem⟩
      rintro rfl
      exact ht hmem
  have hcount : a.missing.countP (fun u => decide (u ≤ t)) =
      (List.range t).countP fun u => decide (u ∈ a.missing) := by
    rw [List.countP_eq_length_filter, List.countP_eq_length_filter, hperm.length_eq]
  have hsum : t = (List.range t).countP (fun u => decide (u ∈ a.missing)) + rank a.missing t := by
    have := List.length_eq_countP_add_countP (fun u => decide (u ∈ a.missing)) (l := List.range t)
    simpa [rank] using this
  change t - a.missing.countP (fun u => decide (u ≤ t)) = _
  rw [hcount]
  exact Nat.sub_eq_of_eq_add' hsum

/-- A thread that comes after all that are missing is added at the end. -/
theorem addMissing_eq_ok (h : ∀ u ∈ a.missing, u < t) :
    a.addMissing t = .ok { a with missing := a.missing ++ [t] } := by
  have hmem : t ∉ a.missing := fun hmem => Nat.lt_irrefl t (h t hmem)
  have htake : a.missing.takeWhile (fun u => decide (u < t)) = a.missing := by
    rw [List.takeWhile_eq_self_iff]
    simpa using h
  have hdrop : a.missing.dropWhile (fun u => decide (u < t)) = [] := by
    rw [List.dropWhile_eq_nil_iff]
    simpa using h
  rw [Analysis.addMissing, if_neg hmem]
  simp only [htake, hdrop]

end Renumber

section Lost

variable {scripts : List Script} {falls : Step → Bool} {xs : List Move} {k : Nat}

/-- The missing actors stand in the order of their numbers. -/
theorem pairwise_lost (ordinary : Ordinary scripts) (h : (load scripts).Executes xs) :
    ((load scripts).lost falls xs k).Pairwise (· < ·) := by
  induction k with
  | zero => exact .nil
  | succ k ih =>
    cases hx : xs[k]? with
    | none => simpa [lost, hx] using ih
    | some x =>
      cases hf : falls (k + 1) with
      | false => rwa [lost_succ_of_not_falls hf]
      | true =>
        rw [lost_succ_of_falls hx hf]
        refine List.pairwise_append.2 ⟨ih, ?_, fun u hu v hv => ?_⟩
        · cases x.instruction <;> simp [Instruction.created]
        · obtain ⟨_, -, rfl⟩ := List.mem_map.1 hv
          exact lt_of_mem_lost ordinary h u hu

end Lost

/-! ## The steps of a reversal -/

section Reversal

variable {scripts : List Script} {xs : List Move} {s : Schedule} {g : Pcg} {w : Workspace}
  {i k : Nat} {x y : Move} {missing : List Nat}

/-- The level of a step, as the analysis reads it. -/
theorem Recorded.level (ordinary : Ordinary scripts) (recorded : Recorded scripts s.levels xs)
    (hschedule : w.schedule = s) (hy : xs[k]? = some y) :
    ∃ l e, w.schedule.level (k + 1) = .ok l ∧ l.selection = .ok y.thread ∧
      l.selectedEntry = .ok e ∧ l.draws = y.draws ∧
      l.entries.length = ((load scripts).moves (xs.take k)).actors.length ∧
      (e.op = .create ↔ ∃ script, y.instruction = .create script) := by
  have hk := (List.getElem?_eq_some_iff.1 hy).1
  have hl : s.levels[k]? = some _ :=
    List.getElem?_eq_getElem (Nat.lt_of_lt_of_le hk recorded.length_le)
  have hselected := recorded.selected hl hy
  obtain ⟨-, hcan⟩ := recorded.executes.can_at hy
  obtain ⟨rest, hnext, -⟩ := hcan.next
  obtain ⟨e, he, hpending⟩ := recorded.toAlong.entry hl hnext
  refine ⟨_, e, ?_, Level.selection_eq_ok.2 hselected, Level.selectedEntry_eq_ok hselected he,
    recorded.draws hl hy, recorded.toAlong.length_entries hl, ?_⟩
  · rw [hschedule, Schedule.level_eq_ok]
    exact hl
  · have hpasses := recorded.executes.passes_at (orderly_load ordinary) rfl ordinary hy
    rw [show e.op = e.toPending.op from rfl, hpending]
    revert hpasses
    cases y.instruction <;> simp [pending, Instruction.ordinary]

/-- The directive for a step, under the new number of its actor. -/
theorem directive_eq_ok {l : Level} (hselection : l.selection = .ok y.thread)
    (hdraws : l.draws = y.draws) (sorted : missing.Pairwise (· < ·))
    (hpresent : y.thread ∉ missing) : (w.withMissing missing).analysis.directive l =
      .ok ({ y with thread := rank missing y.thread } : Move).directive := by
  have hnumber : (w.withMissing missing).analysis.renumber y.thread = rank missing y.thread :=
    renumber_eq_rank (a := (w.withMissing missing).analysis) (sorted.imp Nat.ne_of_lt) hpresent
  simp only [Analysis.directive, hselection, hdraws, bind, Except.bind, hnumber]
  rfl

/-- The directives for what is left of the steps after step `k`, when all falls away that happens
after step `i + 1`. -/
theorem keep_yields (joinless : Joinless scripts) (recorded : Recorded scripts s.levels xs)
    (h : RaceWalking scripts xs s g xs.length w) (hx : xs[i]? = some x) (n : Nat) (hik : i ≤ k)
    (hkn : k + n ≤ xs.length) :
    (Workspace.keep ⟨x.thread, i + 1⟩ (List.range' (k + 1) n)
        ((((load scripts).kept ((load scripts).isAfter xs (i + 1)) xs k).drop i).map
          Move.directive)).Yields
      (w.withMissing ((load scripts).lost ((load scripts).isAfter xs (i + 1)) xs k))
      ((((load scripts).kept ((load scripts).isAfter xs (i + 1)) xs (k + n)).drop i).map
        Move.directive)
      (w.withMissing ((load scripts).lost ((load scripts).isAfter xs (i + 1)) xs (k + n))) := by
  induction n generalizing k with
  | zero => exact yields_pure _ _
  | succ n ih =>
    have ordinary := joinless.ordinary
    have hk : k < xs.length := by omega
    have hy : xs[k]? = some xs[k] := List.getElem?_eq_getElem hk
    have ih := ih (k := k + 1) (by omega) (by omega)
    rw [show k + 1 + n = k + (n + 1) by omega] at ih
    obtain ⟨l, e, hlevel, hselection, hentry, hdraws, hlength, hcreate⟩ :=
      recorded.level ordinary h.schedule hy
    have hran : ((load scripts).steps s.levels.length xs).Ran x.thread (i + 1) :=
      ran_steps.2 ⟨x, hx, rfl⟩
    have hbefore := h.walked.happensBefore_iff hran (Nat.succ_pos k) hk
    rw [← isAfter_iff] at hbefore
    rw [List.range'_succ]
    refine (yields_get _).bind ((yields_lift hlevel _).bind ?_)
    cases hf : (load scripts).isAfter xs (i + 1) (k + 1) with
    | true =>
      have hafter : w.analysis.happensBefore ⟨x.thread, i + 1⟩ (k + 1) = true := hbefore.2 hf
      rw [happensBefore_withMissing, if_pos hafter]
      rw [kept_succ_of_falls hf, lost_succ_of_falls hy hf] at ih
      refine (yields_lift hentry _).bind ?_
      by_cases hop : e.op = .create
      · obtain ⟨script, hscript⟩ := hcreate.1 hop
        rw [hscript, Instruction.created, List.map_singleton, ← hlength] at ih
        rw [if_pos hop]
        have hlt : ∀ u ∈ (load scripts).lost ((load scripts).isAfter xs (i + 1)) xs k,
            u < l.entries.length := by
          rw [hlength]
          exact lt_of_mem_lost ordinary recorded.executes
        exact (yields_lift (addMissing_eq_ok hlt) _).bind ((yields_set _ _).bind ih)
      · have hcreated : xs[k].instruction.created = [] := by
          cases hi : xs[k].instruction <;> simp [Instruction.created, hi] at hcreate ⊢
          exact hop hcreate
        rw [hcreated, List.map_nil, List.append_nil] at ih
        rw [if_neg hop]
        exact ih
    | false =>
      have hafter : ¬ w.analysis.happensBefore ⟨x.thread, i + 1⟩ (k + 1) = true := by
        rw [hbefore, hf]
        simp
      rw [happensBefore_withMissing, if_neg hafter]
      have hdirective := directive_eq_ok (w := w) hselection hdraws
        (pairwise_lost ordinary recorded.executes)
        (alive_of_not_falls (isAfter_closed (i + 1)) hy hf).present
      refine (yields_lift hdirective _).bind ?_
      have hle := le_length_kept joinless recorded.executes hx hik (Nat.le_of_lt hk)
      rw [kept_succ_of_not_falls hy hf, lost_succ_of_not_falls hf,
        List.drop_append_of_le_length hle, List.map_append, List.map_singleton] at ih
      exact ih

/-- A race is reversed. The levels before it stay, and the directives for what follows are the moves
of the run with the race reversed. -/
theorem reversal_tells (joinless : Joinless scripts) (recorded : Recorded scripts s.levels xs)
    (h : RaceWalking scripts xs s g xs.length w) {race : Race}
    (hrace : (load scripts).HasRace xs race) :
    ∃ missing, (Workspace.reversal race).Tells w
      ((((load scripts).reversed xs race).drop race.earlier.position).map Move.directive)
      ((w.withMissing missing).modifySchedule (·.cut race.earlier.position)) [some race] := by
  have ordinary := joinless.ordinary
  obtain ⟨⟨i, j, x, y, inbox, rfl, hij, hx, hy, -⟩, hunordered⟩ := hrace
  have hj := (List.getElem?_eq_some_iff.1 hy).1
  have hfalls : (load scripts).isAfter xs (i + 1) (j + 1) = false := by
    rw [Bool.eq_false_iff, Ne, isAfter_iff]
    exact hunordered
  obtain ⟨l, -, hlevel, hselection, -, hdraws, -⟩ := recorded.level ordinary h.schedule hx
  obtain ⟨l', -, hlevel', hselection', -, hdraws', -⟩ := recorded.level ordinary h.schedule hy
  have hrank := rank_lost joinless recorded.executes hx (k := j)
  have hreversed := drop_reversed joinless recorded.executes hij.le hx hy hfalls
  have sorted : ((load scripts).lost ((load scripts).isAfter xs (i + 1)) xs j).Pairwise (· < ·) :=
    pairwise_lost ordinary recorded.executes
  -- nothing falls away before the race
  have hkeep := keep_yields joinless recorded h hx (j - i) le_rfl (by omega)
  obtain ⟨hlost, htake⟩ : (load scripts).lost ((load scripts).isAfter xs (i + 1)) xs i = [] ∧
      (load scripts).kept ((load scripts).isAfter xs (i + 1)) xs i = xs.take i :=
    kept_of_not_falls (by omega) fun k hk => isAfter_of_lt (Nat.lt_succ_of_le hk)
  have hself : w.withMissing [] = w := by
    rw [← h.missing]
    rfl
  rw [hlost, htake, List.drop_eq_nil_of_le (List.length_take_le i xs), List.map_nil, hself,
    show i + (j - i) = j by omega] at hkeep
  generalize hmissing : (load scripts).lost ((load scripts).isAfter xs (i + 1)) xs j = missing
    at hkeep sorted hrank hreversed
  have hlater : (w.withMissing missing).analysis.directive l' = .ok _ :=
    directive_eq_ok hselection' hdraws' sorted (by
      rw [← hmissing]
      exact (alive_of_not_falls (isAfter_closed (i + 1)) hy hfalls).present)
  have hearlier : (w.withMissing missing).analysis.directive l = .ok x.directive := by
    have hpresent : x.thread ∉ missing := fun hmem => Nat.lt_irrefl _
      (thread_lt_of_mem_lost joinless recorded.executes hx _ (hmissing ▸ hmem))
    have := directive_eq_ok (w := w) hselection hdraws sorted hpresent
    rwa [hrank] at this
  refine ⟨missing, ?_⟩
  have hselected : (w.schedule.level (i + 1) >>= fun l => l.selection) = .ok x.thread := by
    rw [hlevel]
    exact hselection
  refine quiet_get.bind_tells (yields_get _)
    ((quiet_lift _).bind_tells (yields_lift hselected _) (Tells.bind_quiet ⟨_, rfl, rfl⟩ ?_ ?_))
  · exact (Workspace.quiet_keep _ _ _).bind fun _ => quiet_get.bind fun _ =>
      (quiet_lift _).bind fun _ => (quiet_lift _).bind fun _ => (quiet_set _).bind fun _ =>
        quiet_pure _
  · rw [show (Race.mk (i + 1) (j + 1)).earlier.position = i from rfl, hreversed, List.map_append]
    have hrange : (j + 1) - (i + 1) = j - i := by omega
    simp only [hrange]
    refine hkeep.bind ((yields_get _).bind ((yields_lift ?_ _).bind ((yields_lift ?_ _).bind
      ((yields_set _ _).bind (yields_pure _ _)))))
    · change (w.schedule.level (j + 1) >>= fun l => _) = _
      rw [hlevel']
      exact hlater
    · change (w.schedule.level (i + 1) >>= fun l => _) = _
      rw [hlevel]
      exact hearlier

end Reversal

/-! ## The whole analysis -/

/-- What the analysis of a run leaves for the next one: levels to be replayed and directives for
what follows. Either a race of the run is picked, or the next run starts afresh. -/
inductive Planned (scripts : List Script) (G : List Level) (xs : List Move) :
    Option Race → List Level → List Directive → Prop
  | afresh : Planned scripts G xs none [] []
  | reversal {race : Race} (hasRace : (load scripts).HasRace xs race) :
    Planned scripts G xs (some race) (G.take race.earlier.position)
      ((((load scripts).reversed xs race).drop race.earlier.position).map Move.directive)

/-- The analysis of a run in random mode. -/
theorem analyse_tells {scripts : List Script} {xs : List Move} {w : Workspace} {g : Pcg}
    (joinless : Joinless scripts) (recorded : Recorded scripts w.schedule.levels xs)
    (hgenerator : w.generator = some g) (hsteps : w.steps = xs.length) :
    ∃ w' replay pick, Workspace.analyse.Tells w replay w' [pick] ∧ w'.generator.isSome ∧
      w'.schedule.randomized = w.schedule.randomized ∧
      Planned scripts w.schedule.levels xs pick w'.schedule.levels replay := by
  obtain ⟨v, hwalk, walking⟩ := race_walk_yields joinless recorded.toAlong hgenerator hsteps
  suffices h : ∃ w' replay pick, (Workspace.reverse g).Tells v replay w' [pick] ∧
      w'.generator.isSome ∧ w'.schedule.randomized = w.schedule.randomized ∧
      Planned scripts w.schedule.levels xs pick w'.schedule.levels replay by
    obtain ⟨w', replay, pick, htells, hrest⟩ := h
    refine ⟨w', replay, pick, ?_, hrest⟩
    refine Workspace.quiet_walk.bind_tells hwalk (quiet_get.bind_tells (yields_get _) ?_)
    rw [walking.generator]
    exact htells
  cases hraces : v.analysis.races with
  | nil =>
    refine ⟨v.modifySchedule (·.clear), [], none, ?_, ?_, ?_, .afresh⟩
    · refine quiet_get.bind_tells (yields_get _) ?_
      rw [hraces, List.isEmpty_nil, if_pos rfl]
      exact Tells.bind_quiet ⟨_, rfl, rfl⟩ ((quiet_set _).bind fun _ => quiet_pure _)
        ((yields_set _ _).bind (yields_pure _ _))
    · simp [Workspace.modifySchedule, walking.generator]
    · simp [Workspace.modifySchedule, Schedule.clear, walking.schedule]
  | cons first rest =>
    have hpos : 0 < v.analysis.races.length := by simp [hraces]
    obtain ⟨n, g', hbelow, hlt⟩ := g.exists_below 64 hpos
    have hrace := List.getElem?_eq_getElem hlt
    have hhas := walking.races _ (List.mem_of_getElem? hrace)
    obtain ⟨missing, htells⟩ := reversal_tells (g := g') (w := { v with generator := some g' })
      joinless recorded ⟨walking.schedule, rfl, walking.walked, walking.firstSend, walking.races,
        walking.missing⟩ hhas
    have hreverse {replay : List Directive} {t : Workspace} {picks : List (Option Race)}
        (h : (Workspace.reversal v.analysis.races[n]).Tells { v with generator := some g' } replay t
          picks) : (Workspace.reverse g).Tells v replay t picks := by
      refine quiet_get.bind_tells (yields_get _) ?_
      rw [if_neg (by simp [hraces]), hbelow]
      refine (quiet_set _).bind_tells (yields_set _ _) ?_
      rw [hrace]
      exact h
    refine ⟨_, _, _, hreverse htells, rfl, ?_, ?_⟩
    · simp [Workspace.modifySchedule, Workspace.withMissing, Schedule.cut, walking.schedule]
    · simp only [Workspace.modifySchedule, Workspace.withMissing, Schedule.cut, walking.schedule]
      exact .reversal hhas

end Actors

end Interleaving
