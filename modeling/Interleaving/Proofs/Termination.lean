import Interleaving.Proofs.Attempts
import Interleaving.Proofs.Exhaustive

/-!
# Explorations come to an end

In depth-first mode no iteration goes a path that another one went, and a runtime that makes a
bounded number of requests has a finite number of paths. So its exploration ends after finitely many
iterations, whether or not an analysis fails, and whatever is reduced.

## Main definitions

* `Runtime.under` — a runtime, explored under given options.

## Main statements

* `Exploration.run_add` — a run of iterations that ended needs no more fuel.
* `Runtime.explore_ends_unrepeated` — the exploration ends, and no path is gone twice.
-/

namespace Interleaving

open Interleaving.Action

/-! ## Fuel -/

namespace Exploration

variable {ω : Type} {c : Config} {program : Action (Scheduler × ω) Ending}

/-- Iterations that came to an end do not use up more fuel. -/
theorem run_succ {fuel : Nat} : ∀ {s : Scheduler × ω}, (run c program fuel s).result ≠ .ok false →
    run c program (fuel + 1) s = run c program fuel s := by
  induction fuel with
  | zero =>
    intro s h
    exact absurd rfl h
  | succ fuel ih =>
    intro s h
    have hstep (fuel : Nat) : run c program (fuel + 1) s = match iterate c program s with
        | ⟨.ok true, t, before⟩ => ⟨(run c program fuel t).result, (run c program fuel t).state,
            before ++ (run c program fuel t).notices⟩
        | ⟨.ok false, t, before⟩ => ⟨.ok true, t, before⟩
        | ⟨.error fault, t, before⟩ => ⟨.error fault, t, before⟩ := by
      rw [run, bind_apply]
      rcases iterate c program s with ⟨fault | more, t, before⟩
      · rfl
      · cases more <;> simp
    rw [hstep] at h ⊢
    rw [hstep]
    rcases hiterate : iterate c program s with ⟨fault | more, t, before⟩
    · rfl
    · cases more with
      | false => rfl
      | true =>
        rw [hiterate] at h
        simp only [ih h]

theorem run_add {fuel : Nat} {s : Scheduler × ω} (h : (run c program fuel s).result ≠ .ok false)
    (more : Nat) : run c program (fuel + more) s = run c program fuel s := by
  induction more with
  | zero => rfl
  | succ more ih => rw [← ih, ← Nat.add_assoc, run_succ (by rwa [ih])]

theorem ended_of_yields_or_fails {fuel : Nat} {s t : Scheduler × ω}
    (h : (run c program fuel).Yields s true t ∨ (run c program fuel).Fails s t) :
    (run c program fuel s).state = t ∧ (run c program fuel s).result ≠ .ok false := by
  rcases h with h | ⟨fault, notices, h⟩
  · exact ⟨h.state, by simp [h.result]⟩
  · simp [h]

end Exploration

/-- What an exploration comes to is what its iterations come to. -/
theorem explore_eq {ω : Type} {c : Config} {program : Action (Scheduler × ω) Ending} {fuel : Nat}
    {w : ω} : (explore c program fuel w).state =
        (Exploration.run c program fuel (Scheduler.new c, w)).state.2 ∧
      ((explore c program fuel w).result = .ok none ↔
        (Exploration.run c program fuel (Scheduler.new c, w)).result = .ok false) := by
  rcases h : Exploration.run c program fuel (Scheduler.new c, w) with ⟨fault | ended, s, notices⟩
  · simp [explore, bind_apply, h]
  · cases ended <;> simp [explore, bind_apply, h, Except.map]

theorem explore_add {ω : Type} {c : Config} {program : Action (Scheduler × ω) Ending} {fuel : Nat}
    {w : ω} (h : (Exploration.run c program fuel (Scheduler.new c, w)).result ≠ .ok false)
    (more : Nat) : explore c program (fuel + more) w = explore c program fuel w := by
  have hrun := Exploration.run_add h more
  simp only [explore, bind_apply, get_apply, notify_apply, hrun]

/-! ## Runtimes -/

namespace Goal

variable {σ : Type} {S : Setting σ}

/-- Without reduction there is nothing to analyse, so that nothing needs to be achieved. -/
theorem nothing_lawful (hreduction : S.reduction = false) : nothing.Lawful S where
  toKept := (nothing_robust S).toKept
  analyse := fun hgov _ _ _ =>
    ⟨_, _, hgov.analyse_none hreduction _, hgov, .refl _, fun _ _ _ _ => trivial⟩

end Goal

namespace Runtime

/-- The runtime, explored under the given options. With reduction a race may be reversed by a yield
that is not enabled, so the paths on which such a yield runs are among those of the runtime. -/
def under (R : Runtime) (c : Config) : Setting (List Answer) where
  client := R.client
  start := []
  may := if c.reduction then Pending.runnable else Pending.enabled
  may_of_enabled := by
    intro p hp
    split
    · simp [Pending.runnable, hp]
    · exact hp
  runnable_of_may := by
    intro p hp
    split at hp
    · exact hp
    · simp [Pending.runnable, hp]
  sleepSets := c.sleepSets
  reduction := c.reduction
  stepLimit := c.stepLimit

theorem after_under (R : Runtime) (c : Config) (path : List Answer) :
    (R.under c).after path = path := R.after_setting path

variable {R : Runtime} {c : Config} {n budget : Nat}

/-- With reduction a race may be reversed by any thread that is runnable. -/
theorem markable (tame : (R.under c).Tame n) (hreduction : c.reduction = true) {G : List Level}
    (hG : (R.under c).Stands G) : Markable (R.under c) G where
  dense := by
    intro l hl
    obtain ⟨below, above, rfl⟩ := List.append_of_mem hl
    exact (hG below l above rfl).dense tame
  may := by
    intro l _ e _ hrunnable
    simpa [under, hreduction] using hrunnable

/-- The iterations that are made with fuel for all paths. They go different paths, and they come to
an end or an analysis fails. -/
theorem exists_runs (tame : (R.under c).Tame n) (mode : c.mode = .depthFirst)
    (maxIterations : c.maxIterations = none) (hbudget : n < budget) {fuel : Nat}
    (hfuel : ((R.under c).pathsUpTo n).length < fuel) :
    ∃ (rs : List Record) (s : Scheduler), (∀ r ∈ rs, (R.under c).Ran r) ∧
      (rs.map Prod.fst).Nodup ∧
      ((Exploration.run c (R.client.program (fun _ => []) fun _ => budget) fuel).Yields
          (Scheduler.new c, #[]) true (s, (rs.map (R.under c).execution).toArray) ∨
        (Exploration.run c (R.client.program (fun _ => []) fun _ => budget) fuel).Fails
          (Scheduler.new c, #[]) (s, (rs.map (R.under c).execution).toArray)) := by
  have hgoverns : (R.under c).Governs (Scheduler.new c) := Setting.governs_new mode rfl rfl rfl
  have hready : Goal.nothing.Ready (R.under c) [] [] :=
    ⟨⟨upward_nil _, upward_nil _, upward_nil _, by simp⟩, by simp⟩
  let budgets : List Answer → Nat := fun _ => budget
  have hbudgets : n < budgets (R.under c).start := hbudget
  cases hreduction : c.reduction with
  | false =>
    -- no schedule is analysed, so that no analysis fails
    obtain ⟨s, rs, hrun, nodup, ran, -⟩ := (Goal.nothing_lawful hreduction).run tame maxIterations
      (fun _ => rfl) hbudgets ((R.under c).pathsUpTo n).length hgoverns hready (by simp) (by simp)
      (by simp)
    exact ⟨rs, s, ran, nodup, .inl (hrun fuel hfuel)⟩
  | true =>
    obtain ⟨s, rs, ran, pairwise, hrun⟩ := (Goal.nothing_robust (R.under c)).run tame
      (fun G => markable tame hreduction) (fun _ => rfl) hbudgets fuel hgoverns hready (by simp)
      .nil
    have nodup : (rs.map Prod.fst).Nodup := by
      rw [List.Nodup, List.pairwise_map]
      exact pairwise.imp Goal.Succeeds.ne
    refine ⟨rs, s, ran, nodup, hrun.imp ?_ And.right⟩
    rintro ⟨ended, hyields, hended⟩
    cases ended with
    | true => exact hyields
    | false =>
      -- all the fuel would have been used up by different paths
      have := Goal.length_le_paths tame nodup ran
      have := hended rfl
      simp at this
      omega

/-- The exploration of a tame runtime in depth-first mode ends after finitely many iterations,
whatever is reduced: from some fuel on its outcome is the same, and it is not cut off. No two of its
iterations go the same path. The bound on the paths is one on what enabled threads do; with
reduction it also covers the paths that run a yield that is not enabled, since the exploration may
make such runs to reverse a race. -/
theorem explore_ends_unrepeated (R : Runtime) (c : Config) {n budget : Nat}
    (tame : (R.under c).Tame n) (mode : c.mode = .depthFirst)
    (maxIterations : c.maxIterations = none) (hbudget : n < budget) :
    ∃ (outcome : Outcome (Array (Execution (List Answer))) (Option Stats))
      (runs : List (List Answer × Ending)),
      (∀ fuel, ((R.under c).pathsUpTo n).length < fuel →
        explore c (R.client.program (fun _ => []) fun _ => budget) fuel #[] = outcome) ∧
      outcome.result ≠ .ok none ∧
      outcome.state = (runs.map fun r => ⟨r.1, some r.2⟩).toArray ∧
      (runs.map Prod.fst).Nodup ∧ ∀ r ∈ runs, (R.under c).Follows r.1 := by
  obtain ⟨rs, s, ran, nodup, hrun⟩ :=
    exists_runs tame mode maxIterations hbudget (Nat.lt_succ_self _)
  have hexecution : (R.under c).execution = fun r => ⟨r.1, some r.2⟩ := by
    funext r
    rw [Setting.execution, after_under]
  obtain ⟨hstate, hresult⟩ := Exploration.ended_of_yields_or_fails hrun
  refine ⟨_, rs, fun fuel hfuel => ?_, fun h => hresult (explore_eq.2.1 h), ?_, nodup,
    fun r hr => (ran r hr).follows⟩
  · obtain ⟨more, rfl⟩ := Nat.exists_eq_add_of_lt hfuel
    rw [Nat.add_right_comm]
    exact explore_add hresult more
  · rw [explore_eq.1, hstate, hexecution]

/-- All threads that the runtime shows are enabled, so that the options do not matter. -/
theorem follows_coin {p : List Answer} (h : (coin.under {}).Follows p) :
    coin.setting.Follows p := by
  have same : ∀ p ∈ [[], [.run 0 1], [.run 1 1], [.run 0 1, .bool false], [.run 0 1, .bool true]],
      (coin.under {}).offers p = coin.setting.offers p := by
    decide
  induction h with
  | nil => exact .nil
  | snoc _ ha ih => exact ih.snoc (same _ (mem_of_follows_coin ih) ▸ ha)

/-- With reduction and sleep sets, the exploration of two threads ends. -/
theorem explore_coin_ends_unrepeated :
    ∃ (outcome : Outcome (Array (Execution (List Answer))) (Option Stats))
      (runs : List (List Answer × Ending)),
      (∀ fuel, ((coin.under {}).pathsUpTo 2).length < fuel →
        explore {} (coin.client.program (fun _ => []) fun _ => 3) fuel #[] = outcome) ∧
      outcome.result ≠ .ok none ∧
      outcome.state = (runs.map fun r => ⟨r.1, some r.2⟩).toArray ∧
      (runs.map Prod.fst).Nodup ∧ ∀ r ∈ runs, (coin.under {}).Follows r.1 :=
  explore_ends_unrepeated coin {}
    { dense := fun hp hr => tame_coin.dense (follows_coin hp) hr
      drawn := fun hp hr => tame_coin.drawn (follows_coin hp) hr
      plain := fun hp => tame_coin.plain (follows_coin hp)
      bounded := fun hp => tame_coin.bounded (follows_coin hp) }
    rfl rfl (by decide)

end Runtime

end Interleaving
