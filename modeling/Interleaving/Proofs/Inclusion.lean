import Interleaving.Proofs.ActorIterations
import Interleaving.Proofs.Exhaustive
import Interleaving.Proofs.Shuffles

/-!
# Reduced explorations among all executions

However the schedules of actors are reduced, and wherever an exploration is stopped, an execution
that comes to its end is one of those that the exploration without reduction and sleep sets makes.
The converse does not hold: reduction together with sleep sets loses outcomes.

## Main statements

* `Setting.Ends.ending_eq` — a complete iteration ends as the path of the client does.
* `explore_subset_unreduced` — reduction, sleep sets and limits add no execution that ends.
-/

namespace Interleaving

/-- An iteration that neither sleep nor a limit stopped ends with all finished if the client is
done, and otherwise in a deadlock. -/
theorem Setting.Ends.ending_eq {σ : Type} {S : Setting σ} {H G : List Level} {ending : Ending}
    (h : S.Ends H G ending) (hended : ending = .allFinished ∨ ending = .deadlock) :
    ending = if S.request (course H) = .finish then .allFinished else .deadlock := by
  cases h with
  | finished _ request => simp [request]
  | deadlock _ request => simp [request]
  | allAsleep => simp at hended
  | cut => simp at hended

namespace Actors

variable {scripts : List Script} {sleepSets reduction : Bool} {limit : Option Nat}

/-- What the actors can be told does not depend on how they are explored. -/
theorem complete_unreduced {p : List Answer}
    (h : ((setting scripts sleepSets reduction).limited limit).Complete p) :
    (setting scripts false false).Complete p := by
  refine ⟨?_, h.2⟩
  have follows : (setting scripts sleepSets reduction).Follows p := h.1.of_limited
  clear h
  induction follows with
  | nil => exact .nil
  | snoc _ ha ih => exact ih.snoc ha

/-- An exploration of actors in depth-first mode, whatever its reduction, its sleep sets and its
limits are: each of its executions that ends with all finished or in a deadlock is made by the
exploration without reduction, sleep sets and limits as well. -/
theorem explore_subset_unreduced (ordinary : Ordinary scripts) {c c' : Config}
    (mode : c.mode = .depthFirst) (mode' : c'.mode = .depthFirst)
    (reduction' : c'.reduction = false) (sleepSets' : c'.sleepSets = false)
    (stepLimit' : c'.stepLimit = none) (maxIterations' : c'.maxIterations = none) :
    ∃ enough, ∀ fuel fuel', enough < fuel' →
      ∀ execution ∈ ((Campaign.mk [scripts] []).explore c fuel).state,
        execution.ending = some .allFinished ∨ execution.ending = some .deadlock →
        execution ∈ ((Campaign.mk [scripts] []).explore c' fuel').state := by
  let S := (setting scripts c.sleepSets c.reduction).limited c.stepLimit
  let U := setting scripts false false
  have lawful : U.exhaustive.Lawful U :=
    Setting.exhaustive_lawful ordinary.tame (fun _ => rfl) rfl rfl rfl
  obtain ⟨all, stats, hall, -, ran', done⟩ := lawful.explore (Campaign.mk [scripts] []).machine
    Machine.budget ordinary.tame mode' reduction' sleepSets' stepLimit' maxIterations'
    (machine_single scripts) (lt_budget scripts)
  refine ⟨(U.pathsUpTo (2 * Script.work scripts.flatten)).length,
    fun fuel fuel' hfuel execution he hended => ?_⟩
  obtain ⟨notices, hexplore⟩ := hall fuel' hfuel
  have hstate' : ((Campaign.mk [scripts] []).explore c' fuel').state =
      (all.map U.execution).toArray := congrArg Outcome.state hexplore
  obtain ⟨rs, ran, -, hstate, -⟩ := (Goal.nothing_robust S).explore
    (Campaign.mk [scripts] []).machine Machine.budget (ordinary.tame.limited c.stepLimit)
    (fun G => markable_of_stands ordinary) mode rfl rfl rfl (machine_single scripts)
    (lt_budget scripts) fuel
  change ((Campaign.mk [scripts] []).explore c fuel).state = _ at hstate
  rw [hstate] at he
  rw [hstate']
  obtain ⟨r, hr, rfl⟩ : ∃ r ∈ rs, S.execution r = execution := by simpa using he
  obtain ⟨H, G, hG, hends, hcourse⟩ := ran r hr
  have hended : r.2 = .allFinished ∨ r.2 = .deadlock := by simpa [Setting.execution] using hended
  have hcomplete : S.Complete r.1 := by
    rw [hcourse]
    refine hends.complete_of_ne hG (fun _ => rfl) ?_ ?_ <;> rcases hended with h | h <;> simp [h]
  -- the exploration without reduction goes the same path
  obtain ⟨r', hr', hpath⟩ : ∃ r' ∈ all, r'.1 = r.1 := by
    simpa using done r.1 (complete_unreduced hcomplete) List.nil_prefix
  obtain ⟨H', G', -, hends', hcourse'⟩ := ran' r' hr'
  have hending : r'.2 = r.2 := by
    rw [hends'.eq_of_no_sleep rfl rfl, hends.ending_eq hended, ← hcourse', ← hcourse, hpath]
    rfl
  obtain rfl : r' = r := Prod.ext hpath hending
  have hexecution : S.execution = U.execution := rfl
  rw [hexecution, List.mem_toArray]
  exact List.mem_map_of_mem hr'

/-- Two inboxes that two of three actors each send to, and a message that one actor waits for. -/
def contested : List Script := [[.send 1, .send 2], [.send 2, .send 2], [.receive 2, .send 1]]

/-- The exploration with reduction and sleep sets comes to its end, but misses an outcome. To
reverse the last race of its last iteration it marks a thread that is asleep. That has no effect. -/
example :
    (((Campaign.mk [contested] []).explore {} 5).result.toOption.join.isSome ∧
      ∀ execution ∈ ((Campaign.mk [contested] []).explore {} 5).state.toList,
        ¬ (execution.state.arrivals 1 = [2, 0] ∧ execution.state.arrivals 2 = [0, 1])) ∧
    ∃ execution ∈ ((Campaign.mk [contested] []).explore
        { reduction := false, sleepSets := false } 100).state.toList,
      execution.state.arrivals 1 = [2, 0] ∧ execution.state.arrivals 2 = [0, 1] := by
  decide +kernel

end Actors

end Interleaving
