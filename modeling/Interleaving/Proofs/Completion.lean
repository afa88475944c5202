import Interleaving.Proofs.ActorIterations

/-!
# Explorations that end well

The analysis of a schedule fails if it finds no candidate for the reversal of a race. For actors
whose scripts end by stopping there always is one: whatever an actor had to wait for left a step
that its next step is ordered after, and the first step that the later send of the race is ordered
after, but not the earlier send, had nothing to wait for. All other errors of the scheduler need a
client that behaves differently from one iteration to the next.

## Main statements

* `Trace.Races.exists_reverses` — there is a candidate for every race.
* `walkable_of_along` — the levels along a run can be walked over.
* `explore_ends_well` — no exploration in depth-first mode fails.
-/

namespace Interleaving

/-! ## A candidate for every race -/

section Trace

variable {tr : Trace} {a b : Nat} {p q : Pending}

/-- There is a candidate for a race if a thread that cannot run at the earlier step is ordered after
a later one by its next step. -/
theorem Trace.Races.exists_reverses (h : tr.Races a b p q) (Runs : ThreadId → Prop)
    (woken : ∀ k r, a < k → k ≤ b → tr.stepAt k = some r → tr.FirstAfter a r.thread k →
      r.thread ≠ p.thread →
      Runs r.thread ∨ r.op ≠ .send ∧ ∃ j, a ≤ j ∧ j < k ∧ tr.Linked j k) :
    Runs q.thread ∨ ∃ t k, tr.Reverses (fun t => Runs t ∧ t ≠ p.thread ∧ t ≠ q.thread) a b t k := by
  classical
  -- the steps after `a` through which the later step comes about
  let Leads (k : Nat) : Prop := a < k ∧ k ≤ b ∧
    (k = b ∨ ∃ i < b, tr.Ran q.thread i ∧ tr.Reaches k i)
  have hb : Leads b := ⟨h.lt, le_rfl, .inl rfl⟩
  have hex : ∃ k, Leads k := ⟨b, hb⟩
  obtain ⟨k, ⟨hak, hkb, hlead⟩, hmin⟩ : ∃ k, Leads k ∧ ∀ j < k, ¬ Leads j :=
    ⟨Nat.find hex, Nat.find_spec hex, fun j hj => Nat.find_min hex hj⟩
  have hlength := Trace.stepAt_le h.later
  obtain ⟨r, hr⟩ := tr.exists_stepAt (k := k) (by omega) (by omega)
  have hunreached : k ≠ b → ¬ tr.Reaches a k := by
    intro hne hreach
    obtain ⟨i, hi, hran, hki⟩ := hlead.resolve_left hne
    exact h.unordered i hi hran (hreach.trans hki)
  -- what such a step is ordered after comes about in the same way
  have hback : ∀ j, a < j → j < k → k ≠ b → ¬ tr.Reaches j k := by
    intro j haj hjk hne hreach
    obtain ⟨i, hi, hran, hki⟩ := hlead.resolve_left hne
    exact hmin j hjk ⟨haj, by omega, .inr ⟨i, hi, hran, hreach.trans hki⟩⟩
  have hfirst : tr.FirstAfter a r.thread k := by
    refine ⟨hak, ⟨r, hr, rfl⟩, fun j haj hjk hran => ?_⟩
    by_cases hne : k = b
    · subst hne
      obtain rfl : q = r := by simpa [h.later] using hr
      exact hmin j hjk ⟨haj, by omega, .inr ⟨j, hjk, hran, .refl⟩⟩
    · exact hback j haj hjk hne (.single ⟨hjk, .inl ⟨r.thread, hran, r, hr, rfl⟩⟩)
  by_cases hne : k = b
  · subst hne
    obtain rfl : q = r := by simpa [h.later] using hr
    have hthread : q.thread ≠ p.thread := by
      intro heq
      exact h.unordered a h.lt ⟨p, h.earlier, heq.symm⟩ .refl
    rcases woken k q hak le_rfl hr hfirst hthread with hruns | ⟨hop, -⟩
    · exact .inl hruns
    · exact absurd h.sends.2 hop
  · have hthread : r.thread ≠ p.thread := by
      intro heq
      exact hunreached hne (.single ⟨hak, .inl ⟨r.thread, ⟨p, h.earlier, heq.symm⟩, r, hr, rfl⟩⟩)
    have hruns : Runs r.thread := by
      rcases woken k r hak hkb hr hfirst hthread with hruns | ⟨-, j, haj, hjk, hl⟩
      · exact hruns
      · rcases Nat.eq_or_lt_of_le haj with rfl | haj
        · exact absurd (.single hl) (hunreached hne)
        · exact absurd (.single hl) (hback j haj hjk hne)
    by_cases hq : r.thread = q.thread
    · exact .inl (hq ▸ hruns)
    · refine .inr ⟨r.thread, k, ⟨hruns, hthread, hq⟩, hfirst, by omega, hunreached hne, ?_⟩
      exact fun c i _ hfa hik => hback i hfa.1 hik hne

end Trace

namespace Actors

open Machine

/-! ## Walks over the levels of a run -/

namespace Machine

variable {levels : Nat} {xs : List Move} {x : Move}

/-- The step that a move makes where the run is split. -/
theorem stepAt_steps_split (m : Machine) (levels : Nat) (pre rest : List Move) (x : Move) :
    (m.steps levels (pre ++ x :: rest)).stepAt (pre.length + 1) =
      some ((m.moves pre).shown levels (pre.length + 1) x) := by
  rw [stepAt_steps]
  simp

/-- A run up to a step, and on to a later one. -/
theorem exists_split_at {k n : Nat} (hkn : k ≤ n) (hx : xs[n]? = some x) :
    ∃ pre u rest, xs = pre ++ u ++ x :: rest ∧ k = pre.length ∧ n = (pre ++ u).length := by
  obtain ⟨hn, rfl⟩ := List.getElem?_eq_some_iff.1 hx
  have hpre : (xs.take n).take k = xs.take k := by rw [List.take_take, Nat.min_eq_left hkn]
  refine ⟨xs.take k, (xs.take n).drop k, xs.drop (n + 1), ?_, ?_, ?_⟩
  · rw [← hpre, List.take_append_drop, List.getElem_cons_drop, List.take_append_drop]
  · rw [List.length_take, Nat.min_eq_left (hkn.trans hn.le)]
  · rw [← hpre, List.take_append_drop, List.length_take, Nat.min_eq_left hn.le]

/-- An actor that makes step `n + 1` and none of the steps `k + 1` to `n` could run at level
`k + 1`, or one of those steps is linked to step `n + 1`. -/
theorem shows_or_linked {scripts : List Script} (ordinary : Ordinary scripts)
    (closed : Closed scripts) (h : (load scripts).Executes xs) (hlevels : xs.length ≤ levels)
    {k n : Nat} (hkn : k ≤ n) (hx : xs[n]? = some x)
    (hfirst : ∀ i y, k ≤ i → i < n → xs[i]? = some y → y.thread ≠ x.thread) :
    ((load scripts).moves (xs.take k)).Shows x ∨
      (((load scripts).moves (xs.take n)).shown levels (n + 1) x).op ≠ .send ∧
      ∃ j, k + 1 ≤ j ∧ j < n + 1 ∧ ((load scripts).steps levels xs).Linked j (n + 1) := by
  have orderly := orderly_load ordinary
  obtain ⟨pre, u, rest, rfl, rfl, rfl⟩ := exists_split_at hkn hx
  obtain ⟨hpreu, hcan, -⟩ := executes_append.1 h
  obtain ⟨hpre, hu⟩ := executes_append.1 hpreu
  have hstep := stepAt_steps_split (load scripts) levels (pre ++ u) rest x
  have hothers : ∀ y ∈ u, y.thread ≠ x.thread := by
    intro y hy
    obtain ⟨i, hi⟩ := List.mem_iff_getElem?.1 hy
    have hlt := (List.getElem?_eq_some_iff.1 hi).1
    refine hfirst (pre.length + i) y (Nat.le_add_right _ _) ?_ ?_
    · rw [List.length_append]
      omega
    · rw [List.append_assoc, List.getElem?_append_right (Nat.le_add_right _ _),
        Nat.add_sub_cancel_left, List.getElem?_append_left hlt, hi]
  -- a move in between, as a step
  have hbetween {u₁ u₂ : List Move} {y : Move} (hsplit : u = u₁ ++ y :: u₂) :
      pre.length + u₁.length < (pre ++ u).length ∧
        ((load scripts).steps levels (pre ++ u ++ x :: rest)).stepAt (pre.length + u₁.length + 1) =
          some (((load scripts).moves (pre ++ u₁)).shown levels (pre.length + u₁.length + 1)
            y) := by
    have hstep' := stepAt_steps_split (load scripts) levels (pre ++ u₁) (u₂ ++ x :: rest) y
    rw [List.length_append] at hstep'
    subst hsplit
    refine ⟨by simp, ?_⟩
    simpa using hstep'
  rw [List.take_left, List.append_assoc, List.take_left, ← List.append_assoc]
  rw [moves_append] at hcan
  rcases shows_or_woken hu (hpre.orderly orderly) (hpre.closing orderly (closing_load closed)) hcan
    hothers with hshows | hcreated | hjoined | hreceived
  · exact .inl hshows
  · obtain ⟨u₁, y, u₂, script, hsplit, hi, hy, hactors⟩ := hcreated
    obtain ⟨hlt, hstep'⟩ := hbetween hsplit
    refine .inr ⟨by simp [shown, hi, pending], pre.length + u₁.length + 1, by omega, by omega,
      by omega, .inr (.inr (.inl ⟨x.thread, ⟨_, hstep', ?_, ?_⟩, _, hstep, ?_, ?_⟩))⟩
    · simp [shown, hy, pending, Operation.isLifecycle]
    · have hnew : pre.length + u₁.length + 1 < levels := by
        rw [List.length_append, List.length_cons] at hlevels
        omega
      rw [moves_append]
      simp only [shown, hy, pending, hactors, true_and]
      rw [if_pos hnew]
    · simp [shown, hi, pending, Operation.isLifecycle]
    · simp [shown, hi, pending]
  · obtain ⟨u₁, y, u₂, actor, hsplit, hi, hy, hlast⟩ := hjoined
    obtain ⟨hlt, hstep'⟩ := hbetween hsplit
    refine .inr ⟨by simp [shown, hi, pending], pre.length + u₁.length + 1, by omega, by omega,
      by omega, .inr (.inr (.inl ⟨actor, ⟨_, hstep', ?_, ?_⟩, _, hstep, ?_, ?_⟩))⟩
    · rcases hlast with hlast | hlast <;> simp [shown, hlast, pending, Operation.isLifecycle]
    · rcases hlast with hlast | hlast <;> simp [shown, hlast, pending, hy]
    · simp [shown, hi, pending, Operation.isLifecycle]
    · simp [shown, hi, pending]
  · obtain ⟨inbox, message, hi, hfront, hlt, hle⟩ := hreceived
    have horder : ((load scripts).moves pre).order.length = pre.length := by
      rw [length_order_moves]
      simp [load]
    rw [horder] at hlt hle
    rw [← moves_append] at hfront
    rw [← List.length_append] at hle
    have hsent : message.step < (pre ++ u).length + 1 := Nat.lt_succ_of_le hle
    refine .inr ⟨by simp [shown, hi, pending], message.step, hlt, hsent, hsent,
      .inr (.inr (.inr ⟨_, hstep, ?_, ?_, ?_, by omega⟩))⟩
    · simp [shown, hi, pending]
    · simp [shown, hi, pending]
    · simp [shown, hi, pending, hfront]

end Machine

section Along

variable {scripts : List Script} {G : List Level} {xs : List Move}

/-- The levels along a run of actors that end by stopping can be walked over. -/
theorem walkable_of_along (ordinary : Ordinary scripts) (closed : Closed scripts)
    (h : Along scripts G xs) {S : Setting Machine} (markable : Markable S G) :
    Walkable S G ((load scripts).steps G.length xs) := by
  refine ⟨h.performs, h.calm ordinary, markable.dense, markable.may, fun a b p q hrace l hl => ?_⟩
  let Runs (t : ThreadId) : Prop := ∃ e, l.entries[t]? = some e ∧ e.runnable
  have hbystander : (fun t => Runs t ∧ t ≠ p.thread ∧ t ≠ q.thread) =
      Bystander l.entries p.thread q.thread := by
    funext t
    simp only [Runs, Bystander, eq_iff_iff]
    grind
  rw [← hbystander]
  obtain ⟨k, y, rfl, hy, rfl⟩ := exists_of_stepAt_steps hrace.earlier
  refine hrace.exists_reverses Runs fun j r hkj _ hr hfirst hne => ?_
  obtain ⟨n, x, rfl, hx, rfl⟩ := exists_of_stepAt_steps hr
  simp only [thread_shown] at hfirst hne ⊢
  refine (shows_or_linked ordinary closed h.executes h.length_le (k := k) (by omega) hx ?_).imp_left
    ?_
  · intro i z hki hin hz heq
    rcases Nat.eq_or_lt_of_le hki with rfl | hlt
    · obtain rfl : z = y := by simpa [hz] using hy
      exact hne heq.symm
    · exact hfirst.2.2 (i + 1) (by omega) (by omega) (ran_steps.2 ⟨z, hz, heq⟩)
  · rintro ⟨rest, hnext, henabled⟩
    obtain ⟨e, he, hpending⟩ := h.entry (by simpa using hl) hnext
    exact ⟨e, he, by simp [Pending.runnable, hpending, henabled]⟩

end Along

/-! ## Whole explorations -/

section Explore

variable {scripts : List Script} {sleepSets reduction : Bool} {limit : Option Nat}

/-- No analysis of an iteration fails. -/
theorem not_stuck (ordinary : Ordinary scripts) (closed : Closed scripts) :
    ¬ ((setting scripts sleepSets reduction).limited limit).Stuck := by
  rintro ⟨s, H, G, ending, t, hs, hG, hends, hfails⟩
  have hyields : ∃ t', Scheduler.analyse.Yields (s.on G G.length) () t' := by
    cases hreduction : reduction with
    | false => exact ⟨_, hs.analyse_none hreduction G⟩
    | true =>
      obtain ⟨xs, along, hlength⟩ := exists_along ordinary hG hends
      obtain ⟨s', G', hyields, -⟩ := hs.analyse_yields hreduction
        (walkable_of_along ordinary closed along (markable_of_stands ordinary hG))
        fun w hw => by rw [hends.steps_eq hw, length_steps, hlength]
      exact ⟨_, hyields⟩
  obtain ⟨t', notices, hyields⟩ := hyields
  obtain ⟨fault, notices', hfails⟩ := hfails
  simp [hyields] at hfails

/-- No exploration in depth-first mode fails for actors whose scripts are empty or end by stopping.
With reduction or without, with sleep sets or without, and with any limits, it comes to an end. -/
theorem explore_ends_well (ordinary : Ordinary scripts) (closed : Closed scripts) {c : Config}
    (mode : c.mode = .depthFirst) :
    (∀ fuel, ∃ stats, ((Campaign.mk [scripts] []).explore c fuel).result = .ok stats) ∧
    ∃ enough, ∀ fuel, enough < fuel →
      ∃ stats, ((Campaign.mk [scripts] []).explore c fuel).result = .ok (some stats) := by
  let S := (setting scripts c.sleepSets c.reduction).limited c.stepLimit
  have hexplore (fuel : Nat) : ∃ stats, ((Campaign.mk [scripts] []).explore c fuel).result =
      .ok stats ∧ ((S.pathsUpTo (2 * Script.work scripts.flatten)).length < fuel →
        stats.isSome) := by
    obtain ⟨rs, -, -, -, hres⟩ := (Goal.nothing_robust S).explore
      (Campaign.mk [scripts] []).machine Machine.budget (ordinary.tame.limited c.stepLimit)
      (fun G => markable_of_stands ordinary) mode rfl rfl rfl (machine_single scripts)
      (lt_budget scripts) fuel
    exact hres.resolve_left (not_stuck ordinary closed)
  refine ⟨fun fuel => (hexplore fuel).imp fun _ h => h.1,
    (S.pathsUpTo (2 * Script.work scripts.flatten)).length, fun fuel hfuel => ?_⟩
  obtain ⟨stats, hresult, hsome⟩ := hexplore fuel
  obtain ⟨stats, rfl⟩ := Option.isSome_iff_exists.1 (hsome hfuel)
  exact ⟨stats, hresult⟩

/-- An actor creates another one, which sends, and waits for it; a third one sends to the same
inbox after it received from there. -/
theorem explore_ends_well_of_creation :
    (∀ fuel, ∃ stats, ((Campaign.mk [[[.create [.send 0, .stop], .join 2, .send 0, .stop],
        [.receive 0, .toss, .send 0, .stop]]] []).explore { stepLimit := some 8 } fuel).result =
      .ok stats) ∧
    ∃ enough, ∀ fuel, enough < fuel →
      ∃ stats, ((Campaign.mk [[[.create [.send 0, .stop], .join 2, .send 0, .stop],
        [.receive 0, .toss, .send 0, .stop]]] []).explore { stepLimit := some 8 } fuel).result =
      .ok (some stats) :=
  explore_ends_well (by simp [Throughout, Instruction.every, Script.every, Instruction.ordinary])
    ⟨by simp [Script.stops],
      by simp [Throughout, Instruction.every, Script.every, Instruction.createsStopping,
        Script.stops]⟩ rfl

end Explore

end Actors

end Interleaving
