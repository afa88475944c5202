import Interleaving.Proofs.Noting

/-!
# Clocks are exactly the order of the steps

The analysis of a schedule makes one pass over its steps, and joins to the clock of a step the
clocks of a few earlier ones. In the end the clock of a step holds for every thread the last of its
steps that reaches the step, along any number of edges; whatever the schedule is, and in both modes.

## Main definitions

* `Trace.Edge`, `Trace.Before` — the order of the steps of a schedule.
* `Clocking` — the walk after so many steps.

## Main statements

* `Clocking.visit` — one step of the walk.
* `analyse_clocks_exact` — what the clocks are after an analysis.
-/

namespace Interleaving

open Interleaving.Action

/-! ## The order -/

theorem exists_lastOf (P : Nat → Prop) (j : Nat) : ∃ r, LastOf P j r := by
  induction j with
  | zero => exact ⟨none, fun k hk => absurd hk (Nat.not_lt_zero k)⟩
  | succ j ih =>
    obtain ⟨r, hr⟩ := ih
    by_cases hj : P j
    · exact ⟨some j, lastOf_self hj⟩
    · exact ⟨r, hr.succ hj⟩

theorem LastOf.eq {P : Nat → Prop} {j : Nat} {r r' : Option Nat} (h : LastOf P j r)
    (h' : LastOf P j r') : r = r' := by
  cases r with
  | none =>
    cases r' with
    | none => rfl
    | some i => exact absurd h'.2.1 (h i h'.1)
  | some i =>
    cases r' with
    | none => exact absurd h.2.1 (h' i h.1)
    | some i' => exact congrArg some (le_antisymm (h'.2.2 i h.1 h.2.1) (h.2.2 i' h'.1 h'.2.1))

namespace Trace

/-- Step `j` is ordered directly after step `i`. Sends to one target are ordered only if `sends`
says so. -/
inductive Edge (tr : Trace) (sends : Bool) (i j : Nat) : Prop
  /-- The two are consecutive steps of a thread. -/
  | own {t : ThreadId} (ran : tr.Ran t j) (last : LastOf (tr.Ran t) j (some i))
  /-- They are consecutive steps in the life of a target. -/
  | lifecycle {target : Nat} (lived : tr.LivedOn target j)
      (last : LastOf (tr.LivedOn target) j (some i))
  /-- The later one receives the message that the earlier one sent. -/
  | message {q : Pending} (step : tr.stepAt j = some q) (receive : q.op = .receive)
      (target : q.target.isSome) (sent : q.sendStep = some i)
  /-- The later one waits for quiescence, and the earlier one is the last step of a thread. -/
  | quiescence {q : Pending} {t : ThreadId} (step : tr.stepAt j = some q) (waits : q.op = .quiesce)
      (last : LastOf (tr.Ran t) j (some i))
  /-- They are consecutive sends to a target. -/
  | send {target : Nat} (ordered : sends = true) (sent : tr.SentTo target j)
      (last : LastOf (tr.SentTo target) j (some i))

/-- The second step is the first one or is reached from it along edges. -/
def Before (tr : Trace) (sends : Bool) : Nat → Nat → Prop := Relation.ReflTransGen (tr.Edge sends)

/-- Messages are received after they were sent. -/
def Forward (tr : Trace) : Prop :=
  ∀ k p, tr.stepAt k = some p → p.op = .receive → p.target.isSome → ∀ i ∈ p.sendStep, 0 < i ∧ i < k

variable {tr : Trace} {sends : Bool} {i j : Nat} {q : Pending}

theorem Edge.lt (forward : tr.Forward) (h : tr.Edge sends i j) : i < j := by
  cases h with
  | own _ last => exact last.1
  | lifecycle _ last => exact last.1
  | message step receive target sent => exact (forward j _ step receive target i sent).2
  | quiescence _ _ last => exact last.1
  | send _ _ last => exact last.1

theorem Edge.pos (forward : tr.Forward) (h : tr.Edge sends i j) : 0 < i := by
  have ran {t : ThreadId} (h : tr.Ran t i) : 0 < i := by
    obtain ⟨p, hp, -⟩ := h
    exact stepAt_pos hp
  cases h with
  | own _ last => exact ran last.2.1
  | lifecycle _ last =>
    obtain ⟨p, hp, -⟩ := last.2.1
    exact stepAt_pos hp
  | message step receive target sent => exact (forward j _ step receive target i sent).1
  | quiescence _ _ last => exact ran last.2.1
  | send _ _ last =>
    obtain ⟨p, hp, -⟩ := last.2.1
    exact stepAt_pos hp

/-- Earlier steps of a thread reach its later ones, one after another. -/
theorem before_own {t : ThreadId} (hi : tr.Ran t i) :
    ∀ {j : Nat}, i < j → tr.Ran t j → tr.Before sends i j := by
  intro j
  induction j using Nat.strong_induction_on with
  | h j ih =>
    intro hij hj
    obtain ⟨r, hr⟩ := exists_lastOf (tr.Ran t) j
    cases r with
    | none => exact absurd hi (hr i hij)
    | some p =>
      rcases Nat.lt_or_eq_of_le (hr.2.2 i hij hi) with hip | rfl
      · exact (ih p hr.1 hip hr.2.1).tail (.own hj hr)
      · exact .single (.own hj hr)

theorem order_before (forward : tr.Forward) : tr.Order (tr.Before sends) where
  refl := fun _ => .refl
  le := by
    intro i j h
    induction h with
    | refl => exact le_rfl
    | tail _ hedge ih => exact ih.trans (hedge.lt forward).le
  own := fun hij hi hj => before_own hi hij hj

/-- A step is reached through the steps that it is ordered directly after. -/
theorem before_iff {previous : Option Nat} {sources : List Nat}
    (hedge : ∀ i, tr.Edge sends i j ↔ previous = some i ∨ i ∈ sources) :
    tr.Before sends i j ↔ (i = j ∨ ∃ p, previous = some p ∧ tr.Before sends i p) ∨
      ∃ s ∈ sources, tr.Before sends i s := by
  constructor
  · intro h
    rcases Relation.ReflTransGen.cases_tail h with rfl | ⟨k, hk, hkj⟩
    · exact .inl (.inl rfl)
    · rcases (hedge k).1 hkj with hp | hs
      · exact .inl (.inr ⟨k, hp, hk⟩)
      · exact .inr ⟨k, hs, hk⟩
  · rintro ((rfl | ⟨p, hp, hbefore⟩) | ⟨s, hs, hbefore⟩)
    · exact .refl
    · exact hbefore.tail ((hedge p).2 (.inl hp))
    · exact hbefore.tail ((hedge s).2 (.inr hs))

/-- What a step is ordered directly after that does not wait for quiescence: the step before it of
its thread, and its source unless both are sends that are not ordered. -/
theorem edge_iff {previous source : Option Nat} (hq : tr.stepAt j = some q)
    (hwaits : q.op ≠ .quiesce) (hprevious : LastOf (tr.Ran q.thread) j previous)
    (hsource : tr.Source j q source) (i : Nat) :
    tr.Edge sends i j ↔ previous = some i ∨ source = some i ∧ (q.op = .send → sends = true) := by
  constructor
  · intro h
    cases h with
    | own ran last =>
      obtain rfl := thread_eq_of_ran hq ran
      exact .inl (hprevious.eq last)
    | lifecycle lived last =>
      obtain ⟨p, hp, hop, htarget⟩ := lived
      obtain rfl : q = p := by simpa [hq] using hp
      have hsend : q.op ≠ .send := by
        intro hs
        simp [hs, Operation.isLifecycle] at hop
      simp only [Source, htarget, hsend, hop, if_true, if_false] at hsource
      exact .inr ⟨hsource.eq last, fun hs => absurd hs hsend⟩
    | message step receive target sent =>
      obtain rfl : q = _ := by simpa [hq] using step
      obtain ⟨x, hx⟩ := Option.isSome_iff_exists.1 target
      simp only [Source, hx, receive, reduceCtorEq, if_false, Operation.isLifecycle,
        Bool.false_eq_true, if_true] at hsource
      exact .inr ⟨hsource.1.trans sent, by simp [receive]⟩
    | quiescence step waits _ =>
      obtain rfl : q = _ := by simpa [hq] using step
      exact absurd waits hwaits
    | send ordered sent last =>
      obtain ⟨p, hp, hop, htarget⟩ := sent
      obtain rfl : q = p := by simpa [hq] using hp
      exact .inr ⟨((source_send_iff hop htarget).1 hsource).eq last, fun _ => ordered⟩
  · rintro (rfl | ⟨rfl, hsend⟩)
    · exact .own ⟨q, hq, rfl⟩ hprevious
    · unfold Source at hsource
      split at hsource
      · simp at hsource
      · next x hx =>
        split at hsource
        · next hop => exact .send (hsend hop) ⟨q, hq, hop, hx⟩ hsource
        · split at hsource
          · next hop => exact .lifecycle ⟨q, hq, hop, hx⟩ hsource
          · split at hsource
            · next hop => exact .message hq hop (by simp [hx]) hsource.1.symm
            · simp at hsource

/-- What a step is ordered directly after that waits for quiescence. -/
theorem edge_iff_of_quiesce {previous : Option Nat} (hq : tr.stepAt j = some q)
    (hwaits : q.op = .quiesce) (hprevious : LastOf (tr.Ran q.thread) j previous) (i : Nat) :
    tr.Edge sends i j ↔ previous = some i ∨ ∃ t ≠ q.thread, LastOf (tr.Ran t) j (some i) := by
  constructor
  · intro h
    cases h with
    | own ran last =>
      obtain rfl := thread_eq_of_ran hq ran
      exact .inl (hprevious.eq last)
    | @quiescence _ t _ _ last =>
      by_cases ht : t = q.thread
      · subst ht
        exact .inl (hprevious.eq last)
      · exact .inr ⟨t, ht, last⟩
    | lifecycle lived _ =>
      obtain ⟨p, hp, hop, -⟩ := lived
      obtain rfl : q = p := by simpa [hq] using hp
      simp [hwaits, Operation.isLifecycle] at hop
    | message step receive =>
      obtain rfl : q = _ := by simpa [hq] using step
      simp [hwaits] at receive
    | send _ sent =>
      obtain ⟨p, hp, hop, -⟩ := sent
      obtain rfl : q = p := by simpa [hq] using hp
      simp [hwaits] at hop
  · rintro (rfl | ⟨t, -, last⟩)
    · exact .own ⟨q, hq, rfl⟩ hprevious
    · exact .quiescence hq hwaits last

end Trace

/-! ## The clock of a step -/

namespace Walked

variable {tr : Trace} {sends : Bool} {k : Nat} {a : Analysis} {q : Pending}

theorem withRaces {R : Nat → Nat → Prop} (h : Walked R tr k a) (races : List Race) :
    Walked R tr k { a with races } :=
  ⟨h.roomy, h.rows, h.threads, h.lastStep, h.lastSend, h.lastLifecycle, h.clocks⟩

/-- The steps whose clocks are joined to that of a step are those that it is ordered directly
after. -/
theorem edge_iff_sources (h : Walked (tr.Before sends) tr k a) (forward : tr.Forward)
    (hlength : a.lastStep.length = a.clocks.width) (hq : tr.stepAt (k + 1) = some q)
    {previous : Option Nat} (hlast : LastOf (tr.Ran q.thread) (k + 1) previous) (i : Nat) :
    tr.Edge sends i (k + 1) ↔ previous = some i ∨ i ∈ a.sources sends (k + 1) q := by
  by_cases hwaits : q.op = .quiesce
  · rw [Trace.edge_iff_of_quiesce hq hwaits hlast]
    refine or_congr_right ?_
    simp only [Analysis.sources, hwaits, if_true, List.mem_filterMap, Prod.exists,
      List.mem_zipIdx_iff_getElem?, Option.ite_none_left_eq_some]
    constructor
    · rintro ⟨t, ht, hi⟩
      obtain ⟨p, hp, hthread⟩ := hi.2.1
      obtain ⟨r, hr, hlastOf⟩ := h.lastStep t (hthread ▸ h.threads p (Trace.mem_of_stepAt hp))
      refine ⟨some i, t, ?_, ht, rfl⟩
      rw [← hlastOf.eq hi, ← hr]
      exact List.getElem?_set_ne ht.symm
    · rintro ⟨_, t, hi, ht, rfl⟩
      replace hi : a.lastStep[t]? = some (some i) := by
        rw [← hi]
        exact (List.getElem?_set_ne (Ne.symm ht)).symm
      obtain ⟨r, hr, hlastOf⟩ := h.lastStep t (hlength ▸ (List.getElem?_eq_some_iff.1 hi).1)
      obtain rfl : some i = r := by simpa [hi] using hr
      exact ⟨t, ht, hlastOf⟩
  · rw [Trace.edge_iff hq hwaits hlast (h.source_enter (forward (k + 1) q hq))]
    by_cases hunordered : q.op = .send ∧ sends = false
    · simp [Analysis.sources, hunordered]
    · have hordered : q.op = .send → sends = true := by simpa using hunordered
      simp only [Analysis.sources, hwaits, hunordered, if_false, Option.mem_toList,
        and_iff_left hordered]

/-- One more step has its clock. -/
theorem clocked (h : Walked (tr.Before sends) tr k a) (forward : tr.Forward)
    (hlength : a.lastStep.length = a.clocks.width) (hq : tr.stepAt (k + 1) = some q) :
    Walked (tr.Before sends) tr (k + 1) (a.clocked sends (k + 1) q) := by
  obtain ⟨previous, hlast, entered⟩ := h.enter (Trace.order_before forward) hq
  have hedge := h.edge_iff_sources forward hlength hq hlast
  refine entered.walked_joins hq _ (fun i => Trace.before_iff hedge) fun s hs => ?_
  have := (hedge s).2 (.inr hs)
  exact ⟨this.pos forward, this.lt forward⟩

end Walked

/-! ## The walk -/

section Walk

variable {tr : Trace} {w : Workspace} {k : Nat}

/-- The walk after the first `k` steps. -/
structure Clocking (tr : Trace) (g : Option Pcg) (threads k : Nat) (w : Workspace) : Prop where
  performs : Performs w.schedule.levels tr
  generator : w.generator = g
  width : w.analysis.clocks.width = threads
  lastSteps : w.analysis.lastStep.length = threads
  walked : Walked (tr.Before g.isNone) tr k w.analysis

/-- If all steps can be visited, messages are received after they were sent. -/
theorem walk_forward (performs : Performs w.schedule.levels tr) (hsteps : w.steps = tr.length) :
    Workspace.walk.Ensures w fun _ _ => tr.Forward := by
  let P (k : Nat) (v : Workspace) : Prop := Performs v.schedule.levels tr ∧
    ∀ j ≤ k, ∀ p, tr.stepAt j = some p → p.op = .receive → p.target.isSome →
      ∀ i ∈ p.sendStep, 0 < i ∧ i < j
  have hwalk : Workspace.walk.Ensures w fun _ w' => P w.steps w' := by
    refine Workspace.walk_ensures P ⟨performs, fun j hj p hp => ?_⟩ fun k v hk hv => ?_
    · exact absurd (Trace.stepAt_pos hp) (by omega)
    · obtain ⟨q, hq⟩ := Trace.exists_stepAt (Nat.succ_pos k) (hsteps ▸ hk)
      obtain ⟨l, e, hl, he, hresolved⟩ := hv.1.exists_entry hq
      refine (Workspace.visit_ensures hl he hresolved).mono fun _ v' hv' =>
        ⟨hv'.2.schedule.performs hv.1, fun j hj p hp => ?_⟩
      rcases Nat.lt_or_eq_of_le hj with hj | rfl
      · exact hv.2 j (by omega) p hp
      · obtain rfl : q = p := by simpa [hq] using hp
        intro hop htarget i hi
        obtain ⟨x, hx⟩ := Option.isSome_iff_exists.1 htarget
        refine hv'.1 (by simp [hop]) i ?_
        simpa [Analysis.enter, hx, hop, Analysis.access] using hi
  exact hwalk.mono fun _ v hv k p hp => hv.2 k (hsteps ▸ Trace.stepAt_le hp) p hp

variable {g : Option Pcg} {threads : Nat}

/-- One step of the walk. -/
theorem Clocking.visit (h : Clocking tr g threads k w) (forward : tr.Forward) (hk : k < tr.length) :
    (Workspace.visit (k + 1)).Ensures w fun _ w' => Clocking tr g threads (k + 1) w' := by
  obtain ⟨q, hq⟩ := Trace.exists_stepAt (Nat.succ_pos k) hk
  obtain ⟨l, e, hl, he, hresolved⟩ := h.performs.exists_entry hq
  refine (Workspace.visit_ensures hl he hresolved).mono fun _ w' hw' => ?_
  obtain ⟨-, ⟨races, hraces⟩, hgenerator, hschedule⟩ := hw'
  have hmode : (!w.randomized) = g.isNone := by simp [Workspace.randomized, h.generator]
  rw [hmode] at hraces
  refine ⟨hschedule.performs h.performs, hgenerator.trans h.generator, ?_, ?_, ?_⟩
  · rw [hraces]
    exact (w.analysis.width_clocked g.isNone (k + 1) q).trans h.width
  · rw [hraces]
    exact (w.analysis.length_lastStep_clocked g.isNone (k + 1) q).trans h.lastSteps
  · rw [hraces]
    exact (h.walked.clocked forward (h.lastSteps.trans h.width.symm) hq).withRaces races

/-- The whole walk. -/
theorem walk_clocking (performs : Performs w.schedule.levels tr) (hsteps : w.steps = tr.length) :
    Workspace.walk.Ensures w fun _ w' => Clocking tr w.generator w.threads w.steps w' := by
  intro u w' hyields
  have forward := walk_forward performs hsteps u w' hyields
  refine Workspace.walk_ensures (fun k v => Clocking tr w.generator w.threads k v) ?_
    (fun k v hk hv => hv.visit forward (hsteps ▸ hk)) u w' hyields
  refine ⟨performs, rfl, rfl, by simp [Workspace.modifyAnalysis, Analysis.reset], ?_⟩
  exact hsteps ▸ walked_reset (performs.thread_lt_threads rfl)

/-- The clocks after the analysis of a schedule that was built level by level. For each thread, the
clock of a step holds the last step of the thread that reaches the step, and zero if there is none.
So a step happens before another one iff it reaches it. -/
theorem analyse_clocks_exact {directives : List Directive} {w' : Workspace}
    (built : w.schedule.Built) (decided : w.schedule.Decided)
    (hanalyse : Workspace.analyse.Yields w directives w') {j : Nat} (hpos : 0 < j)
    (hle : j ≤ w.steps) :
    (∀ t < w.threads,
      IsGreatest {i | w.schedule.trace.Ran t i ∧ w.schedule.trace.Before w.generator.isNone i j}
        (w'.analysis.clocks.get j t) ∨
      w'.analysis.clocks.get j t = 0 ∧
        ∀ i, w.schedule.trace.Ran t i → ¬ w.schedule.trace.Before w.generator.isNone i j) ∧
    ∀ t i, w.schedule.trace.Ran t i →
      (w'.analysis.happensBefore ⟨t, i⟩ j ↔ w.schedule.trace.Before w.generator.isNone i j) := by
  have regular := built.regular.2
  have performs := Schedule.performs_trace regular decided
  have hlength := Schedule.length_trace regular decided
  obtain ⟨v, hwalk, hcut, -⟩ := Workspace.analyse_cut built.regular.1.le directives w' hanalyse
  have hclocks := hcut.clocks
  have clocking := walk_clocking performs hlength.symm () v hwalk
  have htells := clocking.walked.clocks j hpos hle
  have happens {t i : Nat} (hi : w.schedule.trace.Ran t i) : w'.analysis.happensBefore ⟨t, i⟩ j ↔
      w.schedule.trace.Before w.generator.isNone i j := by
    rw [← clocking.walked.happensBefore_iff hi hpos hle, Analysis.happensBefore,
      Analysis.happensBefore, hclocks]
  refine ⟨fun t ht => ?_, fun t i hi => happens hi⟩
  obtain ⟨hstamp, htells⟩ := htells t (clocking.width.symm ▸ ht)
  rw [hclocks]
  rcases hstamp.2 with hzero | hran
  · refine .inr ⟨hzero, fun i hi hbefore => ?_⟩
    have hle := (htells i hi).2 hbefore
    obtain ⟨p, hp, -⟩ := hi
    have := Trace.stepAt_pos hp
    omega
  · exact .inl ⟨⟨hran, (htells _ hran).1 le_rfl⟩, fun i hi => (htells i hi.1).2 hi.2⟩

/-- Two threads that send to one target. -/
def senders : Snapshot :=
  [{ thread := 0, enabled := true, op := .send, target := some 0 },
    { thread := 1, enabled := true, op := .send, target := some 0 }]

/-- A level at which one of them is selected. -/
def sendLevel (step : Step) (t : Option ThreadId) : Level :=
  { step, entries := senders.map Entry.capture, selected := t }

/-- The first one sends before the second one. -/
def sends : Schedule := ⟨[sendLevel 1 (some 0), sendLevel 2 (some 1)], 2, false⟩

theorem built_sends : sends.Built := by
  have first : Schedule.Built ⟨[sendLevel 1 none], 1, false⟩ :=
    .push (.empty false) (show (Schedule.push senders).Yields _ true _ from ⟨_, rfl⟩)
  have second : Schedule.Built ⟨[sendLevel 1 (some 0)], 1, false⟩ :=
    .select first (show (Schedule.select 0).Yields _ () _ from ⟨_, rfl⟩)
  have third : Schedule.Built ⟨[sendLevel 1 (some 0), sendLevel 2 none], 2, false⟩ :=
    .push second (show (Schedule.push senders).Yields _ true _ from ⟨_, rfl⟩)
  exact .select third (show (Schedule.select 1).Yields _ () _ from ⟨_, rfl⟩)

theorem decided_sends : sends.Decided := by
  rintro (_ | _ | position) l hl hlast
  · obtain rfl := Option.some.inj hl
    rfl
  · exact absurd hlast (by decide)
  · simp [sends] at hl

/-- The two sends, to be analysed with tables that were not used yet. -/
def sent : Workspace := { analysis := { clocks := ⟨#[], 0, 0⟩ }, schedule := sends }

/-- The clock of the second send, before which the first one is. -/
theorem analyse_sent_clocks_exact :
    (∀ t < sent.threads,
      IsGreatest {i | sends.trace.Ran t i ∧ sends.trace.Before true i 2}
        ((Workspace.analyse sent).state.analysis.clocks.get 2 t) ∨
      (Workspace.analyse sent).state.analysis.clocks.get 2 t = 0 ∧
        ∀ i, sends.trace.Ran t i → ¬ sends.trace.Before true i 2) ∧
    ∀ t i, sends.trace.Ran t i →
      ((Workspace.analyse sent).state.analysis.happensBefore ⟨t, i⟩ 2 ↔
        sends.trace.Before true i 2) :=
  analyse_clocks_exact (w := sent) built_sends decided_sends (yields_of_result (a := []) rfl)
    (by decide) (by decide)

end Walk

end Interleaving
