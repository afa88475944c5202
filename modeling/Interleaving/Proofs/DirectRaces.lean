import Interleaving.Proofs.HappensBefore

/-!
# Races that are found depth-first

In depth-first mode a send is compared with the last send to its target before it. The two race
unless the earlier one already happens before the later one when that has the clock of the step
before it of its own thread, and nothing else. In the order of all steps this says that no step lies
between the two.

## Main definitions

* `Trace.DirectRace` — two sends, one directly after the other, with no step between them.
* `Analysis.Orders` — the order of the steps that the clocks tell.

## Main statements

* `Trace.directRace_iff` — what the comparison decides.
* `Clocking.visit_quiet`, `Clocking.visit_race` — a step that races with none, and one that races.
* `analyse_races_exact` — the races that are recorded.
-/

namespace Interleaving

open Interleaving.Action

/-! ## Sends that race -/

namespace Trace

/-- Sends of different threads to one target, the earlier being the last one before the later, with
no step between them in the order `R`. -/
structure DirectRace (tr : Trace) (R : Nat → Nat → Prop) (a b : Nat) : Prop where
  other : ∀ t, tr.Ran t a → ¬ tr.Ran t b
  consecutive : ∃ x, tr.SentTo x b ∧ LastOf (tr.SentTo x) b (some a)
  direct : ∀ c, R a c → R c b → c = a ∨ c = b

variable {tr : Trace} {a a' b x : Nat} {q : Pending} {previous : Option Nat}

theorem SentTo.eq {y : Nat} (h : tr.SentTo x b) (h' : tr.SentTo y b) : x = y := by
  obtain ⟨p, hp, -, hx⟩ := h
  obtain ⟨p', hp', -, hy⟩ := h'
  obtain rfl : p = p' := by simpa [hp] using hp'
  simpa [hx] using hy

theorem DirectRace.lt {R : Nat → Nat → Prop} (h : tr.DirectRace R a b) : a < b := by
  obtain ⟨x, -, hlast⟩ := h.consecutive
  exact hlast.1

/-- A send races with one send at most. -/
theorem DirectRace.earlier_eq {R : Nat → Nat → Prop} (h : tr.DirectRace R a b)
    (h' : tr.DirectRace R a' b) : a = a' := by
  obtain ⟨x, hx, hlast⟩ := h.consecutive
  obtain ⟨y, hy, hlast'⟩ := h'.consecutive
  obtain rfl := hx.eq hy
  exact Option.some.inj (hlast.eq hlast')

/-- Two consecutive sends race iff the earlier one does not reach the step of the later one's thread
before the later one: of the edges to the later one, the only other one is from the earlier one. -/
theorem directRace_iff (forward : tr.Forward) (hq : tr.stepAt b = some q) (hx : tr.SentTo x b)
    (hprevious : LastOf (tr.Ran q.thread) b previous) :
    tr.DirectRace (tr.Before true) a b ↔
      LastOf (tr.SentTo x) b (some a) ∧ ¬ ∃ p, previous = some p ∧ tr.Before true a p := by
  have order : tr.Order (tr.Before true) := order_before forward
  have hran : tr.Ran q.thread b := ⟨q, hq, rfl⟩
  constructor
  · intro h
    obtain ⟨y, hy, hlast⟩ := h.consecutive
    obtain rfl := hx.eq hy
    refine ⟨hlast, ?_⟩
    rintro ⟨p, rfl, hap⟩
    rcases h.direct p hap (.single (.own hran hprevious)) with rfl | rfl
    · exact h.other q.thread hprevious.2.1 hran
    · exact absurd hprevious.1 (lt_irrefl _)
  · rintro ⟨hlast, hunreached⟩
    refine ⟨fun t hta htb => ?_, ⟨x, hx, hlast⟩, fun c hac hcb => ?_⟩
    · obtain rfl := ran_unique htb hran
      cases previous with
      | none => exact hprevious a hlast.1 hta
      | some p =>
        refine hunreached ⟨p, rfl, ?_⟩
        rcases Nat.lt_or_eq_of_le (hprevious.2.2 a hlast.1 hta) with hlt | rfl
        · exact before_own hta hlt hprevious.2.1
        · exact .refl
    · rcases Relation.ReflTransGen.cases_tail hcb with rfl | ⟨k, hck, hedge⟩
      · exact .inr rfl
      · obtain ⟨p, hp, hop, htarget⟩ := hx
        obtain rfl : q = p := by simpa [hq] using hp
        have hsource : tr.Source b q (some a) := (source_send_iff hop htarget).2 hlast
        rcases (edge_iff hq (by simp [hop]) hprevious hsource k).1 hedge with rfl | ⟨hk, -⟩
        · exact absurd ⟨k, rfl, hac.trans hck⟩ hunreached
        · obtain rfl := Option.some.inj hk
          exact .inl (le_antisymm (order.le hck) (order.le hac))

end Trace

/-! ## One step of the walk -/

@[simp] theorem Analysis.races_clocked (a : Analysis) (sends : Bool) (i : Step) (q : Pending) :
    (a.clocked sends i q).races = a.races := a.races_enter i q

namespace Clocking

variable {tr : Trace} {threads k a : Nat} {w : Workspace} {p q : Pending}

/-- What a step races with is what it is to be ordered after. -/
theorem source_of_directRace {R : Nat → Nat → Prop} (h : Clocking tr none threads k w)
    (forward : tr.Forward) (hq : tr.stepAt (k + 1) = some q) (hrace : tr.DirectRace R a (k + 1)) :
    (w.analysis.enter (k + 1) q).2 = some a := by
  have hsource := h.walked.source_enter (forward (k + 1) q hq)
  obtain ⟨x, ⟨q', hq', hop, htarget⟩, hlast⟩ := hrace.consecutive
  obtain rfl : q = q' := by simpa [hq] using hq'
  exact ((Trace.source_send_iff hop htarget).1 hsource).eq hlast

/-- The comparison with the step that a step is to be ordered after decides whether the two race. -/
theorem directRace_iff (h : Clocking tr none threads k w) (forward : tr.Forward)
    (hq : tr.stepAt (k + 1) = some q) (hp : tr.stepAt a = some p)
    (hs : (w.analysis.enter (k + 1) q).2 = some a) :
    tr.DirectRace (tr.Before true) a (k + 1) ↔
      ¬ (w.analysis.enter (k + 1) q).1.happensBefore ⟨p.thread, a⟩ (k + 1) ∧
        p.op = .send ∧ q.op = .send := by
  obtain ⟨previous, hlast, entered⟩ := h.walked.enter (Trace.order_before forward) hq
  have hsource := h.walked.source_enter (forward (k + 1) q hq)
  rw [hs] at hsource
  have hlt : a < k + 1 := (hsource.linked hq).1
  have hbefore : (w.analysis.enter (k + 1) q).1.happensBefore ⟨p.thread, a⟩ (k + 1) ↔
      ∃ j, previous = some j ∧ tr.Before true a j := by
    rw [Entered.happensBefore_iff (w := w.enter (k + 1) q) entered ⟨p, hp, rfl⟩,
      or_iff_right hlt.ne]
    rfl
  rw [hbefore]
  constructor
  · intro hrace
    obtain ⟨x, hx, hlast'⟩ := hrace.consecutive
    have hunreached := ((Trace.directRace_iff forward hq hx hlast).1 hrace).2
    obtain ⟨q', hq', hqop, -⟩ := hx
    obtain ⟨p', hp', hpop, -⟩ := hlast'.2.1
    obtain rfl : q = q' := by simpa [hq] using hq'
    obtain rfl : p = p' := by simpa [hp] using hp'
    exact ⟨hunreached, hpop, hqop⟩
  · rintro ⟨hunreached, hpop, hqop⟩
    obtain ⟨x, hx⟩ := hsource.exists_target
    rw [Trace.source_send_iff hqop hx] at hsource
    exact (Trace.directRace_iff forward hq ⟨q, hq, hqop, hx⟩ hlast).2 ⟨hsource, hunreached⟩

/-- A step is visited that is to be ordered after another one. -/
theorem visit_of_source {g : Option Pcg} (h : Clocking tr g threads k w) (forward : tr.Forward)
    (hq : tr.stepAt (k + 1) = some q) (hs : (w.analysis.enter (k + 1) q).2 = some a) :
    a < k + 1 ∧ (∃ p, tr.stepAt a = some p) ∧ ∃ e : Entry, e.thread = q.thread ∧ e.op = q.op ∧
      (e.op = .send → e.target = q.target) ∧
      (Workspace.visit (k + 1)).ComesTo w (Workspace.order (k + 1) e a) (w.enter (k + 1) q) := by
  obtain ⟨l, e, hl, he, hresolved⟩ := h.performs.exists_entry hq
  have hsource := h.walked.source_enter (forward (k + 1) q hq)
  rw [hs] at hsource
  have hlinked := hsource.linked hq
  have hcomes := Workspace.visit_comesTo hl he hresolved
  rw [hs] at hcomes
  refine ⟨hlinked.1,
    Trace.exists_stepAt hlinked.pos (hlinked.1.le.trans (Trace.stepAt_le hq)),
    e, by rw [← hresolved]; rfl, by rw [← hresolved]; rfl, fun hop => ?_, hcomes⟩
  rw [← hresolved]
  simp [Level.resolved, hop]

/-- A step that is ordered after another one has its clock then. -/
theorem clocked_of_source (hs : (w.analysis.enter (k + 1) q).2 = some a) :
    w.analysis.clocked true (k + 1) q = (w.analysis.enter (k + 1) q).1.join (k + 1) a := by
  have hwaits : q.op ≠ .quiesce := by
    intro hwaits
    simp [Analysis.enter_of_quiesce hwaits] at hs
  simp [Analysis.clocked_of_some hwaits hs]

/-- A step is visited that races with none. -/
theorem visit_quiet (h : Clocking tr none threads k w) (forward : tr.Forward)
    (hq : tr.stepAt (k + 1) = some q) (hnone : ∀ a, ¬ tr.DirectRace (tr.Before true) a (k + 1)) :
    (Workspace.visit (k + 1)).Yields w ()
      { w with analysis := w.analysis.clocked true (k + 1) q } := by
  cases hs : (w.analysis.enter (k + 1) q).2 with
  | none =>
    obtain ⟨l, e, hl, he, hresolved⟩ := h.performs.exists_entry hq
    have hmode : (!w.randomized) = true := by simp [Workspace.randomized, h.generator]
    have hcomes := Workspace.visit_comesTo hl he hresolved
    rw [hs, hmode] at hcomes
    exact hcomes.yields_iff.2 (yields_set _ _)
  | some a =>
    obtain ⟨hlt, ⟨p, hp⟩, e, hthread, hop, -, hcomes⟩ := h.visit_of_source forward hq hs
    obtain ⟨d, hd, hdthread, hdop, -⟩ := Workspace.executed_of_performs h.performs hp
    have hskip := mt (h.directRace_iff forward hq hp hs).2 (hnone a)
    rw [not_and_or, not_not, ← hdthread, ← hdop, ← hop] at hskip
    rw [clocked_of_source hs]
    have hdetect := Workspace.detect_skip (w := w.enter (k + 1) q) hd hskip
    exact hcomes.yields_iff.2 (order_yields hlt hdetect h.generator)

/-- A step is visited that races with another one. -/
theorem visit_race (h : Clocking tr none threads k w) (forward : tr.Forward)
    (hq : tr.stepAt (k + 1) = some q) (hp : tr.stepAt a = some p)
    (hrace : tr.DirectRace (tr.Before true) a (k + 1)) {w' : Workspace} :
    (Workspace.visit (k + 1)).Yields w () w' ↔
      ∃ v, (Workspace.addBacktrackPoint ⟨a, k + 1⟩ p.thread q.thread).Yields
          ((w.enter (k + 1) q).addRace ⟨a, k + 1⟩) () v ∧
        w' = v.modifyAnalysis (·.join (k + 1) a) := by
  have hs := h.source_of_directRace forward hq hrace
  obtain ⟨hlt, -, e, hthread, hop, -, hcomes⟩ := h.visit_of_source forward hq hs
  obtain ⟨d, hd, hdthread, hdop, -⟩ := Workspace.executed_of_performs h.performs hp
  obtain ⟨hbefore, hsends⟩ := (h.directRace_iff forward hq hp hs).1 hrace
  rw [← hdthread] at hbefore
  rw [← hdop, ← hop] at hsends
  have hdetect := Workspace.detect_race (w := w.enter (k + 1) q) h.generator hd hbefore hsends
  rw [hcomes.yields_iff, ← hdthread, ← hthread]
  constructor
  · intro hyields
    dsimp only [Workspace.order] at hyields
    rw [if_neg (Nat.not_le.2 hlt)] at hyields
    obtain ⟨u, v, hv, hw'⟩ := hyields.of_bind
    have hpoint := hdetect.yields_iff.1 hv
    have hgenerator := (Workspace.addBacktrackPoint_noted _ _ _ () v hpoint).generator
    refine ⟨v, hpoint, ?_⟩
    rw [← hw'.state]
    simp [Workspace.randomized, hgenerator, h.generator, Workspace.addRace,
      Workspace.modifyAnalysis]
  · rintro ⟨v, hpoint, rfl⟩
    have hgenerator := (Workspace.addBacktrackPoint_noted _ _ _ () v hpoint).generator
    exact order_yields hlt (hdetect.yields_iff.2 hpoint) (hgenerator.trans h.generator)

end Clocking

/-! ## The races that are recorded -/

/-- The walk in depth-first mode after the first `k` steps. The races that are recorded are those
with the later step among these, in its order. -/
structure Racing (tr : Trace) (threads k : Nat) (w : Workspace) : Prop
    extends Clocking tr none threads k w where
  sorted : w.analysis.races.Pairwise (·.later < ·.later)
  mem_races : ∀ race, race ∈ w.analysis.races ↔
    race.later ≤ k ∧ tr.DirectRace (tr.Before true) race.earlier race.later

namespace Racing

variable {tr : Trace} {threads k a : Nat} {w w' : Workspace}

/-- One more step that races with none. -/
theorem quiet (h : Racing tr threads k w)
    (hnone : ∀ a, ¬ tr.DirectRace (tr.Before true) a (k + 1))
    (clocking : Clocking tr none threads (k + 1) w')
    (hraces : w'.analysis.races = w.analysis.races) : Racing tr threads (k + 1) w' := by
  refine ⟨clocking, hraces ▸ h.sorted, fun race => ?_⟩
  rw [hraces, h.mem_races]
  refine ⟨fun ⟨hle, hrace⟩ => ⟨Nat.le_succ_of_le hle, hrace⟩, fun ⟨hle, hrace⟩ => ⟨?_, hrace⟩⟩
  rcases Nat.lt_or_eq_of_le hle with hlt | heq
  · exact Nat.le_of_lt_succ hlt
  · rw [heq] at hrace
    exact absurd hrace (hnone _)

/-- One more step that races with another one. -/
theorem race (h : Racing tr threads k w) (hrace : tr.DirectRace (tr.Before true) a (k + 1))
    (clocking : Clocking tr none threads (k + 1) w')
    (hraces : w'.analysis.races = w.analysis.races ++ [⟨a, k + 1⟩]) :
    Racing tr threads (k + 1) w' := by
  refine ⟨clocking, ?_, fun race => ?_⟩
  · rw [hraces, List.pairwise_append]
    refine ⟨h.sorted, List.pairwise_singleton _ _, fun race hmem race' hmem' => ?_⟩
    rw [List.mem_singleton.1 hmem']
    exact Nat.lt_succ_of_le ((h.mem_races race).1 hmem).1
  · rw [hraces, List.mem_append, List.mem_singleton, h.mem_races]
    constructor
    · rintro (⟨hle, hrace⟩ | rfl)
      · exact ⟨Nat.le_succ_of_le hle, hrace⟩
      · exact ⟨le_rfl, hrace⟩
    · rintro ⟨hle, hother⟩
      rcases Nat.lt_or_eq_of_le hle with hlt | heq
      · exact .inl ⟨Nat.le_of_lt_succ hlt, hother⟩
      · obtain ⟨earlier, later⟩ := race
        obtain rfl : later = k + 1 := heq
        obtain rfl : earlier = a := hother.earlier_eq hrace
        exact .inr rfl

/-- One step of the walk. -/
theorem visit (h : Racing tr threads k w) (forward : tr.Forward) (hk : k < tr.length) :
    (Workspace.visit (k + 1)).Ensures w fun _ w' => Racing tr threads (k + 1) w' := by
  intro u w' hyields
  have clocking := h.toClocking.visit forward hk u w' hyields
  obtain ⟨q, hq⟩ := Trace.exists_stepAt (Nat.succ_pos k) hk
  by_cases hany : ∃ a, tr.DirectRace (tr.Before true) a (k + 1)
  · obtain ⟨a, hrace⟩ := hany
    obtain ⟨x, -, hlast⟩ := hrace.consecutive
    obtain ⟨p, hp, -⟩ := hlast.2.1
    obtain ⟨v, hpoint, rfl⟩ := (h.toClocking.visit_race forward hq hp hrace).1 hyields
    refine h.race hrace clocking ?_
    obtain ⟨-, -, position, -, -, -, -, -, ⟨-, rfl⟩ | rfl⟩ :=
      Workspace.addBacktrackPoint_ensures _ _ _ () v hpoint
    · exact congrArg (· ++ _) (Analysis.races_enter _ _ _)
    · exact congrArg (· ++ _) (Analysis.races_enter _ _ _)
  · rw [not_exists] at hany
    obtain ⟨-, rfl⟩ := (h.toClocking.visit_quiet forward hq hany).value_eq hyields
    exact h.quiet hany clocking (Analysis.races_clocked _ _ _ _)

/-- What races are recorded is determined. -/
theorem races_eq {threads' : Nat} (h : Racing tr threads k w) (h' : Racing tr threads' k w') :
    w.analysis.races = w'.analysis.races := by
  have nodup {races : List Race} (sorted : races.Pairwise (·.later < ·.later)) : races.Nodup :=
    sorted.imp fun {race race'} hlt heq => absurd (congrArg Race.later heq) hlt.ne
  refine List.Perm.eq_of_pairwise (fun race race' _ _ hlt hlt' => ?_) h.sorted h'.sorted ?_
  · exact absurd (hlt.trans hlt') (lt_irrefl _)
  · rw [List.perm_ext_iff_of_nodup (nodup h.sorted) (nodup h'.sorted)]
    exact fun race => (h.mem_races race).trans (h'.mem_races race).symm

end Racing

section Walk

variable {tr : Trace} {w w' : Workspace}

/-- The walk begins with no race. -/
theorem racing_reset (performs : Performs w.schedule.levels tr) (hsteps : w.steps = tr.length)
    (hgenerator : w.generator = none) :
    Racing tr w.threads 0 (w.modifyAnalysis (·.reset w.steps w.threads)) := by
  refine ⟨⟨performs, hgenerator, rfl, by simp [Workspace.modifyAnalysis, Analysis.reset], ?_⟩,
    .nil, fun race => ⟨fun h => absurd h List.not_mem_nil, fun ⟨hle, hrace⟩ => ?_⟩⟩
  · exact hsteps ▸ walked_reset (performs.thread_lt_threads rfl)
  · exact absurd (hrace.lt.trans_le hle) (Nat.not_lt_zero _)

/-- The whole walk. -/
theorem walk_racing (performs : Performs w.schedule.levels tr) (hsteps : w.steps = tr.length)
    (hgenerator : w.generator = none) :
    Workspace.walk.Ensures w fun _ w' => Racing tr w.threads w.steps w' := by
  intro u w' hyields
  have forward := walk_forward performs hsteps u w' hyields
  exact Workspace.walk_ensures (fun k v => Racing tr w.threads k v)
    (racing_reset performs hsteps hgenerator) (fun k v hk hv => hv.visit forward (hsteps ▸ hk))
    u w' hyields

/-- Step `i` is step `j` or happens before it, as the clocks tell. -/
def Analysis.Orders (a : Analysis) (tr : Trace) (i j : Step) : Prop :=
  ∃ p, tr.stepAt i = some p ∧ a.happensBefore ⟨p.thread, i⟩ j

/-- When all steps have their clocks, these tell the order. -/
theorem Walked.orders_iff {sends : Bool} {analysis : Analysis} {i j : Nat}
    (h : Walked (tr.Before sends) tr tr.length analysis) (hpos : 0 < j) (hle : j ≤ tr.length) :
    analysis.Orders tr i j ↔ (∃ p, tr.stepAt i = some p) ∧ tr.Before sends i j := by
  constructor
  · rintro ⟨p, hp, hbefore⟩
    exact ⟨⟨p, hp⟩, (h.happensBefore_iff ⟨p, hp, rfl⟩ hpos hle).1 hbefore⟩
  · rintro ⟨⟨p, hp⟩, hbefore⟩
    exact ⟨p, hp, (h.happensBefore_iff ⟨p, hp, rfl⟩ hpos hle).2 hbefore⟩

/-- So two sends race in the order of the steps iff they do so as the clocks tell. -/
theorem Walked.directRace_iff {sends : Bool} {analysis : Analysis} {a b : Nat}
    (h : Walked (tr.Before sends) tr tr.length analysis) (forward : tr.Forward) :
    tr.DirectRace (analysis.Orders tr) a b ↔ tr.DirectRace (tr.Before sends) a b := by
  have order : tr.Order (tr.Before sends) := Trace.order_before forward
  have steps {R : Nat → Nat → Prop} (hrace : tr.DirectRace R a b) :
      (∃ p, tr.stepAt a = some p) ∧ 0 < b ∧ b ≤ tr.length := by
    obtain ⟨x, ⟨q, hq, -⟩, hlast⟩ := hrace.consecutive
    obtain ⟨p, hp, -⟩ := hlast.2.1
    exact ⟨⟨p, hp⟩, Trace.stepAt_pos hq, Trace.stepAt_le hq⟩
  constructor
  · intro hrace
    obtain ⟨⟨p, hp⟩, hpos, hle⟩ := steps hrace
    refine ⟨hrace.other, hrace.consecutive, fun c hac hcb => hrace.direct c ?_ ?_⟩
    · have hc : 0 < c ∧ c ≤ tr.length :=
        ⟨(Trace.stepAt_pos hp).trans_le (order.le hac), (order.le hcb).trans hle⟩
      exact (h.orders_iff hc.1 hc.2).2 ⟨⟨p, hp⟩, hac⟩
    · have hc := Trace.exists_stepAt ((Trace.stepAt_pos hp).trans_le (order.le hac))
        ((order.le hcb).trans hle)
      exact (h.orders_iff hpos hle).2 ⟨hc, hcb⟩
  · intro hrace
    obtain ⟨-, hpos, hle⟩ := steps hrace
    refine ⟨hrace.other, hrace.consecutive, fun c hac hcb => ?_⟩
    obtain ⟨⟨r, hr⟩, hcb⟩ := (h.orders_iff hpos hle).1 hcb
    exact hrace.direct c ((h.orders_iff (Trace.stepAt_pos hr) (Trace.stepAt_le hr)).1 hac).2 hcb

/-- In depth-first mode an analysis is a walk. -/
theorem Workspace.analyse_of_walk (hwalk : walk.Yields w () w') (hgenerator : w'.generator = none) :
    analyse.Yields w [] w' := by
  refine hwalk.bind ((yields_get _).bind ?_)
  rw [hgenerator]
  exact yields_pure _ _

theorem Workspace.walk_of_analyse {directives : List Directive} (hgenerator : w.generator = none)
    (hanalyse : analyse.Yields w directives w') : walk.Yields w () w' := by
  obtain ⟨u, v, hwalk, -⟩ := hanalyse.of_bind
  have hv := analyse_of_walk hwalk ((walk_marked () v hwalk).generator.trans hgenerator)
  obtain ⟨-, rfl⟩ := hv.value_eq hanalyse
  exact hwalk

/-- The races that are recorded by the analysis in depth-first mode of a schedule that was built
level by level, the later steps increasing: a send races with the last send to its target before it
if that is of another thread and no step lies between the two, as the clocks tell in the end. -/
theorem analyse_races_exact {directives : List Directive} (built : w.schedule.Built)
    (decided : w.schedule.Decided) (hgenerator : w.generator = none)
    (hanalyse : Workspace.analyse.Yields w directives w') :
    w'.analysis.races.Pairwise (·.later < ·.later) ∧ ∀ race, race ∈ w'.analysis.races ↔
      w.schedule.trace.DirectRace (w'.analysis.Orders w.schedule.trace) race.earlier
        race.later := by
  have regular := built.regular.2
  have performs := Schedule.performs_trace regular decided
  have hlength := Schedule.length_trace regular decided
  have hwalk := Workspace.walk_of_analyse hgenerator hanalyse
  have forward := walk_forward performs hlength.symm () w' hwalk
  have racing := walk_racing performs hlength.symm hgenerator () w' hwalk
  refine ⟨racing.sorted, fun race => ?_⟩
  rw [racing.mem_races, Walked.directRace_iff (hlength ▸ racing.walked) forward]
  refine and_iff_right_of_imp fun hrace => ?_
  obtain ⟨x, ⟨q, hq, -⟩, -⟩ := hrace.consecutive
  exact hlength ▸ Trace.stepAt_le hq

/-- The races of the two sends by different threads. -/
theorem analyse_sent_races_exact :
    (Workspace.analyse sent).state.analysis.races.Pairwise (·.later < ·.later) ∧
      ∀ race, race ∈ (Workspace.analyse sent).state.analysis.races ↔
        sends.trace.DirectRace ((Workspace.analyse sent).state.analysis.Orders sends.trace)
          race.earlier race.later :=
  analyse_races_exact (w := sent) built_sends decided_sends rfl (yields_of_result (a := []) rfl)

/-- It is the one of the first two steps. -/
example : (Workspace.analyse sent).state.analysis.races = [⟨1, 2⟩] := by rfl

end Walk

end Interleaving
