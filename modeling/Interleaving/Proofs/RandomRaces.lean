import Interleaving.Proofs.DirectRaces

/-!
# Races that are found at random

In random mode sends stay unordered. A send is compared with the last send to its target before it,
and where the two are not ordered it races with every earlier send of another thread to the target
that does not happen before it. Where they are ordered none of its races is recorded.

## Main definitions

* `Trace.SendRace`, `Trace.Noticed` — sends that race, and those whose races are recorded.
* `Gathering` — the walk after so many steps.

## Main statements

* `Workspace.addRaces_ensures` — what is recorded for a send.
* `Gathering.visit` — one step of the walk.
* `analyse_random_races` — the races that are recorded.
-/

namespace Interleaving

open Interleaving.Action

/-! ## Sends that race -/

namespace Trace

variable (tr : Trace) (R : Nat → Nat → Prop)

/-- Sends of different threads to one target, the earlier not coming before the later in the order
`R`. -/
structure SendRace (a b : Nat) : Prop where
  other : ∀ t, tr.Ran t a → ¬ tr.Ran t b
  lt : a < b
  sends : ∃ x, tr.SentTo x a ∧ tr.SentTo x b
  unordered : ¬ R a b

/-- The last send before step `b` to its target does not come before it in the order `R`. -/
def Noticed (b : Nat) : Prop := ∀ x c, tr.SentTo x b → LastOf (tr.SentTo x) b (some c) → ¬ R c b

variable {tr R}

/-- What a send that races is to be ordered after is the last send before it to its target. -/
theorem SendRace.source {j b : Nat} {q : Pending} {source : Option Nat} (h : tr.SendRace R j b)
    (hq : tr.stepAt b = some q) (hsource : tr.Source b q source) :
    q.op = .send ∧ ∃ x a, q.target = some x ∧ source = some a ∧
      LastOf (tr.SentTo x) b (some a) := by
  obtain ⟨x, hj, q', hq', hop, hx⟩ := h.sends
  obtain rfl : q = q' := Option.some.inj (hq.symm.trans hq')
  rw [source_send_iff hop hx] at hsource
  cases source with
  | none => exact absurd hj (hsource j h.lt)
  | some a => exact ⟨hop, x, a, hx, rfl, hsource⟩

end Trace

/-- The first step before `j` that has a property, if there is one. -/
def FirstOf (P : Nat → Prop) (j : Nat) : Option Nat → Prop
  | none => ∀ k < j, ¬ P k
  | some i => i < j ∧ P i ∧ ∀ k < j, P k → i ≤ k

section FirstOf

variable {P : Nat → Prop} {j : Nat} {r : Option Nat}

theorem FirstOf.succ (h : FirstOf P j r) (hj : ¬ P j) : FirstOf P (j + 1) r := by
  cases r with
  | none =>
    intro k hk hP
    rcases Nat.lt_succ_iff_lt_or_eq.1 hk with hk | rfl
    · exact h k hk hP
    · exact hj hP
  | some i =>
    refine ⟨Nat.lt_succ_of_lt h.1, h.2.1, fun k hk hP => ?_⟩
    rcases Nat.lt_succ_iff_lt_or_eq.1 hk with hk | rfl
    · exact h.2.2 k hk hP
    · exact absurd hP hj

theorem FirstOf.succ_self (h : FirstOf P j r) (hj : P j) : FirstOf P (j + 1) (some (r.getD j)) := by
  cases r with
  | none =>
    refine ⟨Nat.lt_succ_self j, hj, fun k hk hP => ?_⟩
    exact Nat.le_of_not_lt fun hkj => h k hkj hP
  | some i =>
    refine ⟨Nat.lt_succ_of_lt h.1, h.2.1, fun k hk hP => ?_⟩
    rcases Nat.lt_succ_iff_lt_or_eq.1 hk with hk | rfl
    · exact h.2.2 k hk hP
    · exact h.1.le

end FirstOf

/-- The first send to each target once a step was entered. -/
theorem Analysis.firstSend_enter {tr : Trace} {k : Nat} {a : Analysis} {q : Pending}
    (h : ∀ x, FirstOf (tr.SentTo x) (k + 1) a.firstSend[x]?) (hq : tr.stepAt (k + 1) = some q)
    (x : Nat) : FirstOf (tr.SentTo x) (k + 2) (a.enter (k + 1) q).1.firstSend[x]? := by
  by_cases hsend : q.op = .send ∧ q.target = some x
  · have hentered : (a.enter (k + 1) q).1.firstSend[x]? = some (a.firstSend[x]?.getD (k + 1)) := by
      simp only [enter, hsend.2, hsend.1, access, begin, Std.TreeMap.getElem?_insertIfNew]
      cases hx : a.firstSend[x]? with
      | none => simp [Std.TreeMap.mem_iff_isSome_getElem?, hx]
      | some i => simp [Std.TreeMap.mem_iff_isSome_getElem?, hx]
    rw [hentered]
    exact (h x).succ_self ⟨q, hq, hsend⟩
  · have hentered : (a.enter (k + 1) q).1.firstSend[x]? = a.firstSend[x]? := by
      unfold enter
      split
      · rfl
      · next target htarget =>
        cases hop : q.op <;> try rfl
        have hne : target ≠ x := by
          rintro rfl
          exact hsend ⟨hop, htarget⟩
        simp [access, begin, Std.TreeMap.getElem?_insertIfNew, hne]
    rw [hentered]
    exact (h x).succ (Trace.not_sentTo hq hsend)

/-! ## One step of the walk -/

namespace Workspace

variable {w : Workspace} {a b : Step} {d e : Entry}

/-- Whether step `j` is a send of another thread to the target of the send at step `b`, which runs
`e`, that does not happen before it. -/
def racesWith (w : Workspace) (b : Step) (e : Entry) (j : Step) : Bool :=
  match w.executed j with
  | .ok d => d.op = .send ∧ d.target = e.target ∧ d.thread ≠ e.thread ∧
      !w.analysis.happensBefore ⟨d.thread, j⟩ b
  | .error _ => false

/-- The races of a send with all those from the first one to its target on, or from step `a` on if
there is none. -/
theorem addRaces_ensures (b : Step) (e : Entry) (a : Step) :
    (addRaces b e a).Ensures w fun _ w' =>
      let first := (e.target.bind (w.analysis.firstSend[·]?)).getD a
      w'.analysis.races = w.analysis.races ++
        ((List.range' first (b - first)).filter (w.racesWith b e)).map (⟨·, b⟩) := by
  refine (yields_get w).bind_ensures ?_
  dsimp only
  generalize (e.target.bind (w.analysis.firstSend[·]?)).getD a = first
  -- the races with the first `n` of the steps, the rest being as it was
  let P (n : Nat) (v : Workspace) : Prop := v = { w with
    analysis := { w.analysis with
      races := w.analysis.races ++
        ((List.range' first n).filter (w.racesWith b e)).map (⟨·, b⟩) } }
  refine (ensures_each_at P (by simp [P]) fun n j v hj hv => ?_).mono fun _ w' hw' => ?_
  · subst hv
    obtain ⟨hlt, rfl⟩ := List.getElem?_eq_some_iff.1 hj
    rw [List.getElem_range', Nat.one_mul]
    refine (yields_get _).bind_ensures (bind_lift_ensures fun d hd => ?_)
    have hd : w.executed (first + n) = .ok d := hd
    have hrange : List.range' first (n + 1) = List.range' first n ++ [first + n] := by
      rw [List.range'_concat, Nat.one_mul]
    split
    · next hrace =>
      have hraces : w.racesWith b e (first + n) = true := by
        simp only [racesWith, hd]
        exact decide_eq_true hrace
      refine (yields_notify _ _).bind_ensures ((yields_set _ _).ensures ?_)
      simp [P, hrange, hraces, addRace, modifyAnalysis]
    · next hrace =>
      have hraces : w.racesWith b e (first + n) = false := by
        simp only [racesWith, hd]
        exact decide_eq_false hrace
      refine ensures_pure ?_
      simp [P, hrange, hraces]
  · rw [List.length_range'] at hw'
    rw [hw']

end Workspace

/-- Besides the races of the first workspace the second one has those of step `b` that are to be
recorded, each of them once. -/
def Workspace.Records (tr : Trace) (b : Nat) (w w' : Workspace) : Prop :=
  ∃ found : List Step, found.Nodup ∧
    (∀ j, j ∈ found ↔ tr.SendRace (tr.Before false) j b ∧ tr.Noticed (tr.Before false) b) ∧
    w'.analysis.races = w.analysis.races ++ found.map (⟨·, b⟩)

/-- The walk in random mode after the first `k` steps. -/
structure Gathering (tr : Trace) (g : Pcg) (threads k : Nat) (w : Workspace) : Prop
    extends Clocking tr (some g) threads k w where
  firstSend : ∀ x, FirstOf (tr.SentTo x) (k + 1) w.analysis.firstSend[x]?
  nodup : w.analysis.races.Nodup
  mem_races : ∀ race, race ∈ w.analysis.races ↔ race.later ≤ k ∧
    tr.SendRace (tr.Before false) race.earlier race.later ∧ tr.Noticed (tr.Before false) race.later

namespace Gathering

variable {tr : Trace} {g : Pcg} {threads k a : Nat} {w : Workspace} {p q : Pending}

/-- In random mode a send is ordered directly after the step before it of its thread only. -/
theorem before_iff (h : Gathering tr g threads k w) (forward : tr.Forward)
    (hq : tr.stepAt (k + 1) = some q) (hop : q.op = .send) {t i : Nat} (hran : tr.Ran t i) :
    (w.analysis.enter (k + 1) q).1.happensBefore ⟨t, i⟩ (k + 1) ↔ tr.Before false i (k + 1) := by
  obtain ⟨previous, hlast, entered⟩ := h.walked.enter (Trace.order_before forward) hq
  have hedge := h.walked.edge_iff_sources forward (h.lastSteps.trans h.width.symm) hq hlast
  have hsources : w.analysis.sources false (k + 1) q = [] := by simp [Analysis.sources, hop]
  rw [Entered.happensBefore_iff (w := w.enter (k + 1) q) entered hran]
  refine Iff.trans ?_ (Trace.before_iff hedge).symm
  rw [show (some g).isNone = false from rfl, hsources]
  simp

/-- What is tested of an earlier step is whether a send races with it. -/
theorem racesWith_iff (h : Gathering tr g threads k w) (forward : tr.Forward)
    (hq : tr.stepAt (k + 1) = some q) (hop : q.op = .send) {e : Entry} {x : Nat}
    (hthread : e.thread = q.thread) (htarget : e.target = some x) (hqtarget : q.target = some x)
    {j : Nat} (hlt : j < k + 1) :
    (w.enter (k + 1) q).racesWith (k + 1) e j ↔
      tr.SendRace (tr.Before false) j (k + 1) := by
  have hsent : tr.SentTo x (k + 1) := ⟨q, hq, hop, hqtarget⟩
  cases j with
  | zero =>
    have hzero (p : Pending) : tr.stepAt 0 ≠ some p := by simp [Trace.stepAt]
    refine iff_of_false (by simp [Workspace.racesWith, Workspace.executed, Schedule.level,
      Schedule.level?, bind, Except.bind]) fun hrace => ?_
    obtain ⟨y, ⟨p, hp, -⟩, -⟩ := hrace.sends
    exact hzero p hp
  | succ j =>
    obtain ⟨p, hp⟩ := Trace.exists_stepAt (Nat.succ_pos j) (hlt.le.trans (Trace.stepAt_le hq))
    obtain ⟨d, hd, hdthread, hdop, hdtarget⟩ := Workspace.executed_of_performs h.performs hp
    have hd' : (w.enter (k + 1) q).executed (j + 1) = .ok d := hd
    simp only [Workspace.racesWith, hd', decide_eq_true_eq]
    rw [Bool.not_eq_true', ← Bool.not_eq_true,
      h.before_iff forward hq hop (t := d.thread) ⟨p, hp, hdthread.symm⟩, hdop, htarget, hdthread,
      hthread]
    constructor
    · rintro ⟨hpop, hdx, hne, hbefore⟩
      have hpx : p.target = some x := (hdtarget hpop).symm.trans hdx
      refine ⟨fun t ht ht' => hne ?_, hlt, ⟨x, ⟨p, hp, hpop, hpx⟩, hsent⟩, hbefore⟩
      exact (Trace.ran_unique ⟨p, hp, rfl⟩ ht).trans (Trace.ran_unique ht' ⟨q, hq, rfl⟩)
    · rintro ⟨hother, -, ⟨y, hy, hy'⟩, hbefore⟩
      obtain rfl := hsent.eq hy'
      obtain ⟨p', hp', hpop, hpx⟩ := hy
      obtain rfl : p = p' := Option.some.inj (hp.symm.trans hp')
      refine ⟨hpop, (hdtarget hpop).trans hpx, fun heq => ?_, hbefore⟩
      exact hother p.thread ⟨p, hp, rfl⟩ ⟨q, hq, heq.symm⟩

/-- A step whose comparison is skipped has no race that is recorded. -/
theorem not_recorded (h : Gathering tr g threads k w) (forward : tr.Forward)
    (hq : tr.stepAt (k + 1) = some q) (hp : tr.stepAt a = some p)
    (hs : (w.analysis.enter (k + 1) q).2 = some a)
    (hskip : (w.analysis.enter (k + 1) q).1.happensBefore ⟨p.thread, a⟩ (k + 1) ∨
      ¬ (p.op = .send ∧ q.op = .send)) (j : Nat) :
    ¬ (tr.SendRace (tr.Before false) j (k + 1) ∧ tr.Noticed (tr.Before false) (k + 1)) := by
  rintro ⟨hrace, hnoticed⟩
  have hsource := h.walked.source_enter (forward (k + 1) q hq)
  obtain ⟨hqop, x, a', hx, ha, hlast⟩ := hrace.source hq hsource
  obtain rfl : a = a' := Option.some.inj (hs.symm.trans ha)
  obtain ⟨p', hp', hpop, -⟩ := hlast.2.1
  obtain rfl : p = p' := Option.some.inj (hp.symm.trans hp')
  rcases hskip with hbefore | hsends
  · refine hnoticed x a ⟨q, hq, hqop, hx⟩ hlast ?_
    exact (h.before_iff forward hq hqop ⟨p, hp, rfl⟩).1 hbefore
  · exact hsends ⟨hpop, hqop⟩

/-- From the first send to a target on there are all sends to it. -/
theorem first_le (h : Gathering tr g threads k w) (hq : tr.stepAt (k + 1) = some q) {x j : Nat}
    (hj : tr.SentTo x j) (hlt : j < k + 1) (a : Nat) :
    ((w.analysis.enter (k + 1) q).1.firstSend[x]?).getD a ≤ j := by
  have hfirst := Analysis.firstSend_enter h.firstSend hq x
  cases hf : (w.analysis.enter (k + 1) q).1.firstSend[x]? with
  | none =>
    rw [hf] at hfirst
    exact absurd hj (hfirst j (by omega))
  | some f =>
    rw [hf] at hfirst
    exact hfirst.2.2 j (by omega) hj

/-- The races that are recorded for a send that is not ordered after the last one before it. -/
theorem mem_found_iff (h : Gathering tr g threads k w) (forward : tr.Forward)
    (hq : tr.stepAt (k + 1) = some q) (hp : tr.stepAt a = some p)
    (hs : (w.analysis.enter (k + 1) q).2 = some a) {e : Entry} (hthread : e.thread = q.thread)
    (htarget : e.target = q.target) (hop : q.op = .send)
    (hbefore : ¬ (w.analysis.enter (k + 1) q).1.happensBefore ⟨p.thread, a⟩ (k + 1)) (j : Nat) :
    j ∈ (List.range' ((e.target.bind ((w.analysis.enter (k + 1) q).1.firstSend[·]?)).getD a)
        (k + 1 - (e.target.bind ((w.analysis.enter (k + 1) q).1.firstSend[·]?)).getD a)).filter
          ((w.enter (k + 1) q).racesWith (k + 1) e) ↔
      tr.SendRace (tr.Before false) j (k + 1) ∧ tr.Noticed (tr.Before false) (k + 1) := by
  have hsource := h.walked.source_enter (forward (k + 1) q hq)
  rw [hs] at hsource
  obtain ⟨x, hx⟩ := hsource.exists_target
  have hex := htarget.trans hx
  have hsent : tr.SentTo x (k + 1) := ⟨q, hq, hop, hx⟩
  rw [Trace.source_send_iff hop hx] at hsource
  have hnoticed : tr.Noticed (tr.Before false) (k + 1) := by
    intro y c hy hlast
    obtain rfl := hsent.eq hy
    obtain rfl := Option.some.inj (hsource.eq hlast)
    rwa [← h.before_iff forward hq hop ⟨p, hp, rfl⟩]
  rw [List.mem_filter, List.mem_range'_1, hex, Option.bind_some]
  constructor
  · rintro ⟨⟨hle, hlt⟩, hrace⟩
    exact ⟨(h.racesWith_iff forward hq hop hthread hex hx (by omega)).1 hrace, hnoticed⟩
  · rintro ⟨hrace, -⟩
    obtain ⟨y, hy, hy'⟩ := hrace.sends
    obtain rfl := hsent.eq hy'
    have hlt := hrace.lt
    have hle := h.first_le hq hy hlt a
    exact ⟨⟨hle, by omega⟩, (h.racesWith_iff forward hq hop hthread hex hx hlt).2 hrace⟩

/-- The races of a step are recorded, if they are to be. -/
theorem visit_races (h : Gathering tr g threads k w) (forward : tr.Forward)
    (hq : tr.stepAt (k + 1) = some q) :
    (Workspace.visit (k + 1)).Ensures w fun _ w' => w.Records tr (k + 1) w' := by
  cases hs : (w.analysis.enter (k + 1) q).2 with
  | none =>
    obtain ⟨l, e, hl, he, hresolved⟩ := h.performs.exists_entry hq
    have hcomes := Workspace.visit_comesTo hl he hresolved
    rw [hs] at hcomes
    refine hcomes.ensures ((yields_set _ _).ensures ⟨[], .nil, fun j => ?_, by simp⟩)
    refine iff_of_false List.not_mem_nil fun ⟨hrace, _⟩ => ?_
    obtain ⟨-, x, a, -, ha, -⟩ :=
      hrace.source hq (h.walked.source_enter (forward (k + 1) q hq))
    simp [hs] at ha
  | some a =>
    obtain ⟨hlt, ⟨p, hp⟩, e, hthread, hop, htarget, hcomes⟩ :=
      h.toClocking.visit_of_source forward hq hs
    obtain ⟨d, hd, hdthread, hdop, -⟩ := Workspace.executed_of_performs h.performs hp
    have hdetect : (Workspace.detect (k + 1) e a).Ensures (w.enter (k + 1) q)
        fun _ v => w.Records tr (k + 1) v := by
      by_cases hskip : (w.enter (k + 1) q).analysis.happensBefore ⟨d.thread, a⟩ (k + 1) ∨
          ¬ (d.op = .send ∧ e.op = .send)
      · have hdetect := Workspace.detect_skip (w := w.enter (k + 1) q) hd hskip
        rw [hdthread, hdop, hop] at hskip
        exact hdetect.ensures ⟨[], .nil, fun j =>
          iff_of_false List.not_mem_nil (h.not_recorded forward hq hp hs hskip j), by simp⟩
      · rw [not_or, not_not] at hskip
        obtain ⟨hbefore, hsends⟩ := hskip
        have hrandom : (w.enter (k + 1) q).randomized := by
          simp [Workspace.randomized, h.generator]
        have hdetect := Workspace.detect_random hrandom hd hbefore hsends
        rw [hdthread] at hbefore
        refine hdetect.ensures ((Workspace.addRaces_ensures _ _ _).mono fun _ v hv =>
          ⟨_, List.Nodup.filter _ List.nodup_range', h.mem_found_iff forward hq hp hs hthread
            (htarget hsends.2) (hop.symm.trans hsends.2) hbefore, hv.trans ?_⟩)
        rw [Analysis.races_enter]
    refine hcomes.ensures ?_
    unfold Workspace.order
    rw [if_neg (Nat.not_le.2 hlt)]
    refine (hdetect.mono fun _ v hv => (yields_modify _ _).ensures ?_).bind
    split <;> exact hv

/-- One step of the walk. -/
theorem visit (h : Gathering tr g threads k w) (forward : tr.Forward) (hk : k < tr.length) :
    (Workspace.visit (k + 1)).Ensures w fun _ w' => Gathering tr g threads (k + 1) w' := by
  intro u w' hyields
  obtain ⟨q, hq⟩ := Trace.exists_stepAt (Nat.succ_pos k) hk
  have clocking := h.toClocking.visit forward hk u w' hyields
  obtain ⟨found, hnodup, hfound, hraces⟩ := h.visit_races forward hq u w' hyields
  refine ⟨clocking, fun x => ?_, ?_, fun race => ?_⟩
  · obtain ⟨l, e, hl, he, hresolved⟩ := h.performs.exists_entry hq
    obtain ⟨-, ⟨races, hanalysis⟩, -, -⟩ := Workspace.visit_ensures hl he hresolved u w' hyields
    rw [hanalysis]
    exact Analysis.firstSend_enter h.firstSend hq x
  · rw [hraces, List.nodup_append]
    refine ⟨h.nodup, hnodup.map fun i j hij => congrArg Race.earlier hij, ?_⟩
    intro race hold race' hnew heq
    obtain ⟨j, -, rfl⟩ := List.mem_map.1 hnew
    have hle := ((h.mem_races race).1 hold).1
    rw [heq] at hle
    exact absurd hle (Nat.not_succ_le_self k)
  · obtain ⟨earlier, later⟩ := race
    rw [hraces, List.mem_append, h.mem_races]
    constructor
    · rintro (⟨hle, hrest⟩ | hnew)
      · exact ⟨Nat.le_succ_of_le hle, hrest⟩
      · obtain ⟨j, hj, heq⟩ := List.mem_map.1 hnew
        obtain ⟨rfl, rfl⟩ := Race.mk.inj heq
        exact ⟨le_rfl, (hfound j).1 hj⟩
    · rintro ⟨hle, hrest⟩
      rcases Nat.lt_or_eq_of_le hle with hlt | heq
      · exact .inl ⟨Nat.le_of_lt_succ hlt, hrest⟩
      · obtain rfl : later = k + 1 := heq
        exact .inr (List.mem_map.2 ⟨earlier, (hfound earlier).2 hrest, rfl⟩)

end Gathering

/-! ## The races that are recorded -/

section Walk

variable {tr : Trace} {w w' : Workspace} {g : Pcg}

/-- The whole walk. -/
theorem walk_gathering (performs : Performs w.schedule.levels tr) (hsteps : w.steps = tr.length)
    (hgenerator : w.generator = some g) :
    Workspace.walk.Ensures w fun _ w' => Gathering tr g w.threads w.steps w' := by
  intro u w' hyields
  have forward := walk_forward performs hsteps u w' hyields
  refine Workspace.walk_ensures (fun k v => Gathering tr g w.threads k v) ?_
    (fun k v hk hv => hv.visit forward (hsteps ▸ hk)) u w' hyields
  refine ⟨⟨performs, hgenerator, rfl, by simp [Workspace.modifyAnalysis, Analysis.reset], ?_⟩,
    fun x => ?_, .nil, fun race => ⟨fun h => absurd h List.not_mem_nil, fun ⟨hle, hrace, _⟩ => ?_⟩⟩
  · exact hsteps ▸ walked_reset (performs.thread_lt_threads rfl)
  · simp only [Workspace.modifyAnalysis, Analysis.reset, Std.TreeMap.getElem?_emptyc]
    rintro i hi ⟨p, hp, -⟩
    exact absurd (Trace.stepAt_pos hp) (by omega)
  · exact absurd (hrace.lt.trans_le hle) (Nat.not_lt_zero _)

/-- When all steps have their clocks, these tell which sends race. -/
theorem Walked.sendRace_iff {sends : Bool} {analysis : Analysis} {a b : Nat}
    (h : Walked (tr.Before sends) tr tr.length analysis) :
    tr.SendRace (analysis.Orders tr) a b ↔ tr.SendRace (tr.Before sends) a b := by
  have horders (hsends : ∃ x, tr.SentTo x a ∧ tr.SentTo x b) :
      analysis.Orders tr a b ↔ tr.Before sends a b := by
    obtain ⟨x, ⟨p, hp, -⟩, q, hq, -⟩ := hsends
    rw [h.orders_iff (Trace.stepAt_pos hq) (Trace.stepAt_le hq)]
    exact and_iff_right ⟨p, hp⟩
  exact ⟨fun hr => ⟨hr.other, hr.lt, hr.sends, fun hb => hr.unordered ((horders hr.sends).2 hb)⟩,
    fun hr => ⟨hr.other, hr.lt, hr.sends, fun hb => hr.unordered ((horders hr.sends).1 hb)⟩⟩

theorem Walked.noticed_iff {sends : Bool} {analysis : Analysis} {b : Nat}
    (h : Walked (tr.Before sends) tr tr.length analysis) :
    tr.Noticed (analysis.Orders tr) b ↔ tr.Noticed (tr.Before sends) b := by
  refine forall_congr' fun x => forall_congr' fun c => forall_congr' fun hsent =>
    forall_congr' fun hlast => not_congr ?_
  obtain ⟨q, hq, -⟩ := hsent
  obtain ⟨p, hp, -⟩ := hlast.2.1
  rw [h.orders_iff (Trace.stepAt_pos hq) (Trace.stepAt_le hq)]
  exact and_iff_right ⟨p, hp⟩

/-- The races that are recorded by the analysis in random mode of a schedule that was built level by
level, each of them once: where the last send to its target does not happen before a send, it races
with every earlier send of another thread to the target that does not. -/
theorem analyse_random_races {directives : List Directive} (built : w.schedule.Built)
    (decided : w.schedule.Decided) (hgenerator : w.generator = some g)
    (hanalyse : Workspace.analyse.Yields w directives w') :
    w'.analysis.races.Nodup ∧ ∀ race, race ∈ w'.analysis.races ↔
      w.schedule.trace.SendRace (w'.analysis.Orders w.schedule.trace) race.earlier race.later ∧
        w.schedule.trace.Noticed (w'.analysis.Orders w.schedule.trace) race.later := by
  have regular := built.regular.2
  have performs := Schedule.performs_trace regular decided
  have hlength := Schedule.length_trace regular decided
  obtain ⟨v, hwalk, hcut, -⟩ := Workspace.analyse_cut built.regular.1.le directives w' hanalyse
  have gathering := walk_gathering performs hlength.symm hgenerator () v hwalk
  have walked := hlength ▸ gathering.walked
  have horders : w'.analysis.Orders w.schedule.trace = v.analysis.Orders w.schedule.trace := by
    obtain ⟨missing, hmissing⟩ := hcut.analysis
    rw [hmissing]
    rfl
  rw [hcut.races, horders]
  refine ⟨gathering.nodup, fun race => ?_⟩
  rw [gathering.mem_races, walked.sendRace_iff, walked.noticed_iff]
  refine and_iff_right_of_imp fun ⟨hrace, _⟩ => ?_
  obtain ⟨x, -, q, hq, -⟩ := hrace.sends
  exact hlength ▸ Trace.stepAt_le hq

/-- The second of two threads sends twice after the first one did. -/
def sentTwice : Workspace where
  analysis := { clocks := ⟨#[], 0, 0⟩ }
  schedule := ⟨[sendLevel 1 (some 0), sendLevel 2 (some 1), sendLevel 3 (some 1)], 3, false⟩
  generator := some ⟨1⟩

/-- Steps 1 and 3 are not ordered, but step 2, the last send before step 3, happens before it. -/
example : (Workspace.walk sentTwice).state.analysis.races = [⟨1, 2⟩] := by rfl

end Walk

end Interleaving
