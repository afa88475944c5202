import Interleaving.Proofs.Reversals

/-!
# The walk over a schedule in random mode

In random mode the walk changes nothing but the tables of the analysis. The clocks tell which steps
happen before which, and what is recorded are races of the run.

## Main definitions

* `RaceWalking` — the walk after so many steps.

## Main statements

* `RaceWalking.visit` — one step of the walk.
* `race_walk_yields` — the whole walk.
-/

namespace Interleaving

/-- The workspace with other races. -/
def Workspace.withRaces (w : Workspace) (races : List Race) : Workspace :=
  { w with analysis := { w.analysis with races } }

@[simp] theorem Workspace.happensBefore_withRaces (w : Workspace) (races : List Race) (e : Event)
    (k : Step) :
    (w.withRaces races).analysis.happensBefore e k = w.analysis.happensBefore e k := rfl

namespace Actors

open Interleaving.Action Machine

/-- The walk in random mode after the first `k` steps of a run. -/
structure RaceWalking (scripts : List Script) (xs : List Move) (s : Schedule) (g : Pcg) (k : Nat)
    (w : Workspace) : Prop where
  schedule : w.schedule = s
  generator : w.generator = some g
  walked : Walked ((load scripts).HappensBefore xs) ((load scripts).steps s.levels.length xs) k
    w.analysis
  firstSend : ∀ inbox i : Nat, w.analysis.firstSend[inbox]? = some i → 0 < i
  races : ∀ race ∈ w.analysis.races, (load scripts).HasRace xs race
  missing : w.analysis.missing = []

section Race

variable {scripts : List Script} {xs : List Move} {levels : Nat}

/-- A step that is a send runs a send. -/
theorem send_of_shown (joinless : Joinless scripts) (h : (load scripts).Executes xs) {n : Nat}
    {x : Move} (hx : xs[n]? = some x)
    (hop : (((load scripts).moves (xs.take n)).shown levels (n + 1) x).op = .send) :
    ∃ inbox, x.instruction = .send inbox ∧
      (((load scripts).moves (xs.take n)).shown levels (n + 1) x).target = some inbox := by
  have hpasses := h.passes_at (orderly_load joinless.ordinary) rfl joinless hx
  cases hi : x.instruction with
  | send inbox => exact ⟨inbox, rfl, by simp [Machine.shown, hi, pending]⟩
  | _ => simp [Machine.shown, hi, pending, Instruction.joinless] at hop hpasses

/-- Two sends of different actors to the same target race if the later one does not happen after the
earlier one. -/
theorem hasRace_of_steps (joinless : Joinless scripts) (h : (load scripts).Executes xs)
    {a b : Nat} {p q : Pending} (hab : a < b)
    (hp : ((load scripts).steps levels xs).stepAt a = some p)
    (hq : ((load scripts).steps levels xs).stepAt b = some q) (hsends : p.op = .send ∧ q.op = .send)
    (htarget : p.target = q.target) (hthread : p.thread ≠ q.thread)
    (hunordered : ¬ (load scripts).HappensBefore xs a b) :
    (load scripts).HasRace xs ⟨a, b⟩ := by
  obtain ⟨i, x, rfl, hx, rfl⟩ := exists_of_stepAt_steps hp
  obtain ⟨j, y, rfl, hy, rfl⟩ := exists_of_stepAt_steps hq
  obtain ⟨inbox, hsend, hinbox⟩ := send_of_shown joinless h hx hsends.1
  obtain ⟨inbox', hsend', hinbox'⟩ := send_of_shown joinless h hy hsends.2
  rw [hinbox, hinbox', Option.some.injEq] at htarget
  subst htarget
  rw [thread_shown, thread_shown] at hthread
  exact ⟨⟨i, j, x, y, inbox, rfl, by omega, hx, hy, hsend, hsend', hthread⟩, hunordered⟩

end Race

section Walk

variable {scripts : List Script} {G : List Level} {xs : List Move} {s : Schedule} {g : Pcg}
  {k : Nat} {w : Workspace}

/-- What the walk reads of a step. -/
theorem Along.executed (along : Along scripts G xs) (hlevels : w.schedule.levels = G) {j : Nat}
    {p : Pending} (hp : ((load scripts).steps G.length xs).stepAt j = some p) :
    ∃ l e, w.schedule.level j = .ok l ∧ l.selectedEntry = .ok e ∧ w.executed j = .ok e ∧
      l.resolved G.length j e = p := by
  subst hlevels
  obtain ⟨l, e, hl, he, hresolved⟩ := along.performs.exists_entry hp
  exact ⟨l, e, hl, he, by simp [Workspace.executed, hl, he, bind, Except.bind], hresolved⟩

/-- The races of a send with those before it are added. -/
theorem addRaces_yields (joinless : Joinless scripts) (along : Along scripts G xs)
    (hlevels : w.schedule.levels = G) {a b : Nat} {e : Entry} {q : Pending} (ha : 0 < a)
    (hfirst : ∀ inbox i : Nat, w.analysis.firstSend[inbox]? = some i → 0 < i)
    (hq : ((load scripts).steps G.length xs).stepAt b = some q) (hop : q.op = .send)
    (hthread : q.thread = e.thread) (htarget : q.target = e.target)
    (before : ∀ t i, ((load scripts).steps G.length xs).Ran t i →
      (w.analysis.happensBefore ⟨t, i⟩ b ↔ (load scripts).HappensBefore xs i b))
    (races : ∀ race ∈ w.analysis.races, (load scripts).HasRace xs race) :
    ∃ found, (Workspace.addRaces b e a).Yields w () (w.withRaces found) ∧
      ∀ race ∈ found, (load scripts).HasRace xs race := by
  obtain ⟨start, hstart, hpos⟩ : ∃ start : Nat,
      (e.target.bind (w.analysis.firstSend[·]?)).getD a = start ∧ 0 < start := by
    cases hsent : e.target.bind (w.analysis.firstSend[·]?) with
    | none => exact ⟨a, rfl, ha⟩
    | some i =>
      obtain ⟨inbox, -, hi⟩ := Option.bind_eq_some_iff.1 hsent
      exact ⟨i, rfl, hfirst inbox i hi⟩
  have hb := Trace.stepAt_le hq
  -- only the races change
  let P (v : Workspace) : Prop := ∃ found, v = w.withRaces found ∧
    ∀ race ∈ found, (load scripts).HasRace xs race
  suffices h : ∃ v, (Workspace.addRaces b e a).Yields w () v ∧ P v by
    obtain ⟨v, hyields, found, rfl, hfound⟩ := h
    exact ⟨found, hyields, hfound⟩
  refine Exists.imp (p := fun v => Yields _ w () v ∧ P v)
    (fun v hv => ⟨(yields_get _).bind hv.1, hv.2⟩) ?_
  rw [hstart]
  refine yields_each (fun _ => P) ⟨w.analysis.races, rfl, races⟩ fun k (j : Nat) v hj hv => ?_
  obtain ⟨found, rfl, hfound⟩ := hv
  have hjb : 0 < j ∧ j < b := by
    obtain ⟨hle, hlt⟩ : start ≤ j ∧ j < start + (b - start) :=
      List.mem_range'_1.1 (List.mem_of_getElem? hj)
    omega
  obtain ⟨p, hp⟩ := ((load scripts).steps G.length xs).exists_stepAt hjb.1
    (hjb.2.le.trans hb)
  obtain ⟨l, d, -, -, hd, hresolved⟩ := along.executed (w := w.withRaces found) hlevels hp
  have hpthread : p.thread = d.thread := by rw [← hresolved]; rfl
  have hpop : p.op = d.op := by rw [← hresolved]; rfl
  by_cases hrace : d.op = .send ∧ d.target = e.target ∧ d.thread ≠ e.thread ∧
      !w.analysis.happensBefore ⟨d.thread, j⟩ b
  · refine ⟨_, (yields_get _).bind ((yields_lift hd _).bind ?_), found ++ [⟨j, b⟩], rfl,
      fun race hmem => ?_⟩
    · rw [Workspace.happensBefore_withRaces, if_pos hrace]
      exact (yields_notify _ _).bind (yields_set _ _)
    · rcases List.mem_append.1 hmem with hmem | hmem
      · exact hfound race hmem
      · rw [List.mem_singleton.1 hmem]
        obtain ⟨hsend, hsame, hother, hunordered⟩ := hrace
        have hptarget : p.target = d.target := by
          rw [← hresolved, Level.resolved, if_neg (by simp [hsend])]
        refine hasRace_of_steps joinless along.executes hjb.2 hp hq ⟨hpop.trans hsend, hop⟩
          (hptarget.trans (hsame.trans htarget.symm)) ?_ fun hbefore => ?_
        · rw [hpthread, hthread]
          exact hother
        · rw [← before d.thread j ⟨p, hp, hpthread⟩] at hbefore
          simp [hbefore] at hunordered
  · refine ⟨_, (yields_get _).bind ((yields_lift hd _).bind ?_), found, rfl, hfound⟩
    rw [Workspace.happensBefore_withRaces, if_neg hrace]
    exact yields_pure _ _

/-- Whatever other races there are, the tables are the same. -/
theorem entered_withRaces {R : Nat → Nat → Prop} {tr : Trace} {previous : Option Nat}
    (h : Entered R tr k previous w.analysis) (races : List Race) :
    Entered R tr k previous (w.withRaces races).analysis :=
  ⟨h.roomy, h.rows, h.threads, h.lastStep, h.lastSend, h.lastLifecycle, h.clocks, h.row⟩

/-- A step is compared with the one it is to be ordered after. If the two are sends that race, all
races of the step are added. -/
theorem detect_races (joinless : Joinless scripts) (along : Along scripts G xs)
    (hlevels : w.schedule.levels = G) (hgenerator : w.generator = some g) {previous : Option Nat}
    {a : Nat} {e : Entry} {q : Pending}
    (entered : Entered ((load scripts).HappensBefore xs) ((load scripts).steps G.length xs) k
      previous w.analysis)
    (hfirst : ∀ inbox i : Nat, w.analysis.firstSend[inbox]? = some i → 0 < i)
    (races : ∀ race ∈ w.analysis.races, (load scripts).HasRace xs race)
    (hq : ((load scripts).steps G.length xs).stepAt (k + 1) = some q)
    (hthread : q.thread = e.thread) (hop : q.op = e.op)
    (htarget : e.op = .send → q.target = e.target)
    (hthrough : q.op = .send →
      ComesThrough ((load scripts).HappensBefore xs) (k + 1) previous none)
    (ha : 0 < a) (hak : a < k + 1) :
    ∃ found, (Workspace.detect (k + 1) e a).Yields w () (w.withRaces found) ∧
      ∀ race ∈ found, (load scripts).HasRace xs race := by
  obtain ⟨p, hp⟩ := ((load scripts).steps G.length xs).exists_stepAt ha
    (hak.le.trans (Trace.stepAt_le hq))
  obtain ⟨l, d, -, -, hd, -⟩ := along.executed hlevels hp
  by_cases hskip : w.analysis.happensBefore ⟨d.thread, a⟩ (k + 1) ∨
      ¬ (d.op = .send ∧ e.op = .send)
  · exact ⟨w.analysis.races, Workspace.detect_skip hd hskip, races⟩
  · rw [not_or, not_not] at hskip
    obtain ⟨hunordered, hsends⟩ := hskip
    have hsend := hsends.2
    have before (t i : Nat) (hran : ((load scripts).steps G.length xs).Ran t i) :
        w.analysis.happensBefore ⟨t, i⟩ (k + 1) ↔ (load scripts).HappensBefore xs i (k + 1) := by
      rw [entered.happensBefore_iff hran, hthrough (hop.trans hsend) i]
      simp
    obtain ⟨found, hyields, hfound⟩ := addRaces_yields joinless along hlevels ha hfirst hq
      (hop.trans hsend) hthread (htarget hsend) before races
    have hrandom : w.randomized := by simp [Workspace.randomized, hgenerator]
    exact ⟨found, (Workspace.detect_random hrandom hd hunordered hsends).yields_iff.2 hyields,
      hfound⟩

/-- A step is ordered after the one it was compared with, unless the two are sends. -/
theorem order_races (hgenerator : w.generator = some g) {a : Nat} {e : Entry} {found : List Race}
    (hak : a < k + 1)
    (hdetect : (Workspace.detect (k + 1) e a).Yields w () (w.withRaces found)) :
    (Workspace.order (k + 1) e a).Yields w () (if e.op = .send then w.withRaces found
      else (w.withRaces found).modifyAnalysis (·.join (k + 1) a)) := by
  unfold Workspace.order
  rw [if_neg (Nat.not_le.2 hak)]
  refine hdetect.bind ⟨[], ?_⟩
  have hrandom : (w.withRaces found).randomized = true := by
    simp [Workspace.randomized, Workspace.withRaces, hgenerator]
  by_cases hsend : e.op = .send <;> simp [hrandom, hsend]

/-! ## Other tables -/

@[simp] theorem missing_enter (a : Analysis) (i : Step) (q : Pending) :
    (a.enter i q).1.missing = a.missing := by
  unfold Analysis.enter
  split
  · rfl
  · cases q.op <;> rfl

theorem firstSend_enter {a : Analysis} {n : Nat} {q : Pending}
    (h : ∀ inbox i : Nat, a.firstSend[inbox]? = some i → 0 < i) :
    ∀ inbox i : Nat, (a.enter (n + 1) q).1.firstSend[inbox]? = some i → 0 < i := by
  intro inbox i hi
  unfold Analysis.enter at hi
  split at hi
  · exact h inbox i hi
  · next target _ =>
    cases hop : q.op <;> simp only [hop, Analysis.access] at hi <;> try exact h inbox i hi
    simp only [Analysis.begin, Std.TreeMap.getElem?_insertIfNew] at hi
    split at hi
    · obtain rfl := Option.some.inj hi
      exact Nat.succ_pos n
    · exact h inbox i hi

/-- One step of the walk. -/
theorem RaceWalking.visit (joinless : Joinless scripts) (along : Along scripts s.levels xs)
    (h : RaceWalking scripts xs s g k w) (hk : k < xs.length) :
    ∃ w', (Workspace.visit (k + 1)).Yields w () w' ∧ RaceWalking scripts xs s g (k + 1) w' := by
  have hy : xs[k]? = some xs[k] := List.getElem?_eq_getElem hk
  have hlevels : w.schedule.levels = s.levels := by rw [h.schedule]
  obtain ⟨q, hshown, hq⟩ : ∃ q,
      ((load scripts).moves (xs.take k)).shown s.levels.length (k + 1) xs[k] = q ∧
        ((load scripts).steps s.levels.length xs).stepAt (k + 1) = some q :=
    ⟨_, rfl, by rw [stepAt_steps, hy, Option.map_some]⟩
  obtain ⟨l, e, hlevel, he, -, hresolved⟩ := along.executed hlevels hq
  obtain ⟨previous, hlast, entered⟩ := h.walked.enter order_happensBefore hq
  have hsource := h.walked.source_enter ((along.calm joinless.ordinary).receive (k + 1) _ hq)
  have hthrough := comesThrough_happensBefore joinless along.executes along.length_le hy
    (by rwa [← hshown, thread_shown] at hlast) (hshown ▸ hsource)
  rw [hshown] at hthrough
  have hquiesce := (along.calm joinless.ordinary).quiesce _ (Trace.mem_of_stepAt hq)
  have hthread : q.thread = e.thread := by rw [← hresolved]; rfl
  have hop : q.op = e.op := by rw [← hresolved]; rfl
  have htarget : e.op = .send → q.target = e.target := by
    intro hsend
    rw [← hresolved, Level.resolved, if_neg (by simp [hsend])]
  have hvisit {w' : Workspace} := @visit_yields w (k + 1) l e w' hlevel he (hop ▸ hquiesce)
  rw [hlevels, hresolved] at hvisit
  have hfirst := firstSend_enter (n := k) (q := q) h.firstSend
  have hraces := Analysis.races_enter w.analysis (k + 1) q
  have hmissing := missing_enter w.analysis (k + 1) q
  generalize w.analysis.enter (k + 1) q = entry at *
  obtain ⟨analysis, source⟩ := entry
  simp only at hfirst hraces hmissing entered hsource hthrough
  cases source with
  | none =>
    refine ⟨_, hvisit (yields_pure _ _), h.schedule, h.generator, entered.walked hq ?_, hfirst,
      ?_, ?_⟩
    · simpa using hthrough
    · simpa [hraces] using h.races
    · exact hmissing.trans h.missing
  | some a =>
    have hlinked := hsource.linked hq
    obtain ⟨found, hdetect, hfound⟩ := detect_races (w := { w with analysis }) joinless along
      hlevels h.generator entered hfirst (by simpa [hraces] using h.races) hq hthread hop htarget
      (fun hsend => by simpa [hsend] using hthrough) hlinked.pos hlinked.1
    have horder := order_races (w := { w with analysis }) h.generator hlinked.1 hdetect
    refine ⟨_, hvisit horder, ?_⟩
    have entered' := entered_withRaces (w := { w with analysis }) entered found
    by_cases hsend : e.op = .send
    · rw [if_pos hsend]
      refine ⟨h.schedule, h.generator, entered'.walked hq ?_, hfirst, hfound,
        hmissing.trans h.missing⟩
      simpa [hop.trans hsend] using hthrough
    · rw [if_neg hsend]
      refine ⟨h.schedule, h.generator, entered'.walked_join hq ?_ hlinked.pos hlinked.1, hfirst,
        hfound, hmissing.trans h.missing⟩
      simpa [hop, hsend] using hthrough

/-- The whole walk. All steps have their clocks at its end, and what is recorded are races. -/
theorem race_walk_yields (joinless : Joinless scripts) (along : Along scripts w.schedule.levels xs)
    (hgenerator : w.generator = some g) (hsteps : w.steps = xs.length) :
    ∃ w', Workspace.walk.Yields w () w' ∧ RaceWalking scripts xs w.schedule g xs.length w' := by
  have start : RaceWalking scripts xs w.schedule g 0
      (w.modifyAnalysis (·.reset w.steps w.threads)) := by
    refine ⟨rfl, hgenerator, ?_, ?_, by simp [Workspace.modifyAnalysis, Analysis.reset], rfl⟩
    · have := walked_reset (R := (load scripts).HappensBefore xs) (a := w.analysis)
        (along.performs.thread_lt_threads rfl)
      rwa [length_steps, ← hsteps] at this
    · simp [Workspace.modifyAnalysis, Analysis.reset]
  have hwalk := Workspace.exists_walk_yields
    (fun k v => RaceWalking scripts xs w.schedule g k v) start
    fun k v hk hv => hv.visit joinless along (hsteps ▸ hk)
  rwa [hsteps] at hwalk

end Walk

end Actors

end Interleaving
