import Interleaving.Analysis.Backtracking
import Interleaving.Proofs.Clocks
import Interleaving.Proofs.Marks
import Interleaving.Proofs.Yields

/-!
# Candidates for the reversal of a race

To reverse a race, a thread is marked at the earlier step: the thread of the later step, or a thread
that could run there whose first step from there on does not come after the earlier step nor after
the first step of another such thread.

## Main definitions

* `Performs` — the levels of a schedule run the steps of a trace.
* `Trace.FirstAfter`, `Trace.Candidate` — the threads that are candidates.

## Main statements

* `Workspace.candidates_eq_ok` — what is found are the candidates.
* `Workspace.addBacktrackPoint_yields` — one of them is marked.
-/

namespace Interleaving

open Interleaving.Action

/-- What an entry of a level runs as step `k` of a schedule with so many levels. A thread that is
created is the next to appear. -/
def Level.resolved (l : Level) (levels : Nat) (k : Step) (e : Entry) : Pending :=
  { e.toPending with
    target := if e.op = .create ∧ k < levels then some l.entries.length else e.target }

/-- The levels of a schedule run the steps of a trace. -/
def Performs (levels : List Level) (tr : Trace) : Prop :=
  ∀ k p, tr.stepAt k = some p → ∃ l e, levels[k - 1]? = some l ∧ l.selectedEntry = .ok e ∧
    l.resolved levels.length k e = p ∧ l.selected = some p.thread

/-- What is read of a step. -/
theorem Performs.exists_entry {s : Schedule} {tr : Trace} (h : Performs s.levels tr) {j : Nat}
    {q : Pending} (hq : tr.stepAt j = some q) : ∃ l e, s.level j = .ok l ∧
      l.selectedEntry = .ok e ∧ l.resolved s.levels.length j e = q := by
  obtain ⟨l, e, hl, he, hresolved, -⟩ := h j q hq
  refine ⟨l, e, Schedule.level_eq_ok.2 ?_, he, hresolved⟩
  cases j with
  | zero => simp [Trace.stepAt] at hq
  | succ j => exact hl

namespace Trace

variable (tr : Trace)

/-- The first step of a thread after another step. -/
def FirstAfter (a : Nat) (t : ThreadId) (k : Nat) : Prop :=
  a < k ∧ tr.Ran t k ∧ ∀ j, a < j → j < k → ¬ tr.Ran t j

/-- A thread other than that of the later step that may reverse the race of two steps: in the order
`R`, its first step from the earlier one on neither comes after that one nor after the first step of
another thread that is sought. -/
structure ReversesIn (R : Nat → Nat → Prop) (Sought : ThreadId → Prop) (a b : Nat) (t : ThreadId)
    (k : Nat) : Prop where
  sought : Sought t
  first : tr.FirstAfter a t k
  lt : k < b
  unreached : ¬ R a k
  alone : ∀ c i, Sought c → tr.FirstAfter a c i → i < k → ¬ R i k

/-- The same in the order of the steps by links. -/
abbrev Reverses : (ThreadId → Prop) → Nat → Nat → ThreadId → Nat → Prop := tr.ReversesIn tr.Reaches

/-- A thread that may reverse the race of two steps, the later of which is made by `second`. -/
def Candidate (Sought : ThreadId → Prop) (a b : Nat) (second t : ThreadId) : Prop :=
  t = second ∨ ∃ k, tr.Reverses Sought a b t k

end Trace

/-- What a search for candidates, which goes by the order `R`, holds when it has met the steps up to
`j`; it began with the candidates `own`. -/
structure Met (tr : Trace) (R : Nat → Nat → Prop) (Sought : ThreadId → Prop) (a b : Nat)
    (first : ThreadId) (own : List ThreadId) (j : Nat) (search : Search) : Prop where
  sought : ∀ t, t ∈ search.sought ↔ Sought t ∧ ∀ i, a < i → i ≤ j → ¬ tr.Ran t i
  seen : ∀ t i, ⟨t, i⟩ ∈ search.seen ↔
    t = first ∧ i = a ∨ Sought t ∧ tr.FirstAfter a t i ∧ i ≤ j
  candidates : ∀ t, t ∈ search.candidates ↔ t ∈ own ∨ ∃ k ≤ j, tr.ReversesIn R Sought a b t k

section Search

variable {tr : Trace} {R : Nat → Nat → Prop} {Sought : ThreadId → Prop} {a b j : Nat}
  {first t : ThreadId} {own : List ThreadId} {search : Search}

theorem Trace.ran_unique {u : ThreadId} {k : Nat} (h : tr.Ran t k) (h' : tr.Ran u k) : t = u := by
  obtain ⟨p, hp, rfl⟩ := h
  obtain ⟨q, hq, rfl⟩ := h'
  obtain rfl : p = q := by simpa [hp] using hq
  rfl

/-- The candidates up to a step are those up to the step before, and perhaps one more. -/
theorem Trace.exists_reversesIn_succ : (∃ k ≤ j + 1, tr.ReversesIn R Sought a b t k) ↔
    (∃ k ≤ j, tr.ReversesIn R Sought a b t k) ∨ tr.ReversesIn R Sought a b t (j + 1) := by
  constructor
  · rintro ⟨k, hk, hr⟩
    rcases Nat.lt_or_eq_of_le hk with hlt | rfl
    · exact .inl ⟨k, by omega, hr⟩
    · exact .inr hr
  · rintro (⟨k, hk, hr⟩ | hr)
    · exact ⟨k, by omega, hr⟩
    · exact ⟨j + 1, le_rfl, hr⟩

/-- A thread that is sought and makes the next step makes its first one there. -/
theorem Met.firstAfter (h : Met tr R Sought a b first own j search) (haj : a ≤ j)
    (hran : tr.Ran t (j + 1)) (hmem : t ∈ search.sought) : tr.FirstAfter a t (j + 1) :=
  ⟨by omega, hran, fun i hi hij => ((h.sought t).1 hmem).2 i hi (by omega)⟩

/-- A thread to be sought that makes its first step next is still sought. -/
theorem Met.mem_sought (h : Met tr R Sought a b first own j search) (hs : Sought t)
    (hfirst : tr.FirstAfter a t (j + 1)) : t ∈ search.sought :=
  (h.sought t).2 ⟨hs, fun i hi hij => hfirst.2.2 i hi (by omega)⟩

/-- The first step of a thread that is sought reverses the race unless it comes after one that was
seen. -/
theorem Met.reversesIn_iff (h : Met tr R Sought a b first own j search) {analysis : Analysis}
    (haj : a ≤ j) (hjb : j + 1 < b) (hran : tr.Ran t (j + 1)) (hfirst : tr.Ran first a)
    (tells : ∀ u i, tr.Ran u i → (analysis.happensBefore ⟨u, i⟩ (j + 1) ↔ R i (j + 1)))
    (hmem : t ∈ search.sought) (u : ThreadId) : tr.ReversesIn R Sought a b u (j + 1) ↔
      u = t ∧ ¬ search.seen.any (analysis.happensBefore · (j + 1)) := by
  simp only [List.any_eq_true, not_exists, not_and]
  constructor
  · intro hr
    refine ⟨Trace.ran_unique hr.first.2.1 hran, ?_⟩
    rintro ⟨c, i⟩ hseen hbefore
    rcases (h.seen c i).1 hseen with ⟨rfl, rfl⟩ | ⟨hc, hfa, hle⟩
    · exact hr.unreached ((tells _ _ hfirst).1 hbefore)
    · exact hr.alone c i hc hfa (by omega) ((tells _ _ hfa.2.1).1 hbefore)
  · rintro ⟨rfl, hany⟩
    refine ⟨((h.sought u).1 hmem).1, h.firstAfter haj hran hmem, hjb, fun hr => ?_,
      fun c i hc hfa hlt hr => ?_⟩
    · exact hany ⟨first, a⟩ ((h.seen _ _).2 (.inl ⟨rfl, rfl⟩)) ((tells _ _ hfirst).2 hr)
    · exact hany ⟨c, i⟩ ((h.seen _ _).2 (.inr ⟨hc, hfa, by omega⟩)) ((tells _ _ hfa.2.1).2 hr)

/-- The search meets the first step of a thread that is sought. -/
theorem Met.meet_first (h : Met tr R Sought a b first own j search) {analysis : Analysis}
    (haj : a ≤ j) (hjb : j + 1 < b) (hran : tr.Ran t (j + 1)) (hfirst : tr.Ran first a)
    (tells : ∀ u i, tr.Ran u i → (analysis.happensBefore ⟨u, i⟩ (j + 1) ↔ R i (j + 1)))
    (hmem : t ∈ search.sought) :
    Met tr R Sought a b first own (j + 1) (search.meet analysis t (j + 1)) := by
  have hsought := ((h.sought t).1 hmem).1
  rw [Search.meet, if_pos hmem]
  refine ⟨fun u => ?_, fun u i => ?_, fun u => ?_⟩
  · simp only [List.mem_filter, h.sought, ne_eq, decide_not, Bool.not_eq_true',
      decide_eq_false_iff_not]
    constructor
    · rintro ⟨⟨hs, hno⟩, hne⟩
      refine ⟨hs, fun i hi hij hr => ?_⟩
      rcases Nat.lt_or_eq_of_le hij with hlt | rfl
      · exact hno i hi (by omega) hr
      · exact hne (Trace.ran_unique hr hran)
    · rintro ⟨hs, hno⟩
      refine ⟨⟨hs, fun i hi hij => hno i hi (by omega)⟩, ?_⟩
      rintro rfl
      exact hno (j + 1) (by omega) le_rfl hran
  · simp only [List.mem_append, h.seen, List.mem_singleton, Event.mk.injEq]
    constructor
    · rintro ((hfa | ⟨hs, hfa, hle⟩) | ⟨rfl, rfl⟩)
      · exact .inl hfa
      · exact .inr ⟨hs, hfa, by omega⟩
      · exact .inr ⟨hsought, h.firstAfter haj hran hmem, le_rfl⟩
    · rintro (hfa | ⟨hs, hfa, hle⟩)
      · exact .inl (.inl hfa)
      · rcases Nat.lt_or_eq_of_le hle with hlt | rfl
        · exact .inl (.inr ⟨hs, hfa, by omega⟩)
        · exact .inr ⟨Trace.ran_unique hfa.2.1 hran, rfl⟩
  · rw [Trace.exists_reversesIn_succ, h.reversesIn_iff haj hjb hran hfirst tells hmem, ← or_assoc,
      ← h.candidates u]
    by_cases hany : search.seen.any (analysis.happensBefore · (j + 1)) <;> simp [hany]

/-- The search meets a step of a thread that is not sought, or not any more. -/
theorem Met.meet_other (h : Met tr R Sought a b first own j search) {analysis : Analysis}
    (hran : tr.Ran t (j + 1)) (hmem : t ∉ search.sought) :
    Met tr R Sought a b first own (j + 1) (search.meet analysis t (j + 1)) := by
  rw [Search.meet, if_neg hmem]
  refine ⟨fun u => ?_, fun u i => ?_, fun u => ?_⟩
  · rw [h.sought]
    refine and_congr_right fun hs => ⟨fun hno i hi hij hr => ?_, fun hno i hi hij => hno i hi
      (by omega)⟩
    rcases Nat.lt_or_eq_of_le hij with hlt | rfl
    · exact hno i hi (by omega) hr
    · obtain rfl := Trace.ran_unique hr hran
      exact hmem ((h.sought _).2 ⟨hs, hno⟩)
  · rw [h.seen]
    refine or_congr_right ⟨fun h => ⟨h.1, h.2.1, by have := h.2.2; omega⟩, ?_⟩
    rintro ⟨hs, hfa, hle⟩
    rcases Nat.lt_or_eq_of_le hle with hlt | rfl
    · exact ⟨hs, hfa, by omega⟩
    · obtain rfl := Trace.ran_unique hfa.2.1 hran
      exact absurd (h.mem_sought hs hfa) hmem
  · rw [Trace.exists_reversesIn_succ, ← or_assoc, ← h.candidates u]
    refine (or_iff_left_of_imp fun hr => ?_).symm
    obtain rfl := Trace.ran_unique hr.first.2.1 hran
    exact absurd (h.mem_sought hr.sought hr.first) hmem

/-- The search meets one more step. -/
theorem Met.meet (h : Met tr R Sought a b first own j search) {analysis : Analysis} (haj : a ≤ j)
    (hjb : j + 1 < b) (hran : tr.Ran t (j + 1)) (hfirst : tr.Ran first a)
    (tells : ∀ u i, tr.Ran u i → (analysis.happensBefore ⟨u, i⟩ (j + 1) ↔ R i (j + 1))) :
    Met tr R Sought a b first own (j + 1) (search.meet analysis t (j + 1)) := by
  by_cases hmem : t ∈ search.sought
  · exact h.meet_first haj hjb hran hfirst tells hmem
  · exact h.meet_other hran hmem

/-- The search meets the steps of a list. It finds exactly the candidates. -/
theorem Met.run {w : Workspace} (performs : Performs w.schedule.levels tr)
    (hfirst : tr.Ran first a)
    (tells : ∀ k, 0 < k → k < b → ∀ u i, tr.Ran u i →
      (w.analysis.happensBefore ⟨u, i⟩ k ↔ R i k))
    (hb : b ≤ tr.length) (n : Nat) :
    ∀ {j : Nat} {search : Search}, a ≤ j → Met tr R Sought a b first own j search → j + n + 1 = b →
      ∃ found, search.run w (List.range' (j + 1) n) = .ok found ∧
        ∀ t, t ∈ found.candidates ↔ t ∈ own ∨ ∃ k, tr.ReversesIn R Sought a b t k := by
  induction n with
  | zero =>
    intro j search _ h hb
    refine ⟨search, rfl, fun t => (h.candidates t).trans (or_congr_right ?_)⟩
    refine ⟨fun hr => hr.imp fun _ hk => hk.2, ?_⟩
    rintro ⟨k, hk⟩
    have := hk.lt
    exact ⟨k, by omega, hk⟩
  | succ n ih =>
    intro j search haj h hlt
    rw [List.range'_succ, Search.run]
    split
    · next hempty =>
      refine ⟨search, rfl, fun t => (h.candidates t).trans (or_congr_right ?_)⟩
      refine ⟨fun hr => hr.imp fun _ hk => hk.2, ?_⟩
      rintro ⟨k, hk⟩
      refine ⟨k, ?_, hk⟩
      -- a thread that is met later would still be sought
      by_contra hjk
      have hmem := (h.sought t).2 ⟨hk.sought, fun i hi hij => hk.first.2.2 i hi (by omega)⟩
      simp [List.isEmpty_iff.1 hempty] at hmem
    · obtain ⟨p, hp⟩ : ∃ p, tr.stepAt (j + 1) = some p :=
        ⟨tr[j], List.getElem?_eq_getElem (by omega)⟩
      obtain ⟨l, e, hl, -, -, hselected⟩ := performs (j + 1) p hp
      have hlevel : w.schedule.level (j + 1) = .ok l := Schedule.level_eq_ok.2 hl
      have hselection : l.selection = .ok p.thread := Level.selection_eq_ok.2 hselected
      simp only [hlevel, hselection, bind, Except.bind]
      exact ih (by omega) (h.meet haj (by omega) ⟨p, hp, rfl⟩ hfirst
        (tells (j + 1) (Nat.succ_pos j) (by omega))) (by omega)

end Search

/-- The thread could run where the entries are those of the level, and is neither of the two that
race. -/
def Bystander (entries : List Entry) (first second t : ThreadId) : Prop :=
  ∃ e, entries[t]? = some e ∧ e.runnable ∧ t ≠ first ∧ t ≠ second

/-- Marks and sleep do not matter to whether a thread could run. -/
theorem Level.bystander_eq {l l' : Level} (h : l'.pendings = l.pendings) :
    Bystander l'.entries = Bystander l.entries := by
  have key (l : Level) (first second t : ThreadId) : Bystander l.entries first second t ↔
      ∃ p, l.pendings[t]? = some p ∧ p.runnable ∧ t ≠ first ∧ t ≠ second := by
    simp [Bystander, pendings_getElem?, Option.map_eq_some_iff]
  funext first second t
  rw [eq_iff_iff, key, key, h]

namespace Workspace

variable {l : Level}

theorem seeks_iff (dense : l.Dense) {first second t : ThreadId} :
    seeks l first second t ↔ Bystander l.entries first second t := by
  simp only [seeks, List.findRev?_eq_find?_reverse, Option.any_eq_true, Bystander]
  constructor
  · rintro ⟨e, he, hok⟩
    have ht : e.thread = t := by simpa using List.find?_some he
    have hmem : e ∈ l.entries := List.mem_reverse.1 (List.mem_of_find?_eq_some he)
    simp only [Bool.and_eq_true, bne_iff_ne, ne_eq, ht] at hok
    exact ⟨e, ht ▸ dense.getElem? hmem, hok.2, hok.1.1, hok.1.2⟩
  · rintro ⟨e, he, hrun, hfirst, hsecond⟩
    have ht := dense t e he
    have hsome : (l.entries.reverse.find? (·.thread == t)).isSome := by
      rw [List.find?_isSome]
      exact ⟨e, List.mem_reverse.2 (List.mem_of_getElem? he), by simpa using ht⟩
    obtain ⟨f, hf⟩ := Option.isSome_iff_exists.1 hsome
    have hft : f.thread = t := by simpa using List.find?_some hf
    have hfe := dense.getElem? (List.mem_reverse.1 (List.mem_of_find?_eq_some hf))
    rw [hft, he, Option.some.injEq] at hfe
    subst hfe
    exact ⟨e, hf, by simp [ht, hfirst, hsecond, hrun]⟩

/-- The candidates that are found are the thread of the later step, if it could run at the earlier
one, and the threads that may reverse the race. -/
theorem candidates_eq_ok {w : Workspace} {tr : Trace} {R : Nat → Nat → Prop} {a b : Nat}
    {first : ThreadId}
    (second : ThreadId)
    (performs : Performs w.schedule.levels tr) (hfirst : tr.Ran first a) (hab : a < b)
    (hb : b ≤ tr.length)
    (tells : ∀ k, 0 < k → k < b → ∀ u i, tr.Ran u i →
      (w.analysis.happensBefore ⟨u, i⟩ k ↔ R i k))
    (threads : ∀ u i, tr.Ran u i → u < w.analysis.clocks.width)
    (hl : w.schedule.level a = .ok l) (dense : l.Dense) :
    ∃ found, w.candidates ⟨a, b⟩ first second = .ok found ∧
      ∀ t, t ∈ found ↔ (t = second ∧ ∃ e, l.entries[second]? = some e ∧ e.runnable) ∨
        ∃ k, tr.ReversesIn R (Bystander l.entries first second) a b t k := by
  let own := if l.entries[second]?.any (·.runnable) then [second] else []
  let sought := (List.range w.analysis.clocks.width).filter (seeks l first second)
  let Sought (t : ThreadId) : Prop :=
    t < w.analysis.clocks.width ∧ Bystander l.entries first second t
  have hsought : ∀ t, t ∈ sought ↔ Sought t := by
    simp [sought, Sought, seeks_iff dense]
  have met : Met tr R Sought a b first own a ⟨sought, [⟨first, a⟩], own⟩ := by
    refine ⟨fun t => ?_, fun t i => ?_, fun t => ?_⟩
    · rw [hsought]
      exact ⟨fun h => ⟨h, fun i hi hia => by omega⟩, fun h => h.1⟩
    · simp only [List.mem_singleton, Event.mk.injEq]
      refine ⟨.inl, ?_⟩
      rintro (h | ⟨-, hfa, hle⟩)
      · exact h
      · have := hfa.1
        omega
    · refine ⟨.inl, ?_⟩
      rintro (h | ⟨k, hk, hr⟩)
      · exact h
      · have := hr.first.1
        omega
  obtain ⟨found, hfound, hcandidates⟩ := met.run performs hfirst tells hb (b - (a + 1)) le_rfl
    (by omega)
  refine ⟨found.candidates, ?_, fun t => (hcandidates t).trans (or_congr ?_ ?_)⟩
  · simp only [candidates, hl, bind, Except.bind]
    rw [show Search.run w _ _ = Except.ok found from hfound]
    rfl
  · simp only [own, Option.any_eq_true]
    split
    · next hrun => simp [hrun]
    · next hrun => simp [hrun]
  -- a thread that makes a step is among those of the clocks
  · refine exists_congr fun k => ⟨fun hk => ?_, fun hk => ?_⟩
    · exact ⟨hk.sought.2, hk.first, hk.lt, hk.unreached,
        fun c i hc hfa => hk.alone c i ⟨threads c i hfa.2.1, hc⟩ hfa⟩
    · exact ⟨⟨threads t k hk.first.2.1, hk.sought⟩, hk.first, hk.lt, hk.unreached,
        fun c i hc hfa => hk.alone c i hc.2 hfa⟩

/-- If the entry of a candidate is there, one of the candidates is preferred. -/
theorem preferred?_eq_some (start : Nat) {width position : Nat} {candidates : List ThreadId}
    {e : Entry} (hposition : position < width) (he : l.entries[position]? = some e)
    (hmem : e.thread ∈ candidates) :
    ∃ i f, preferred? l width candidates start = some (i, f) ∧ l.entries[i]? = some f ∧
      f.thread ∈ candidates := by
  let fitting := ((Level.turn start width).filterMap fun position =>
    l.entries[position]?.map fun e => (position, e)).filter fun r => r.2.thread ∈ candidates
  have fits : ∀ {i : Nat} {f : Entry}, (i, f) ∈ fitting →
      l.entries[i]? = some f ∧ f.thread ∈ candidates := by
    intro i f h
    simp only [fitting, List.mem_filter, List.mem_filterMap, Option.map_eq_some_iff,
      decide_eq_true_eq] at h
    obtain ⟨⟨j, -, g, hg, heq⟩, hf⟩ := h
    obtain ⟨rfl, rfl⟩ := Prod.mk.inj heq
    exact ⟨hg, hf⟩
  have hfitting : (position, e) ∈ fitting := by
    simp only [fitting, List.mem_filter, List.mem_filterMap, Option.map_eq_some_iff,
      decide_eq_true_eq]
    exact ⟨⟨position, Level.mem_turn.2 hposition, e, he, rfl⟩, hmem⟩
  have preferred : preferred? l width candidates start =
      ((fitting.find? fun r => r.2.asleep) <|> (fitting.find? fun r => r.2.enabled) <|>
        fitting.head?) := rfl
  rw [preferred]
  cases hasleep : fitting.find? fun r => r.2.asleep with
  | some r => exact ⟨r.1, r.2, rfl, fits (List.mem_of_find?_eq_some hasleep)⟩
  | none =>
    cases henabled : fitting.find? fun r => r.2.enabled with
    | some r => exact ⟨r.1, r.2, rfl, fits (List.mem_of_find?_eq_some henabled)⟩
    | none =>
      cases hfit : fitting with
      | nil => simp [hfit] at hfitting
      | cons r rest =>
        have hr : r ∈ fitting := hfit ▸ List.mem_cons_self
        exact ⟨r.1, r.2, rfl, fits hr⟩

/-- Some candidate is marked at the earlier step of a race. -/
theorem addBacktrackPoint_yields {σ : Type} {S : Setting σ} {w : Workspace} {a b : Nat}
    {first second u : ThreadId} {found : List ThreadId} (hl : w.schedule.level a = .ok l)
    (hfound : w.candidates ⟨a, b⟩ first second = .ok found) (hu : u ∈ found)
    {e : Entry} (he : l.entries[u]? = some e) (dense : l.Dense)
    (hwidth : u < w.analysis.clocks.width)
    (hmay : ∀ t ∈ found, ∀ f, l.entries[t]? = some f → S.may f.toPending) :
    ∃ levels, (addBacktrackPoint ⟨a, b⟩ first second).Yields w ()
        { w with schedule := { w.schedule with levels } } ∧ S.Marks w.schedule.levels levels ∧
      ∃ l' t f, levels[a - 1]? = some l' ∧ l'.entries[t]? = some f ∧ f.marked ∧ t ∈ found := by
  obtain ⟨position, rfl, hlevel⟩ := Schedule.exists_of_level_eq_ok hl
  rw [Nat.add_sub_cancel]
  have hempty : found.isEmpty = false := by
    cases found with
    | nil => simp at hu
    | cons => rfl
  unfold addBacktrackPoint
  by_cases hmarked : l.entries.any fun e => decide (e.thread ∈ found) && e.marked
  · obtain ⟨f, hf, hok⟩ := List.any_eq_true.1 hmarked
    simp only [Bool.and_eq_true, decide_eq_true_eq] at hok
    refine ⟨w.schedule.levels, ?_, .refl _, l, f.thread, f, hlevel, dense.getElem? hf, hok.2,
      hok.1⟩
    refine (yields_get _).bind ((yields_lift hfound _).bind ?_)
    simp only [hempty, Bool.false_eq_true, if_false]
    refine (yields_lift hl _).bind ?_
    simp only [hmarked, if_true]
    exact yields_pure _ _
  · obtain ⟨i, f, hpreferred, hf, hmem⟩ := preferred?_eq_some second hwidth he
      (by rwa [dense u e he])
    have hi := dense i f hf
    refine ⟨w.schedule.levels.modify position (·.modifyEntry i Entry.mark), ?_, .modify ?_,
      l.modifyEntry i Entry.mark, i, f.mark, ?_, ?_, rfl, hi ▸ hmem⟩
    · refine (yields_get _).bind ((yields_lift hfound _).bind ?_)
      simp only [hempty, Bool.false_eq_true, if_false]
      refine (yields_lift hl _).bind ?_
      simp only [hmarked, Bool.false_eq_true, if_false, hpreferred]
      exact (yields_notify _ _).bind (yields_set _ _)
    · intro m hm
      obtain rfl : l = m := by simpa [hlevel] using hm
      refine ⟨rfl, fun j => ?_⟩
      rw [Level.getElem?_modifyEntry]
      by_cases hj : j = i
      · subst hj
        exact .inr ⟨f, hf, hmay f.thread hmem f (hi.symm ▸ hf), by simp [hf]⟩
      · left
        cases l.entries[j]? <;> simp [hj]
    · simp [hlevel]
    · simp [hf]

end Workspace

end Interleaving
