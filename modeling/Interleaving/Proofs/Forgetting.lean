import Interleaving.Proofs.HappensBefore

/-!
# What an analysis leaves behind

The tables of an analysis are used again for the next one, and the buffer with the clocks is not
cleared in between: its rows hold what was left there, laid out with another width. No row is read
before it was written in the same analysis, so that an analysis does not depend on those before it,
wherever it ends and whether or not it ends with a fault.

## Main definitions

* `ClockTable.Agrees` — the first rows of two tables hold the same.
* `Workspace.StandsIn`, `Workspace.Twins` — a workspace with other clocks cannot be told apart yet.
* `Analysis.Reached`, `Analysis.Same` — the steps that were analysed, and equal tables.

## Main statements

* `Workspace.StandsIn.visit`, `Workspace.walk_alike` — one step of the walk, and all of it.
* `Workspace.StandsIn.reverse` — the reversal of a race.
* `Workspace.analyse_forgets` — an analysis does not depend on the tables that it starts from.
-/

namespace Interleaving

open Interleaving.Action

/-! ## Rows that agree -/

namespace ClockTable

/-- Two tables of the same shape hold the same in the first `k` rows. What they hold behind these
may be anything. -/
structure Agrees (k : Nat) (A C : ClockTable) : Prop where
  roomy : A.Roomy
  roomy' : C.Roomy
  width : C.width = A.width
  rows : C.rows = A.rows
  cells : ∀ j t : Nat, 0 < j → j ≤ k → t < A.width → C.get j t = A.get j t

variable {k step source : Nat} {A C A' C' : ClockTable}

theorem agrees_reset (A C : ClockTable) (rows width : Nat) :
    Agrees 0 (A.reset rows width) (C.reset rows width) :=
  ⟨roomy_reset _ _ _, roomy_reset _ _ _, rfl, rfl, by omega⟩

namespace Agrees

/-- The row of a step is made of the same in both tables. The rows before it agree, so that they do
up to it. -/
theorem filled {g : Nat → Nat → Nat} (h : Agrees k A C)
    (hA : Filled A (k + 1) source g A.width A') (hC : Filled C (k + 1) source g C.width C')
    (hg : ∀ t < A.width, g (C.get (k + 1) t) (C.get source t) =
      g (A.get (k + 1) t) (A.get source t)) : Agrees (k + 1) A' C' where
  roomy := hA.roomy h.roomy
  roomy' := hC.roomy h.roomy'
  width := by rw [hC.width, hA.width, h.width]
  rows := by rw [hC.rows, hA.rows, h.rows]
  cells := by
    intro j t hpos hle ht
    rw [hA.width] at ht
    rcases Nat.lt_or_eq_of_le hle with hlt | rfl
    · rw [hC.others j t hpos (by omega) (h.width ▸ ht), hA.others j t hpos (by omega) ht]
      exact h.cells j t hpos (by omega) ht
    · rw [hC.done t (h.width ▸ ht), hA.done t ht]
      exact hg t ht

theorem hasRow (h : Agrees k A C) (hs : A.HasRow step) : C.HasRow step := by
  simpa [HasRow, h.rows] using hs

theorem clear (h : Agrees k A C) (hs : A.HasRow (k + 1)) :
    Agrees (k + 1) (A.clear (k + 1)) (C.clear (k + 1)) :=
  h.filled (filled_clear h.roomy hs) (filled_clear h.roomy' (h.hasRow hs)) fun _ _ => rfl

theorem copy (h : Agrees k A C) (hs : A.HasRow (k + 1)) (hpos : 0 < source) (hle : source ≤ k) :
    Agrees (k + 1) (A.copy source (k + 1)) (C.copy source (k + 1)) :=
  h.filled (filled_copy h.roomy hs hpos) (filled_copy h.roomy' (h.hasRow hs) hpos)
    fun t ht => h.cells source t hpos hle ht

theorem mono {n : Nat} (h : Agrees k A C) (hn : n ≤ k) : Agrees n A C :=
  ⟨h.roomy, h.roomy', h.width, h.rows, fun j t hpos hle => h.cells j t hpos (hle.trans hn)⟩

theorem join (h : Agrees (k + 1) A C) (hs : A.HasRow (k + 1)) (hpos : 0 < source)
    (hle : source ≤ k) : Agrees (k + 1) (A.join (k + 1) source) (C.join (k + 1) source) := by
  refine (h.mono (Nat.le_succ k)).filled (filled_join h.roomy hs hpos)
    (filled_join h.roomy' (h.hasRow hs) hpos) fun t ht => ?_
  rw [h.cells (k + 1) t (Nat.succ_pos k) le_rfl ht, h.cells source t hpos (by omega) ht]

/-- Rows are joined one by one, which does not change the shape of a table. -/
theorem joins (h : Agrees (k + 1) A C) (hs : A.HasRow (k + 1)) {sources : List Nat}
    (hsources : ∀ j ∈ sources, 0 < j ∧ j ≤ k) :
    Agrees (k + 1) (sources.foldl (fun table j => table.join (k + 1) j) A)
        (sources.foldl (fun table j => table.join (k + 1) j) C) ∧
      (sources.foldl (fun table j => table.join (k + 1) j) A).width = A.width ∧
      (sources.foldl (fun table j => table.join (k + 1) j) A).rows = A.rows := by
  induction sources generalizing A C with
  | nil => exact ⟨h, rfl, rfl⟩
  | cons j rest ih =>
    obtain ⟨hpos, hle⟩ := hsources j (List.mem_cons_self ..)
    have hfilled := filled_join h.roomy hs hpos
    rw [← hfilled.width, ← hfilled.rows]
    exact ih (h.join hs hpos hle) (hfilled.hasRow hs) fun i hi =>
      hsources i (List.mem_cons_of_mem _ hi)

theorem put (h : Agrees k A C) (hs : A.HasRow step) {t : ThreadId} (ht : t < A.width)
    (value : Nat) : Agrees k (A.put step t value) (C.put step t value) where
  roomy := h.roomy.put _ _ _
  roomy' := h.roomy'.put _ _ _
  width := h.width
  rows := h.rows
  cells := by
    intro j u hpos hle hu
    by_cases hsame : j = step ∧ u = t
    · obtain ⟨rfl, rfl⟩ := hsame
      rw [get_put_self (offset_lt h.roomy hs ht),
        get_put_self (offset_lt h.roomy' (h.hasRow hs) (h.width ▸ ht))]
    · have hne : j ≠ step ∨ u ≠ t := by omega
      rw [get_put_of_ne (offset_ne hs.1 hpos ht hu hne), get_put_of_ne
        (offset_ne hs.1 hpos (h.width ▸ ht) (h.width ▸ hu) hne)]
      exact h.cells j u hpos hle hu

theorem happensBefore (h : Agrees k A C) {e : Event} (he : e.thread < A.width) {j : Nat}
    (hpos : 0 < j) (hle : j ≤ k) : C.happensBefore e j = A.happensBefore e j := by
  rw [ClockTable.happensBefore, ClockTable.happensBefore, h.cells j e.thread hpos hle he]

theorem row_eq (h : Agrees k A C) {j : Nat} (hpos : 0 < j) (hle : j ≤ k) : C.row j = A.row j := by
  rw [row, row, h.width]
  exact List.map_congr_left fun t ht => h.cells j t hpos hle (List.mem_range.1 ht)

end Agrees

end ClockTable

/-! ## Other clocks -/

/-- The tables with other clocks. -/
def Analysis.withClocks (a : Analysis) (C : ClockTable) : Analysis := { a with clocks := C }

theorem Analysis.addMissing_withClocks (a : Analysis) (C : ClockTable) (t : ThreadId) :
    (a.withClocks C).addMissing t = (a.addMissing t).map (·.withClocks C) := by
  by_cases ht : t ∈ a.missing <;> simp [addMissing, withClocks, ht, Except.map]

namespace Workspace

/-- The workspace with other clocks. -/
def withClocks (w : Workspace) (C : ClockTable) : Workspace :=
  { w with analysis := w.analysis.withClocks C }

/-- Other clocks may stand in for those of a workspace after `k` of `n` steps: no more rows than the
first `k`, which agree, are asked for by what the other tables and the schedule hold. -/
structure StandsIn (n k : Nat) (w : Workspace) (C : ClockTable) : Prop where
  agrees : w.analysis.clocks.Agrees k C
  rows : w.analysis.clocks.rows = n
  length : w.analysis.lastStep.length = w.analysis.clocks.width
  lastStep : ∀ j : Step, some j ∈ w.analysis.lastStep → 0 < j ∧ j ≤ k
  latest : 0 < k → some k ∈ w.analysis.lastStep
  races : ∀ r ∈ w.analysis.races, r.later ≤ k
  levels : ∀ l ∈ w.schedule.levels, Schedule.Regular l ∧ l.entries.length ≤ w.analysis.clocks.width

/-- The second workspace is the first one with other clocks, which cannot be told apart yet. -/
def Twins (n k : Nat) (v w : Workspace) : Prop := ∃ C, w = v.withClocks C ∧ v.StandsIn n k C

/-- The two workspaces are twins after some of the steps. -/
def Stopped (n : Nat) (v w : Workspace) : Prop := ∃ k, Twins n k v w

variable {n k : Nat} {v w : Workspace} {C : ClockTable}

namespace StandsIn

theorem twins (h : w.StandsIn n k C) : Twins n k w (w.withClocks C) := ⟨C, rfl, h⟩

theorem stopped (h : w.StandsIn n k C) : Stopped n w (w.withClocks C) := ⟨k, h.twins⟩

/-- What is neither clocks nor schedule may change, as long as no later step is told of. -/
theorem withAnalysis (h : w.StandsIn n k C) {a : Analysis} (hclocks : a.clocks = w.analysis.clocks)
    (hlast : a.lastStep = w.analysis.lastStep) (hraces : ∀ r ∈ a.races, r.later ≤ k) :
    StandsIn n k { w with analysis := a } C where
  agrees := by rw [hclocks]; exact h.agrees
  rows := by rw [hclocks]; exact h.rows
  length := by rw [hclocks, hlast]; exact h.length
  lastStep := hlast ▸ h.lastStep
  latest := hlast ▸ h.latest
  races := hraces
  levels := by rw [hclocks]; exact h.levels

theorem withSchedule (h : w.StandsIn n k C) {s : Schedule}
    (hlevels : ∀ l ∈ s.levels,
      Schedule.Regular l ∧ l.entries.length ≤ w.analysis.clocks.width) :
    StandsIn n k { w with schedule := s } C :=
  { h with levels := hlevels }

theorem addRace (h : w.StandsIn n k C) (race : Race) (hlater : race.later ≤ k) :
    (w.addRace race).StandsIn n k C := by
  refine h.withAnalysis (a := { w.analysis with races := w.analysis.races ++ [race] }) rfl rfl
    fun r hr => ?_
  rcases List.mem_append.1 hr with hr | hr
  · exact h.races r hr
  · exact List.mem_singleton.1 hr ▸ hlater

theorem mark (h : w.StandsIn n k C) (step : Step) (position : Nat) :
    (w.mark step position).StandsIn n k C := by
  refine h.withSchedule fun l' hl' => ?_
  obtain ⟨i, hi⟩ := List.mem_iff_getElem?.1 hl'
  have hmarked := w.schedule.remarked_modifyLevel (·.remarked_mark position) step
  obtain ⟨l, hl, hmarked⟩ := hmarked.of_getElem? hi
  obtain ⟨regular, hwidth⟩ := h.levels l (List.mem_of_getElem? hl)
  rw [hmarked.length_entries]
  exact ⟨⟨hmarked.dense regular.dense, fun t ht => by
    rw [hmarked.length_entries]
    exact regular.inRange t (hmarked.selected ▸ ht)⟩, hwidth⟩

/-- The thread selected at a level has a place in the rows. -/
theorem selection_lt (h : w.StandsIn n k C) {step : Step} {l : Level} {t : ThreadId}
    (hl : w.schedule.level step = .ok l) (ht : l.selection = .ok t) :
    t < w.analysis.clocks.width := by
  obtain ⟨position, -, hlevel⟩ := Schedule.exists_of_level_eq_ok hl
  obtain ⟨regular, hwidth⟩ := h.levels l (List.mem_of_getElem? hlevel)
  exact (regular.inRange t (Level.selection_eq_ok.1 ht)).trans_le hwidth

theorem selectedEntry_lt (h : w.StandsIn n k C) {step : Step} {l : Level} {e : Entry}
    (hl : w.schedule.level step = .ok l) (he : l.selectedEntry = .ok e) :
    e.thread < w.analysis.clocks.width := by
  obtain ⟨t, ht, hentry⟩ := Level.of_selectedEntry_eq_ok he
  obtain ⟨position, -, hlevel⟩ := Schedule.exists_of_level_eq_ok hl
  obtain ⟨regular, -⟩ := h.levels l (List.mem_of_getElem? hlevel)
  rw [regular.dense t e hentry]
  exact h.selection_lt hl (Level.selection_eq_ok.2 ht)

/-- A step that was executed is one, and its thread has a place in the rows. -/
theorem executed (h : w.StandsIn n k C) {step : Step} {e : Entry} (he : w.executed step = .ok e) :
    0 < step ∧ e.thread < w.analysis.clocks.width := by
  cases hl : w.schedule.level step with
  | error fault => simp [Workspace.executed, hl, bind, Except.bind] at he
  | ok l =>
    obtain ⟨position, rfl, -⟩ := Schedule.exists_of_level_eq_ok hl
    refine ⟨Nat.succ_pos _, h.selectedEntry_lt hl ?_⟩
    simpa [Workspace.executed, hl, bind, Except.bind] using he

theorem happensBefore (h : w.StandsIn n k C) {e : Event} (he : e.thread < w.analysis.clocks.width)
    {j : Nat} (hpos : 0 < j) (hle : j ≤ k) :
    (w.withClocks C).analysis.happensBefore e j = w.analysis.happensBefore e j :=
  h.agrees.happensBefore he hpos hle

/-! ## The walk -/

/-- The row of a step that begins, before its own entry: in both tables it is made of the row of the
last step of the thread, which was written before, or of nothing. -/
theorem exists_base (h : w.StandsIn n k C) (hk : k < n) (t : ThreadId) : ∃ A B : ClockTable,
    (w.analysis.begin (k + 1) t).clocks = A.stamp (k + 1) ⟨t, k + 1⟩ ∧
      ((w.analysis.withClocks C).begin (k + 1) t).clocks = B.stamp (k + 1) ⟨t, k + 1⟩ ∧
      A.Agrees (k + 1) B ∧ A.width = w.analysis.clocks.width ∧ A.rows = w.analysis.clocks.rows := by
  have hrow : w.analysis.clocks.HasRow (k + 1) := ⟨Nat.succ_pos k, h.rows.symm ▸ hk⟩
  have hlast : (w.analysis.withClocks C).lastStep = w.analysis.lastStep := rfl
  have hclocks : (w.analysis.withClocks C).clocks = C := rfl
  cases hprevious : w.analysis.lastStep[t]?.join with
  | none =>
    have hfilled := ClockTable.filled_clear h.agrees.roomy hrow
    refine ⟨w.analysis.clocks.clear (k + 1), C.clear (k + 1), ?_, ?_, h.agrees.clear hrow,
      hfilled.width, hfilled.rows⟩ <;> simp only [Analysis.begin, hlast, hclocks, hprevious]
  | some previous =>
    obtain ⟨hpos, hle⟩ : 0 < previous ∧ previous ≤ k := by
      refine h.lastStep previous (List.mem_of_getElem? (i := t) ?_)
      simpa [Option.join_eq_some_iff] using hprevious
    have hfilled := ClockTable.filled_copy h.agrees.roomy hrow hpos
    refine ⟨w.analysis.clocks.copy previous (k + 1), C.copy previous (k + 1), ?_, ?_,
      h.agrees.copy hrow hpos hle, hfilled.width, hfilled.rows⟩ <;>
      simp only [Analysis.begin, hlast, hclocks, hprevious]

/-- The next step begins. -/
theorem begin (h : w.StandsIn n k C) (hk : k < n) {t : ThreadId}
    (ht : t < w.analysis.clocks.width) :
    ∃ C', (w.withClocks C).modifyAnalysis (·.begin (k + 1) t) =
        (w.modifyAnalysis (·.begin (k + 1) t)).withClocks C' ∧
      (w.modifyAnalysis (·.begin (k + 1) t)).StandsIn n (k + 1) C' := by
  obtain ⟨A, B, hA, hB, hagrees, hwidth, hrows⟩ := h.exists_base hk t
  have hlast : (w.analysis.begin (k + 1) t).lastStep =
    w.analysis.lastStep.set t (some (k + 1)) := rfl
  have hclocks : (w.modifyAnalysis (·.begin (k + 1) t)).analysis.clocks =
    A.stamp (k + 1) ⟨t, k + 1⟩ := hA
  have hstamped : (A.stamp (k + 1) ⟨t, k + 1⟩).width = w.analysis.clocks.width := hwidth
  refine ⟨B.stamp (k + 1) ⟨t, k + 1⟩, ?_, ?_⟩
  · rw [← hB]
    rfl
  · refine ⟨?_, ?_, ?_, fun j hj => ?_, fun _ => ?_, fun r hr => ?_, fun l hl => ?_⟩
    · rw [hclocks]
      exact hagrees.put ⟨Nat.succ_pos k, by rw [hrows, h.rows]; exact hk⟩ (hwidth ▸ ht) _
    · rw [hclocks]
      exact hrows.trans h.rows
    · rw [hclocks, hstamped]
      simpa [modifyAnalysis, hlast] using h.length
    · rcases List.mem_or_eq_of_mem_set hj with hj | hj
      · exact (h.lastStep j hj).imp_right Nat.le_succ_of_le
      · obtain rfl := Option.some.inj hj
        exact ⟨Nat.succ_pos k, le_rfl⟩
    · exact List.mem_set (h.length ▸ ht) _
    · exact (h.races r hr).trans (Nat.le_succ k)
    · rw [hclocks, hstamped]
      exact h.levels l hl

/-- The clocks change where both go on to agree. -/
theorem withClocks (h : w.StandsIn n k C) {A B : ClockTable} (hagrees : A.Agrees k B)
    (hwidth : A.width = w.analysis.clocks.width) (hrows : A.rows = w.analysis.clocks.rows) :
    (w.withClocks A).StandsIn n k B where
  agrees := hagrees
  rows := hrows.trans h.rows
  length := h.length.trans hwidth.symm
  lastStep := h.lastStep
  latest := h.latest
  races := h.races
  levels := by
    intro l hl
    obtain ⟨regular, hle⟩ := h.levels l hl
    exact ⟨regular, hle.trans_eq hwidth.symm⟩

theorem hasRow (h : w.StandsIn n k C) (hpos : 0 < k) (hk : k ≤ n) :
    w.analysis.clocks.HasRow k := ⟨hpos, hk.trans_eq h.rows.symm⟩

/-- The step at hand is ordered after another one. -/
theorem join (h : w.StandsIn n (k + 1) C) (hk : k < n) {a : Step} (hpos : 0 < a) (ha : a ≤ k) :
    Twins n (k + 1) (w.modifyAnalysis (·.join (k + 1) a))
      ((w.withClocks C).modifyAnalysis (·.join (k + 1) a)) := by
  have hrow := h.hasRow (Nat.succ_pos k) hk
  have hfilled := ClockTable.filled_join h.agrees.roomy hrow hpos
  exact ⟨C.join (k + 1) a, rfl,
    h.withClocks (h.agrees.join hrow hpos ha) hfilled.width hfilled.rows⟩

/-- The next step begins and waits for quiescence: it is ordered after the last steps of the other
threads, which came before it. -/
theorem quiesce (h : w.StandsIn n k C) (hk : k < n) {t : ThreadId}
    (ht : t < w.analysis.clocks.width) :
    Twins n (k + 1)
      (w.modifyAnalysis fun a => (a.begin (k + 1) t).quiesce (k + 1) t)
      ((w.withClocks C).modifyAnalysis fun a => (a.begin (k + 1) t).quiesce (k + 1) t) := by
  obtain ⟨C', hC', h'⟩ := h.begin hk ht
  have hlast : (w.modifyAnalysis (·.begin (k + 1) t)).analysis.lastStep =
    w.analysis.lastStep.set t (some (k + 1)) := rfl
  generalize hothers : ((w.modifyAnalysis (·.begin (k + 1) t)).analysis.lastStep.zipIdx.filterMap
    fun p => if p.2 = t then none else p.1) = others
  have hearlier : ∀ j ∈ others, 0 < j ∧ j ≤ k := by
    intro j hj
    rw [← hothers, hlast, List.mem_filterMap] at hj
    obtain ⟨⟨last, u⟩, hmem, hother⟩ := hj
    rw [List.mem_zipIdx_iff_getElem?] at hmem
    simp only at hmem hother
    split at hother
    · simp at hother
    · next hne =>
      rw [List.getElem?_set_ne (Ne.symm hne)] at hmem
      exact h.lastStep j (List.mem_of_getElem? (hother ▸ hmem))
  obtain ⟨hagrees, hwidth, hrows⟩ := h'.agrees.joins (h'.hasRow (Nat.succ_pos k) hk) hearlier
  have hjoined := h'.withClocks hagrees hwidth hrows
  subst hothers
  refine ⟨_, ?_, hjoined⟩
  have hquiet : (w.withClocks C).modifyAnalysis (fun a => (a.begin (k + 1) t).quiesce (k + 1) t) =
      ((w.withClocks C).modifyAnalysis (·.begin (k + 1) t)).modifyAnalysis
        (·.quiesce (k + 1) t) := rfl
  rw [hquiet, hC']
  rfl

/-! ### Races -/

theorem mem_range'_sub {a b j : Nat} (h : j ∈ List.range' a (b - a)) : a ≤ j ∧ j < b := by
  rw [List.mem_range'_1] at h
  omega

/-- A search meets the same candidates: it asks for the rows of steps that were met in between. -/
theorem search_eq (h : w.StandsIn n k C) {steps : List Step} (hsteps : ∀ j ∈ steps, 0 < j ∧ j ≤ k)
    {search : Search} (hseen : ∀ e ∈ search.seen, e.thread < w.analysis.clocks.width) :
    Search.run (w.withClocks C) search steps = Search.run w search steps := by
  induction steps generalizing search with
  | nil => rfl
  | cons j rest ih =>
    obtain ⟨hpos, hle⟩ := hsteps j (List.mem_cons_self ..)
    have hlevel : (w.withClocks C).schedule.level j = w.schedule.level j := rfl
    rw [Search.run, Search.run, hlevel]
    split
    · rfl
    · cases hl : w.schedule.level j with
      | error fault => rfl
      | ok l =>
        cases ht : l.selection with
        | error fault => simp [ht, bind, Except.bind]
        | ok t =>
          have hbefore : search.seen.any ((w.withClocks C).analysis.happensBefore · j) =
              search.seen.any (w.analysis.happensBefore · j) := by
            rw [Bool.eq_iff_iff, List.any_eq_true, List.any_eq_true]
            refine exists_congr fun e => and_congr_right fun he => ?_
            rw [h.happensBefore (hseen e he) hpos hle]
          have hmeet : search.meet (w.withClocks C).analysis t j = search.meet w.analysis t j := by
            rw [Search.meet, Search.meet, hbefore]
          simp only [ht, bind, Except.bind, hmeet]
          refine ih (fun i hi => hsteps i (List.mem_cons_of_mem _ hi)) fun e he => ?_
          unfold Search.meet at he
          split at he
          · rcases List.mem_append.1 he with he | he
            · exact hseen e he
            · exact List.mem_singleton.1 he ▸ h.selection_lt hl ht
          · exact hseen e he

theorem candidates_eq (h : w.StandsIn n k C) {race : Race} (hlater : race.later ≤ k)
    {first : ThreadId} (hfirst : first < w.analysis.clocks.width) (second : ThreadId) :
    (w.withClocks C).candidates race first second = w.candidates race first second := by
  have hlevel : (w.withClocks C).schedule.level race.earlier = w.schedule.level race.earlier := rfl
  have hwidth : (w.withClocks C).analysis.clocks.width = w.analysis.clocks.width := h.agrees.width
  simp only [candidates, hlevel, hwidth]
  cases w.schedule.level race.earlier with
  | error fault => rfl
  | ok l =>
    simp only [bind, Except.bind]
    rw [h.search_eq (fun j hj => ?_) fun e he => ?_]
    · obtain ⟨hge, hlt⟩ := mem_range'_sub hj
      exact ⟨Nat.lt_of_lt_of_le (Nat.succ_pos _) hge, hlt.le.trans hlater⟩
    · exact List.mem_singleton.1 he ▸ hfirst

theorem addBacktrackPoint (h : w.StandsIn n k C) (race : Race) (hlater : race.later ≤ k)
    {first : ThreadId} (hfirst : first < w.analysis.clocks.width) (second : ThreadId) :
    (addBacktrackPoint race first second).Alike w (Workspace.addBacktrackPoint race first second)
      (w.withClocks C) (Twins n k) (Stopped n) := by
  refine alike_get_bind (alike_lift_bind (h.candidates_eq hlater hfirst second) h.stopped
    fun found _ => ?_)
  split
  · exact alike_fail _ h.stopped
  · refine alike_lift_bind rfl h.stopped fun l _ => ?_
    split
    · exact alike_pure () h.twins
    · rw [show (w.withClocks C).analysis.clocks.width = w.analysis.clocks.width from h.agrees.width]
      split
      · next position e _ =>
        exact alike_notify_bind _ (alike_set (h.mark race.earlier position).twins)
      · exact alike_fail _ h.stopped

theorem addRaces (h : w.StandsIn n k C) (hpos : 0 < k) (e : Entry) (a : Step) :
    (addRaces k e a).Alike w (Workspace.addRaces k e a) (w.withClocks C) (Twins n k)
      (Stopped n) := by
  refine alike_get_bind (alike_each_at (fun _ => Twins n k) h.twins ?_)
  rintro _ j v _ - ⟨C, rfl, h⟩
  refine alike_get_bind (alike_lift_bind rfl h.stopped fun d hd => ?_)
  rw [h.happensBefore (e := ⟨d.thread, j⟩) (h.executed hd).2 hpos le_rfl]
  split
  · exact alike_notify_bind _ (alike_set (h.addRace ⟨j, k⟩ le_rfl).twins)
  · exact alike_pure () h.twins

/-- Races of the step at hand are found alike, and if all goes well it is a step that it is compared
with. -/
theorem detect (h : w.StandsIn n k C) (hpos : 0 < k) (e : Entry) (a : Step) :
    (detect k e a).Alike w (Workspace.detect k e a) (w.withClocks C)
      (fun v v' => 0 < a ∧ Twins n k v v') (Stopped n) := by
  refine alike_get_bind (alike_lift_bind rfl h.stopped fun d hd => ?_)
  obtain ⟨ha, hthread⟩ := h.executed hd
  rw [h.happensBefore (e := ⟨d.thread, a⟩) hthread hpos le_rfl]
  split
  · exact alike_pure () ⟨ha, h.twins⟩
  · split
    · next hrandom =>
      rw [if_pos (show (w.withClocks C).randomized from hrandom)]
      exact (h.addRaces hpos e a).mono fun _ _ htwins => ⟨ha, htwins⟩
    · next hrandom =>
      rw [if_neg (show ¬ (w.withClocks C).randomized from hrandom)]
      refine alike_notify_bind _ (alike_set_bind ?_)
      exact ((h.addRace ⟨a, k⟩ le_rfl).addBacktrackPoint ⟨a, k⟩ le_rfl hthread e.thread).mono
        fun _ _ htwins => ⟨ha, htwins⟩

/-- The step at hand is ordered after another one, with which it races perhaps. -/
theorem order (h : w.StandsIn n (k + 1) C) (hk : k < n) (e : Entry) (a : Step) :
    (order (k + 1) e a).Alike w (Workspace.order (k + 1) e a) (w.withClocks C) (Twins n (k + 1))
      (Stopped n) := by
  unfold Workspace.order
  split
  · exact alike_fail _ h.stopped
  · next hlt =>
    refine (h.detect (Nat.succ_pos k) e a).bind ?_
    rintro _ v _ ⟨hpos, C, rfl, h⟩
    refine alike_modify ?_
    rw [show (v.withClocks C).randomized = v.randomized from rfl]
    split
    · exact h.twins
    · exact h.join hk hpos (Nat.le_of_lt_succ (Nat.lt_of_not_le hlt))

/-- A step is entered as the last access to its target. -/
theorem access (h : w.StandsIn n k C) (i : Step) (op : Operation) (target : Nat)
    (sendStep : Option Step) :
    (w.withClocks C).analysis.access i op target sendStep =
        ((w.analysis.access i op target sendStep).1.withClocks C,
          (w.analysis.access i op target sendStep).2) ∧
      StandsIn n k { w with analysis := (w.analysis.access i op target sendStep).1 } C := by
  cases op <;> exact ⟨rfl, h.withAnalysis rfl rfl h.races⟩

/-- One step of the walk. -/
theorem visit (h : w.StandsIn n k C) (hk : k < n) :
    (visit (k + 1)).Alike w (Workspace.visit (k + 1)) (w.withClocks C) (Twins n (k + 1))
      (Stopped n) := by
  refine alike_get_bind (alike_lift_bind rfl h.stopped fun l hl =>
    alike_lift_bind rfl h.stopped fun e he => ?_)
  have hthread := h.selectedEntry_lt hl he
  split
  · exact alike_set (h.quiesce hk hthread)
  · obtain ⟨C', hC', h'⟩ := h.begin hk hthread
    rw [hC']
    generalize w.modifyAnalysis (·.begin (k + 1) e.thread) = v at h'
    dsimp only
    rw [show (v.withClocks C').target? (k + 1) l e = v.target? (k + 1) l e from rfl]
    split
    · exact alike_set h'.twins
    · next target _ =>
      obtain ⟨haccess, h''⟩ := h'.access (k + 1) e.op target e.sendStep
      rw [haccess]
      generalize v.analysis.access (k + 1) e.op target e.sendStep = entry at h''
      obtain ⟨analysis, last⟩ := entry
      refine alike_set_bind ?_
      cases last with
      | none => exact alike_pure () h''.twins
      | some a => exact h''.order hk e a

end StandsIn

/-- Step after step. -/
theorem Twins.visits (h : Twins n 0 v w) :
    (each visit (List.range' 1 n)).Alike v (each visit (List.range' 1 n)) w (Twins n n)
      (Stopped n) := by
  have hvisits : (each visit (List.range' 1 n)).Alike v (each visit (List.range' 1 n)) w
      (Twins n (List.range' 1 n).length) (Stopped n) := by
    refine alike_each_at (Twins n) h ?_
    rintro k i v _ hi ⟨C, rfl, h⟩
    obtain ⟨hlt, rfl⟩ := List.getElem?_eq_some_iff.1 hi
    rw [List.length_range'] at hlt
    rw [List.getElem_range', Nat.one_mul, Nat.add_comm]
    exact h.visit hlt
  rwa [List.length_range'] at hvisits

/-- The walk starts from fresh tables, whose clocks may hold anything. -/
theorem standsIn_reset (w : Workspace) (C : ClockTable)
    (regular : ∀ l ∈ w.schedule.levels, Schedule.Regular l) :
    (w.modifyAnalysis (·.reset w.steps w.threads)).StandsIn w.steps 0
      (C.reset w.steps w.threads) where
  agrees := ClockTable.agrees_reset _ _ _ _
  rows := rfl
  length := List.length_replicate ..
  lastStep := by simp [modifyAnalysis, Analysis.reset]
  latest := by simp
  races := by simp [modifyAnalysis, Analysis.reset]
  levels := fun l hl => ⟨regular l hl, length_le_threads hl⟩

/-- The whole walk, from any two tables. -/
theorem walk_alike (a b : Analysis) (s : Schedule) (g : Option Pcg)
    (regular : ∀ l ∈ s.levels, Schedule.Regular l) :
    walk.Alike ⟨a, s, g⟩ walk ⟨b, s, g⟩ (Twins (steps ⟨a, s, g⟩) (steps ⟨a, s, g⟩))
      (Stopped (steps ⟨a, s, g⟩)) := by
  have start := standsIn_reset ⟨a, s, g⟩ b.clocks regular
  exact alike_get_bind (alike_set_bind start.twins.visits)

/-! ## The reversal of a race -/

namespace StandsIn

/-- What is kept of a race is told alike. -/
theorem keep {first : Event} {steps : List Step} {kept : List Directive} (h : w.StandsIn n k C)
    (hfirst : first.thread < w.analysis.clocks.width) (hsteps : ∀ j ∈ steps, j ≤ k) :
    (keep first steps kept).Alike w (Workspace.keep first steps kept) (w.withClocks C)
      (Twins n k) (Stopped n) := by
  induction steps generalizing w kept with
  | nil => exact alike_pure kept h.twins
  | cons i rest ih =>
    have hrest : ∀ j ∈ rest, j ≤ k := fun j hj => hsteps j (List.mem_cons_of_mem _ hj)
    refine alike_get_bind (alike_lift_bind rfl h.stopped fun l hl => ?_)
    obtain ⟨position, rfl, -⟩ := Schedule.exists_of_level_eq_ok hl
    rw [h.happensBefore hfirst (Nat.succ_pos position) (hsteps _ (List.mem_cons_self ..))]
    split
    · refine alike_lift_bind rfl h.stopped fun e _ => ?_
      split
      · rw [show (w.withClocks C).analysis = w.analysis.withClocks C from rfl,
          Analysis.addMissing_withClocks]
        refine alike_lift_map_bind h.stopped fun analysis hmissing => alike_set_bind ?_
        obtain ⟨-, rfl⟩ := of_addMissing_eq_ok hmissing
        exact ih (h.withAnalysis rfl rfl h.races) hfirst hrest
      · exact ih h hfirst hrest
    · exact alike_lift_bind rfl h.stopped fun d _ => ih h hfirst hrest

/-- The directives that reverse a race are told alike, and the schedule is cut back alike. -/
theorem reversal (h : w.StandsIn n k C) {race : Race} (hlater : race.later ≤ k) :
    (reversal race).Alike w (Workspace.reversal race) (w.withClocks C) (Twins n k) (Stopped n) := by
  refine alike_get_bind (alike_lift_bind rfl h.stopped fun t ht => alike_notify_bind _ ?_)
  have hthread : t < w.analysis.clocks.width := by
    cases hl : w.schedule.level race.earlier with
    | error fault => simp [hl, bind, Except.bind] at ht
    | ok l => exact h.selection_lt hl (by simpa [hl, bind, Except.bind] using ht)
  refine (h.keep hthread fun j hj => (mem_range'_sub hj).2.le.trans hlater).bind ?_
  rintro kept v _ ⟨C, rfl, h⟩
  refine alike_get_bind (alike_lift_bind rfl h.stopped fun later _ =>
    alike_lift_bind rfl h.stopped fun earlier _ => alike_set_bind (alike_pure _ ?_))
  exact (h.withSchedule fun l hl => h.levels l (List.mem_of_mem_take hl)).twins

theorem reverse (h : w.StandsIn n k C) (g : Pcg) :
    (reverse g).Alike w (Workspace.reverse g) (w.withClocks C) (Twins n k) (Stopped n) := by
  obtain ⟨i, g', hbelow⟩ : ∃ i g', g.below 64 w.analysis.races.length = (i, g') :=
    ⟨_, _, Prod.mk.eta.symm⟩
  have hraces : (w.withClocks C).analysis.races = w.analysis.races := rfl
  refine alike_get_bind ?_
  rw [hraces]
  split
  · have hclear := h.withSchedule (s := w.schedule.clear) (by simp [Schedule.clear])
    exact alike_notify_bind _ (alike_set_bind (alike_pure _ hclear.twins))
  · rw [hbelow]
    have hdrawn : StandsIn n k { w with generator := some g' } C := { h with }
    refine alike_set_bind ?_
    cases hrace : w.analysis.races[i]? with
    | none => exact alike_pure _ hdrawn.twins
    | some race => exact hdrawn.reversal (h.races race (List.mem_of_getElem? hrace))

end StandsIn

end Workspace

/-! ## The whole analysis -/

/-- The step was analysed: it is not after the last step of every thread. -/
def Analysis.Reached (a : Analysis) (j : Step) : Prop :=
  0 < j ∧ ∃ last : Step, some last ∈ a.lastStep ∧ j ≤ last

/-- The tables are the same, but for the rows of steps that were not analysed. -/
structure Analysis.Same (a b : Analysis) : Prop where
  races : b.races = a.races
  lastStep : b.lastStep = a.lastStep
  lastLifecycle : b.lastLifecycle = a.lastLifecycle
  firstSend : b.firstSend = a.firstSend
  lastSend : b.lastSend = a.lastSend
  missing : b.missing = a.missing
  row : ∀ j, a.Reached j → b.clocks.row j = a.clocks.row j

namespace Workspace

variable {n k : Nat} {v w w' : Workspace}

theorem Twins.same (h : Twins n k v w) : v.analysis.Same w.analysis := by
  obtain ⟨C, rfl, h⟩ := h
  refine ⟨rfl, rfl, rfl, rfl, rfl, rfl, fun j hj => ?_⟩
  obtain ⟨hpos, last, hlast, hle⟩ := hj
  exact h.agrees.row_eq hpos (hle.trans (h.lastStep last hlast).2)

/-- The analysis, from any two tables. -/
theorem analyse_alike (a b : Analysis) (s : Schedule) (g : Option Pcg)
    (regular : ∀ l ∈ s.levels, Schedule.Regular l) :
    analyse.Alike ⟨a, s, g⟩ analyse ⟨b, s, g⟩ (Twins (steps ⟨a, s, g⟩) (steps ⟨a, s, g⟩))
      (Stopped (steps ⟨a, s, g⟩)) := by
  refine (walk_alike a b s g regular).bind ?_
  rintro _ v _ ⟨C, rfl, h⟩
  refine alike_get_bind ?_
  rw [show (v.withClocks C).generator = v.generator from rfl]
  cases v.generator with
  | none => exact alike_pure _ h.twins
  | some g => exact h.reverse g

/-- Two analyses of a schedule that was built level by level, with the same generator, end alike
whatever tables they start from: with the same directives or the same fault, the same notices, the
same schedule and generator, and the same tables. The clocks are those of the steps that were
analysed, which are all of them unless there was a fault. -/
theorem analyse_forgets (built : w.schedule.Built) (hschedule : w'.schedule = w.schedule)
    (hgenerator : w'.generator = w.generator) :
    (analyse w').result = (analyse w).result ∧ (analyse w').notices = (analyse w).notices ∧
      (analyse w').state.schedule = (analyse w).state.schedule ∧
      (analyse w').state.generator = (analyse w).state.generator ∧
      (analyse w).state.analysis.Same (analyse w').state.analysis ∧
      ∀ directives, (analyse w).result = .ok directives →
        ∀ j, 0 < j → j ≤ w.steps → (analyse w).state.analysis.Reached j := by
  obtain ⟨a, s, g⟩ := w
  obtain ⟨b, s', g'⟩ := w'
  obtain rfl : s' = s := hschedule
  obtain rfl : g' = g := hgenerator
  have halike := analyse_alike a b s' g' built.regular.2
  have hstopped : Stopped (steps ⟨a, s', g'⟩) (analyse ⟨a, s', g'⟩).state
      (analyse ⟨b, s', g'⟩).state := by
    cases hresult : (analyse ⟨a, s', g'⟩).result with
    | error fault => exact halike.error fault hresult
    | ok directives => exact ⟨_, halike.ok directives hresult⟩
  obtain ⟨k, htwins⟩ := hstopped
  have hsame := htwins.same
  refine ⟨halike.result.symm, halike.notices.symm, ?_, ?_, hsame, fun _ hok j hpos hle => ?_⟩
  · obtain ⟨C, hC, -⟩ := htwins
    rw [hC]
    rfl
  · obtain ⟨C, hC, -⟩ := htwins
    rw [hC]
    rfl
  · obtain ⟨C, -, h⟩ := halike.ok _ hok
    exact ⟨hpos, _, h.latest (hpos.trans_le hle), hle⟩

/-- The two sends, with the tables that their analysis left. -/
def sentAgain : Workspace := { sent with analysis := (analyse sent).state.analysis }

/-- The second analysis of the two sends has to do with what the first one left. -/
theorem analyse_sentAgain_forgets :
    (analyse sentAgain).result = (analyse sent).result ∧
      (analyse sentAgain).notices = (analyse sent).notices ∧
      (analyse sentAgain).state.schedule = (analyse sent).state.schedule ∧
      (analyse sentAgain).state.generator = (analyse sent).state.generator ∧
      (analyse sent).state.analysis.Same (analyse sentAgain).state.analysis ∧
      ∀ directives, (analyse sent).result = .ok directives →
        ∀ j, 0 < j → j ≤ sent.steps → (analyse sent).state.analysis.Reached j :=
  analyse_forgets (w := sent) built_sends rfl rfl

end Workspace

end Interleaving
