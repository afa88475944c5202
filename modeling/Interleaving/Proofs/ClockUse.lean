import Interleaving.Proofs.ClockSizes

/-!
# Clocks that do not disturb each other

The rows of all clocks lie in one buffer that is used again after every reset, with other numbers of
rows and columns. As long as a row is cleared or copied to before it is read, the table cannot be
told from clocks that are kept apart and that a reset takes away. No cell outside of the buffer is
asked for, and the buffer only ever grows, by doubling. The sizes may be any: a reset that the
registers or the memory of a machine have no room for does not end well, and all that ends well is
right.

## Main definitions

* `ClockChange`, `ClockTable.run` — changes of a table, and one after another.
* `ClockTable.run?` — the same in registers, each cell being looked for before it is read or
  written.
* `ClockMap` — clocks that are kept apart.

## Main statements

* `ClockTable.Shows.apply` — one change of a table that shows clocks.
* `ClockTable.run_shows_map` — all changes, from an empty table on.
* `ClockTable.run?_wrapping` — the same without checks, if every product fits a register.
-/

namespace Interleaving

/-- A change of a table of clocks. -/
inductive ClockChange where
  | reset (rows width : Nat)
  | clear (step : Step)
  | copy (source target : Step)
  | join (target source : Step)
  | stamp (step : Step) (e : Event)

/-- There is room for all rows in a buffer. -/
def ClockChange.Fits : ClockChange → Prop
  | .reset rows width => width * rows ≤ 2 ^ 60
  | _ => True

namespace ClockTable

def apply (table : ClockTable) : ClockChange → ClockTable
  | .reset rows width => table.reset rows width
  | .clear step => table.clear step
  | .copy source target => table.copy source target
  | .join target source => table.join target source
  | .stamp step e => table.stamp step e

/-- One change after another. -/
def run (table : ClockTable) (changes : List ClockChange) : ClockTable := changes.foldl apply table

/-! ## Changes in registers -/

def fill? (table : ClockTable) (arithmetic : Arithmetic) (step : Step)
    (f : ClockTable → ThreadId → Except Halt Nat) : Except Halt ClockTable :=
  (List.range table.width).foldlM
    (fun table t => do table.put? arithmetic step t (← f table t)) table

/-- A change that halts if a size does not fit, or a cell that it reads or writes is not there. -/
def change? (arithmetic : Arithmetic) (table : ClockTable) : ClockChange → Except Halt ClockTable
  | .reset rows width => table.reset? arithmetic rows width
  | .clear step => table.fill? arithmetic step fun _ _ => .ok 0
  | .copy source target =>
    table.fill? arithmetic target fun table t => table.get? arithmetic source t
  | .join target source => table.fill? arithmetic target fun table t => do
      return max (← table.get? arithmetic target t) (← table.get? arithmetic source t)
  | .stamp step e => table.put? arithmetic step e.thread e.index

def run? (arithmetic : Arithmetic) (table : ClockTable) (changes : List ClockChange) :
    Except Halt ClockTable :=
  changes.foldlM (change? arithmetic) table

def happensBefore? (table : ClockTable) (arithmetic : Arithmetic) (e : Event) (step : Step) :
    Except Halt Bool := do
  return e.index ≤ (← table.get? arithmetic step e.thread)

end ClockTable

/-! ## Clocks apart -/

/-- For each step that has a clock, a value for every thread. -/
structure ClockMap where
  rows : Nat
  width : Nat
  clock : Step → Option (ThreadId → Nat)

namespace ClockMap

/-- No step has a clock. -/
def blank (rows width : Nat) : ClockMap := ⟨rows, width, fun _ => none⟩

/-- Gives a clock to a step that there is room for. -/
def write (m : ClockMap) (step : Step) (clock : ThreadId → Nat) : Option ClockMap :=
  if 0 < step ∧ step ≤ m.rows then
    some { m with clock := Function.update m.clock step (some clock) }
  else none

/-- A change that may be made: every clock that it reads was written since the last reset, and steps
and threads are in range. -/
def apply (m : ClockMap) : ClockChange → Option ClockMap
  | .reset rows width => some (blank rows width)
  | .clear step => m.write step fun _ => 0
  | .copy source target => do m.write target (← m.clock source)
  | .join target source => do
      let own ← m.clock target
      let other ← m.clock source
      m.write target fun t => max (own t) (other t)
  | .stamp step e => do
      let own ← m.clock step
      if e.thread < m.width then m.write step (Function.update own e.thread e.index) else none

def run (m : ClockMap) (changes : List ClockChange) : Option ClockMap := changes.foldlM apply m

/-- Whether an event is in the clock of a step, if the question may be asked. -/
def happensBefore? (m : ClockMap) (e : Event) (step : Step) : Option Bool := do
  let clock ← m.clock step
  if e.thread < m.width then some (e.index ≤ clock e.thread) else none

theorem write_eq_some {m m' : ClockMap} {step : Step} {clock : ThreadId → Nat} :
    m.write step clock = some m' ↔ (0 < step ∧ step ≤ m.rows) ∧
      { m with clock := Function.update m.clock step (some clock) } = m' := by
  simp [write]

theorem exists_run_of_append {m m' : ClockMap} {before after : List ClockChange}
    (h : m.run (before ++ after) = some m') :
    ∃ middle, m.run before = some middle ∧ middle.run after = some m' :=
  Option.bind_eq_some_iff.1 (List.foldlM_append.symm.trans h)

end ClockMap

namespace ClockTable

variable {table : ClockTable} {m m' : ClockMap} {step source n : Nat} {arithmetic : Arithmetic}

/-- If what is put into the cells of a row can be told, the row is filled. -/
theorem fill?_eq_ok {f : ClockTable → ThreadId → Nat} {f? : ClockTable → ThreadId → Except Halt Nat}
    (roomy : table.Roomy) (sized : table.Sized) (hs : table.HasRow step)
    (hf : ∀ filled : ClockTable, filled.Roomy → filled.Sized → filled.width = table.width →
      filled.rows = table.rows → ∀ t < table.width, f? filled t = .ok (f filled t)) :
    table.fill? arithmetic step f? = .ok (table.fill step f) := by
  have hall : ∀ n ≤ table.width, ∃ filled : ClockTable, filled.Roomy ∧ filled.Sized ∧
      filled.width = table.width ∧ filled.rows = table.rows ∧
      (List.range n).foldl (fun table t => table.put step t (f table t)) table = filled ∧
      (List.range n).foldlM (fun table t => do table.put? arithmetic step t (← f? table t)) table =
        .ok filled := by
    intro n
    induction n with
    | zero => exact fun _ => ⟨table, roomy, sized, rfl, rfl, rfl, rfl⟩
    | succ n ih =>
      intro hn
      obtain ⟨filled, hroomy, hsized, hwidth, hrows, hfold, hfoldM⟩ := ih (Nat.le_of_succ_le hn)
      have hrow : filled.HasRow step := by rwa [HasRow, hrows]
      have hlt : n < filled.width := hwidth.symm ▸ hn
      refine ⟨_, hroomy.put step n (f filled n), hsized.put step n (f filled n), hwidth, hrows,
        ?_, ?_⟩
      · rw [List.range_succ, List.foldl_append, hfold, List.foldl_cons, List.foldl_nil]
      · rw [List.range_succ, List.foldlM_append, hfoldM]
        simp [bind, Except.bind, pure, Except.pure, hf filled hroomy hsized hwidth hrows n hn,
          put?_eq_ok hroomy hsized hrow hlt]
  obtain ⟨filled, -, -, -, -, hfold, hfoldM⟩ := hall table.width le_rfl
  rw [fill, fill?, hfold, hfoldM]

/-! ## The size of the buffer -/

@[simp] theorem size_fill (table : ClockTable) (step : Step) (f : ClockTable → ThreadId → Nat) :
    (table.fill step f).cells.size = table.cells.size := by
  unfold fill
  induction List.range table.width generalizing table with
  | nil => rfl
  | cons t rest ih => rw [List.foldl_cons, ih, size_cells_put]

/-- A buffer is doubled some times, or stays as it is. -/
theorem size_apply (h : table.cells.size = 2 ^ n) (change : ClockChange) :
    ∃ n', n ≤ n' ∧ (table.apply change).cells.size = 2 ^ n' := by
  cases change with
  | reset rows width => exact ⟨_, Nat.le_max_left .., size_reset h⟩
  | clear step => exact ⟨n, le_rfl, by simpa [apply, clear] using h⟩
  | copy source target => exact ⟨n, le_rfl, by simpa [apply, copy] using h⟩
  | join target source => exact ⟨n, le_rfl, by simpa [apply, join] using h⟩
  | stamp step e => exact ⟨n, le_rfl, by simpa [apply, stamp] using h⟩

theorem size_run (h : table.cells.size = 2 ^ n) (changes : List ClockChange) :
    ∃ n', n ≤ n' ∧ (table.run changes).cells.size = 2 ^ n' := by
  induction changes generalizing table n with
  | nil => exact ⟨n, le_rfl, h⟩
  | cons change rest ih =>
    obtain ⟨k, hk, hsize⟩ := size_apply h change
    obtain ⟨l, hl, hsize⟩ := ih hsize
    exact ⟨l, hk.trans hl, hsize⟩

theorem size_run_le_append (h : table.cells.size = 2 ^ n) (before after : List ClockChange) :
    (table.run before).cells.size ≤ (table.run (before ++ after)).cells.size := by
  obtain ⟨k, -, hk⟩ := size_run h before
  obtain ⟨l, hl, hsize⟩ := size_run hk after
  have happend : table.run (before ++ after) = (table.run before).run after := List.foldl_append
  rw [happend, hk, hsize]
  exact Nat.pow_le_pow_right Nat.two_pos hl

/-! ## Tables that show clocks -/

/-- The table has room for the clocks, and each of them stands in its row. Rows of steps that have
no clock may hold anything. -/
structure Shows (table : ClockTable) (m : ClockMap) : Prop where
  roomy : table.Roomy
  sized : table.Sized
  width : table.width = m.width
  rows : table.rows = m.rows
  hasRow : ∀ step clock, m.clock step = some clock → table.HasRow step
  get : ∀ step clock, m.clock step = some clock → ∀ t < m.width, table.get step t = clock t

theorem shows_blank (roomy : table.Roomy) (sized : table.Sized) :
    table.Shows (ClockMap.blank table.rows table.width) :=
  ⟨roomy, sized, rfl, rfl, by simp [ClockMap.blank], by simp [ClockMap.blank]⟩

namespace Shows

/-- A row that was filled shows the clock that was written. -/
theorem of_filled {filled : ClockTable} {g : Nat → Nat → Nat} {clock : ThreadId → Nat}
    (h : table.Shows m) (hfilled : Filled table step source g table.width filled)
    (hwrite : m.write step clock = some m')
    (hclock : ∀ t < m.width, g (table.get step t) (table.get source t) = clock t) :
    filled.Shows m' := by
  obtain ⟨hrange, rfl⟩ := ClockMap.write_eq_some.1 hwrite
  have hrow : filled.HasRow step := hfilled.hasRow (by rwa [HasRow, h.rows])
  refine ⟨hfilled.roomy h.roomy, h.sized.of_size_eq hfilled.size, hfilled.width.trans h.width,
    hfilled.rows.trans h.rows, fun other found hfound => ?_, fun other found hfound t ht => ?_⟩
  · by_cases hother : other = step
    · exact hother ▸ hrow
    · exact hfilled.hasRow (h.hasRow other found (by simpa [hother] using hfound))
  · have ht' : t < table.width := h.width.symm ▸ ht
    by_cases hother : other = step
    · subst hother
      obtain rfl : clock = found := by simpa using hfound
      rw [hfilled.done t ht', hclock t ht]
    · replace hfound : m.clock other = some found := by simpa [hother] using hfound
      rw [hfilled.others other t (h.hasRow other found hfound).1 hother ht',
        h.get other found hfound t ht]

/-- A cell of a row that has a clock is set. -/
theorem of_put {clock : ThreadId → Nat} (h : table.Shows m) (hclock : m.clock step = some clock)
    {t value : Nat} (ht : t < m.width)
    (hwrite : m.write step (Function.update clock t value) = some m') :
    (table.put step t value).Shows m' := by
  obtain ⟨hrange, rfl⟩ := ClockMap.write_eq_some.1 hwrite
  have hrow := h.hasRow step clock hclock
  have ht' : t < table.width := h.width.symm ▸ ht
  refine ⟨h.roomy.put step t value, h.sized.put step t value, h.width, h.rows,
    fun other found hfound => ?_, fun other found hfound u hu => ?_⟩
  · by_cases hother : other = step
    · exact hother ▸ hrow
    · exact h.hasRow other found (by simpa [hother] using hfound)
  · have hu' : u < table.width := h.width.symm ▸ hu
    by_cases hother : other = step
    · subst hother
      obtain rfl : Function.update clock t value = found := by simpa using hfound
      by_cases hut : u = t
      · rw [hut, get_put_self (offset_lt h.roomy hrow ht'), Function.update_self]
      · rw [get_put_of_ne (offset_ne hrow.1 hrow.1 ht' hu' (.inr hut)),
          Function.update_of_ne hut, h.get other clock hclock u hu]
    · replace hfound : m.clock other = some found := by simpa [hother] using hfound
      rw [get_put_of_ne (offset_ne hrow.1 (h.hasRow other found hfound).1 ht' hu' (.inl hother)),
        h.get other found hfound u hu]

/-- A change that may be made, and has room, finds all cells that it asks for, and the table shows
the clocks as before it does. -/
theorem apply (h : table.Shows m) {change : ClockChange} (hfits : change.Fits)
    (hm : m.apply change = some m') :
    (∀ arithmetic, table.change? arithmetic change = .ok (table.apply change)) ∧
      (table.apply change).Shows m' := by
  have hasRow {step : Nat} {clock : ThreadId → Nat} (hwrite : m.write step clock = some m') :
      table.HasRow step := by
    rw [HasRow, h.rows]
    exact (ClockMap.write_eq_some.1 hwrite).1
  cases change with
  | reset rows width =>
    obtain rfl := Option.some.inj hm
    exact ⟨fun _ => h.sized.reset?_eq_ok hfits, shows_blank (roomy_reset table rows width)
      (h.sized.reset hfits)⟩
  | clear step =>
    have hrow := hasRow hm
    exact ⟨fun _ => fill?_eq_ok h.roomy h.sized hrow fun _ _ _ _ _ _ _ => rfl,
      h.of_filled (filled_clear h.roomy hrow) hm fun _ _ => rfl⟩
  | copy source target =>
    obtain ⟨clock, hclock, hwrite⟩ := Option.bind_eq_some_iff.1 hm
    have hrow := hasRow hwrite
    have hsource := h.hasRow source clock hclock
    refine ⟨fun _ => fill?_eq_ok h.roomy h.sized hrow
        fun filled hroomy hsized hwidth hrows t ht => ?_,
      h.of_filled (filled_copy h.roomy hrow hsource.1) hwrite (h.get source clock hclock)⟩
    exact ClockTable.get?_eq_ok hroomy hsized (by rwa [HasRow, hrows]) (hwidth.symm ▸ ht)
  | join target source =>
    obtain ⟨own, hown, hm⟩ := Option.bind_eq_some_iff.1 hm
    obtain ⟨other, hother, hwrite⟩ := Option.bind_eq_some_iff.1 hm
    have hrow := h.hasRow target own hown
    have hsource := h.hasRow source other hother
    refine ⟨fun _ => fill?_eq_ok h.roomy h.sized hrow
        fun filled hroomy hsized hwidth hrows t ht => ?_,
      h.of_filled (filled_join h.roomy hrow hsource.1) hwrite fun t ht => ?_⟩
    · have htarget : filled.HasRow target := by rwa [HasRow, hrows]
      have hsource : filled.HasRow source := by rwa [HasRow, hrows]
      rw [ClockTable.get?_eq_ok hroomy hsized htarget (hwidth.symm ▸ ht),
        ClockTable.get?_eq_ok hroomy hsized hsource (hwidth.symm ▸ ht)]
      rfl
    · rw [h.get target own hown t ht, h.get source other hother t ht]
  | stamp step e =>
    obtain ⟨own, hown, hm⟩ := Option.bind_eq_some_iff.1 hm
    split at hm
    · next ht =>
      exact ⟨fun _ => put?_eq_ok h.roomy h.sized (h.hasRow step own hown) (h.width.symm ▸ ht) _,
        h.of_put hown ht hm⟩
    · simp at hm

/-- With checks, a change that has no room halts before a cell is asked for. -/
theorem change?_eq_error (h : table.Shows m) {change : ClockChange} (hfits : ¬ change.Fits) :
    ∃ halt, halt ≠ .outside ∧ table.change? .checked change = .error halt := by
  cases change with
  | reset rows width => exact reset?_checked_eq_error h.sized hfits
  | clear | copy | join | stamp => exact absurd trivial hfits

/-- So do many changes. -/
theorem run {changes : List ClockChange} (h : table.Shows m)
    (hfits : ∀ change ∈ changes, change.Fits) (hm : m.run changes = some m') :
    (∀ arithmetic, table.run? arithmetic changes = .ok (table.run changes)) ∧
      (table.run changes).Shows m' := by
  induction changes generalizing table m with
  | nil =>
    obtain rfl := Option.some.inj hm
    exact ⟨fun _ => rfl, h⟩
  | cons change rest ih =>
    obtain ⟨hfit, hfits⟩ := List.forall_mem_cons.1 hfits
    obtain ⟨next, hnext, hrest⟩ := Option.bind_eq_some_iff.1 hm
    obtain ⟨happly, hshows⟩ := h.apply hfit hnext
    obtain ⟨hrun, hshows⟩ := ih hshows hfits hrest
    refine ⟨fun arithmetic => ?_, hshows⟩
    rw [run?, List.foldlM_cons, happly]
    exact hrun arithmetic

/-- Where every product fits a register, numbers that do not fit need not be looked for. -/
theorem run?_wrapping {changes : List ClockChange} (h : table.Shows m)
    (hwords : ∀ rows width, .reset rows width ∈ changes → width * rows < 2 ^ 64)
    (hm : m.run changes = some m') :
    table.run? .wrapping changes = table.run? .checked changes := by
  induction changes generalizing table m with
  | nil => rfl
  | cons change rest ih =>
    obtain ⟨next, hnext, hrest⟩ := Option.bind_eq_some_iff.1 hm
    have hwords' : ∀ rows width, .reset rows width ∈ rest → width * rows < 2 ^ 64 :=
      fun rows width hmem => hwords rows width (List.mem_cons_of_mem change hmem)
    simp only [run?, List.foldlM_cons]
    by_cases hfit : change.Fits
    · obtain ⟨happly, hshows⟩ := h.apply hfit hnext
      rw [happly, happly]
      exact ih hshows hwords' hrest
    · cases change with
      | reset rows width =>
        have hword := hwords rows width List.mem_cons_self
        have hfits : ¬ width * rows ≤ 2 ^ 60 := hfit
        simp only [change?, reset?_eq h.sized hword, if_neg hfits]
        split <;> rfl
      | clear | copy | join | stamp => exact absurd trivial hfit

theorem run?_eq_error {changes : List ClockChange} (h : table.Shows m)
    (hfits : ¬ ∀ change ∈ changes, change.Fits) (hm : m.run changes = some m') :
    ∃ halt, halt ≠ .outside ∧ table.run? .checked changes = .error halt := by
  induction changes generalizing table m with
  | nil => simp at hfits
  | cons change rest ih =>
    obtain ⟨next, hnext, hrest⟩ := Option.bind_eq_some_iff.1 hm
    by_cases hfit : change.Fits
    · obtain ⟨happly, hshows⟩ := h.apply hfit hnext
      have hfits : ¬ ∀ change ∈ rest, change.Fits := fun hrest =>
        hfits (List.forall_mem_cons.2 ⟨hfit, hrest⟩)
      obtain ⟨halt, hne, hrun⟩ := ih hshows hfits hrest
      exact ⟨halt, hne, by rw [run?, List.foldlM_cons, happly]; exact hrun⟩
    · obtain ⟨halt, hne, hchange⟩ := h.change?_eq_error hfit
      exact ⟨halt, hne, by rw [run?, List.foldlM_cons, hchange]; rfl⟩

theorem get?_eq_ok (h : table.Shows m) {clock : ThreadId → Nat} (hclock : m.clock step = some clock)
    {t : Nat} (ht : t < m.width) : table.get? arithmetic step t = .ok (clock t) := by
  rw [ClockTable.get?_eq_ok h.roomy h.sized (h.hasRow step clock hclock) (h.width.symm ▸ ht),
    h.get step clock hclock t ht]

theorem happensBefore?_eq_ok (h : table.Shows m) {e : Event} {answer : Bool}
    (hm : m.happensBefore? e step = some answer) :
    table.happensBefore? arithmetic e step = .ok answer := by
  obtain ⟨clock, hclock, hm⟩ := Option.bind_eq_some_iff.1 hm
  split at hm
  · next ht =>
    obtain rfl := Option.some.inj hm
    rw [happensBefore?, h.get?_eq_ok hclock ht]
    rfl
  · simp at hm

end Shows

/-- A table that is empty at first is changed in any way that may be done to clocks that are kept
apart, with resets of any sizes. All goes well exactly if every reset makes room for no more cells
than a buffer can have. Otherwise the first one that does not halts, and in no case is a cell asked
for that is not there. If all goes well, the table is the one whose numbers have no bound; the size
of the buffer is what it was at first times a power of two, and never was larger before; every row
written since the last reset holds the clock of its step; and every question about these clocks is
answered by what is in them. -/
theorem run_shows_map {changes : List ClockChange} {m : ClockMap}
    (h : (ClockMap.blank empty.rows empty.width).run changes = some m) :
    ((∃ table, empty.run? .checked changes = .ok table) ↔ ∀ change ∈ changes, change.Fits) ∧
      empty.run? .checked changes ≠ .error .outside ∧
      ∀ table, empty.run? .checked changes = .ok table →
        table = empty.run changes ∧
        (∃ k, table.cells.size = empty.cells.size * 2 ^ k) ∧
        (∀ before after, changes = before ++ after → ∃ earlier,
          empty.run? .checked before = .ok earlier ∧ earlier.cells.size ≤ table.cells.size) ∧
        table.width = m.width ∧ table.rows = m.rows ∧
        (∀ step clock, m.clock step = some clock →
          ∀ t < m.width, table.get? .checked step t = .ok (clock t)) ∧
        ∀ e step answer, m.happensBefore? e step = some answer →
          table.happensBefore? .checked e step = .ok answer := by
  have hempty : empty.Shows (ClockMap.blank empty.rows empty.width) :=
    shows_blank (by simp [Roomy, empty]) sized_empty
  by_cases hfits : ∀ change ∈ changes, change.Fits
  · obtain ⟨hrun, hshows⟩ := hempty.run hfits h
    replace hrun := hrun .checked
    refine ⟨⟨fun _ => hfits, fun _ => ⟨_, hrun⟩⟩, by simp [hrun], fun table htable => ?_⟩
    obtain rfl : empty.run changes = table := Except.ok.inj (hrun.symm.trans htable)
    refine ⟨rfl, ?_, ?_, hshows.width, hshows.rows,
      fun step clock hclock t => hshows.get?_eq_ok hclock,
      fun e step answer => hshows.happensBefore?_eq_ok⟩
    · obtain ⟨n, hn, hsize⟩ := size_run size_empty changes
      exact ⟨n - 10, by rw [hsize, size_empty, ← Nat.pow_add, Nat.add_sub_cancel' hn]⟩
    · rintro before after rfl
      obtain ⟨middle, hbefore, -⟩ := ClockMap.exists_run_of_append h
      have hfits : ∀ change ∈ before, change.Fits := fun change hmem =>
        hfits change (List.mem_append_left after hmem)
      exact ⟨_, (hempty.run hfits hbefore).1 .checked, size_run_le_append size_empty before after⟩
  · obtain ⟨halt, hne, hrun⟩ := hempty.run?_eq_error hfits h
    refine ⟨⟨?_, fun hall => absurd hall hfits⟩, by simpa [hrun] using hne, fun table htable => ?_⟩
    · rintro ⟨table, htable⟩
      simp [hrun] at htable
    · simp [hrun] at htable

/-- Two steps of two threads, and then a table with more rows and no column, with equal rows joined,
and with one row more than there is room for at first. -/
def resets : List ClockChange :=
  [.reset 2 2, .clear 1, .stamp 1 ⟨0, 1⟩, .copy 1 2, .stamp 2 ⟨1, 2⟩, .join 2 1, .reset 300 0,
    .clear 300, .reset 257 4, .clear 257, .stamp 257 ⟨3, 257⟩, .join 257 257, .copy 257 1]

theorem run_shows_map_of_resets :
    ∃ m, (ClockMap.blank empty.rows empty.width).run resets = some m ∧
      (∀ change ∈ resets, change.Fits) ∧
      ((∃ table, empty.run? .checked resets = .ok table) ↔ ∀ change ∈ resets, change.Fits) ∧
      empty.run? .checked resets ≠ .error .outside ∧
      ∀ table, empty.run? .checked resets = .ok table →
        table = empty.run resets ∧
        (∃ k, table.cells.size = empty.cells.size * 2 ^ k) ∧
        (∀ before after, resets = before ++ after → ∃ earlier,
          empty.run? .checked before = .ok earlier ∧ earlier.cells.size ≤ table.cells.size) ∧
        table.width = m.width ∧ table.rows = m.rows ∧
        (∀ step clock, m.clock step = some clock →
          ∀ t < m.width, table.get? .checked step t = .ok (clock t)) ∧
        ∀ e step answer, m.happensBefore? e step = some answer →
          table.happensBefore? .checked e step = .ok answer :=
  ⟨_, rfl, by simp [resets, ClockChange.Fits], run_shows_map rfl⟩

/-- A program without checks does the same where every product fits a register. That is so for all
numbers of steps and of threads that have 32 bits, as the steps and the threads themselves have. -/
theorem run?_wrapping {changes : List ClockChange} {m : ClockMap}
    (h : (ClockMap.blank empty.rows empty.width).run changes = some m)
    (hwords : ∀ rows width, .reset rows width ∈ changes → width * rows < 2 ^ 64) :
    empty.run? .wrapping changes = empty.run? .checked changes :=
  (shows_blank (by simp [Roomy, empty]) sized_empty).run?_wrapping hwords h

/-- With more steps than 32 bits can count, too little room may be left without checks. -/
example : empty.run? .wrapping [.reset (2 ^ 62) 4, .clear 300] = .error .outside := by
  decide +kernel

end ClockTable

end Interleaving
