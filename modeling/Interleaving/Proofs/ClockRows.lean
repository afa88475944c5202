import Mathlib.Tactic
import Interleaving.ClockTable

/-!
# Rows of the clock table

The rows of a table lie apart: a change of one row is seen there and nowhere else. After a reset
the buffer has room for all of them.

## Main statements

* `ClockTable.get_fill_self`, `ClockTable.get_fill_of_ne` — what a change of a row changes.
* `ClockTable.roomy_reset` — a reset makes room.
-/

namespace Interleaving

namespace ClockTable

/-- The buffer holds all rows. -/
def Roomy (table : ClockTable) : Prop := table.width * table.rows ≤ table.cells.size

/-- A row of the table. -/
def HasRow (table : ClockTable) (step : Nat) : Prop := 0 < step ∧ step ≤ table.rows

variable {table : ClockTable} {step other t u : Nat}

theorem offset_lt (h : table.Roomy) (hs : table.HasRow step) (ht : t < table.width) :
    table.offset step + t < table.cells.size := by
  obtain ⟨k, rfl⟩ : ∃ k, step = k + 1 := ⟨step - 1, by have := hs.1; omega⟩
  have hrows : (k + 1) * table.width ≤ table.rows * table.width := Nat.mul_le_mul_right _ hs.2
  have hroom : table.width * table.rows ≤ table.cells.size := h
  rw [Nat.mul_comm] at hroom
  simp only [offset, Step.position, Nat.add_sub_cancel]
  rw [Nat.add_mul] at hrows
  omega

theorem offset_ne (hs : 0 < step) (ho : 0 < other) (ht : t < table.width) (hu : u < table.width)
    (hne : other ≠ step ∨ u ≠ t) : table.offset other + u ≠ table.offset step + t := by
  intro heq
  simp only [offset, Step.position] at heq
  have hdiv : other - 1 = step - 1 := by
    have := congrArg (· / table.width) heq
    simpa [Nat.mul_comm _ table.width, Nat.mul_add_div (Nat.zero_lt_of_lt ht),
      Nat.div_eq_of_lt ht, Nat.div_eq_of_lt hu] using this
  rw [hdiv] at heq
  omega

@[simp] theorem rows_put (table : ClockTable) (step : Step) (t : ThreadId) (value : Nat) :
    (table.put step t value).rows = table.rows := rfl

theorem Roomy.put (h : table.Roomy) (step : Step) (t : ThreadId) (value : Nat) :
    (table.put step t value).Roomy := by
  simpa [Roomy] using h

/-! ## Filling a row -/

section Fill

variable {source : Nat} (g : Nat → Nat → Nat)

/-- The cells of a row before the `n`-th were made of what was there before and in the row of
`source`. -/
structure Filled (table : ClockTable) (step source : Nat) (g : Nat → Nat → Nat) (n : Nat)
    (filled : ClockTable) : Prop where
  width : filled.width = table.width
  rows : filled.rows = table.rows
  size : filled.cells.size = table.cells.size
  done : ∀ t : Nat, t < n → filled.get step t = g (table.get step t) (table.get source t)
  todo : ∀ t : Nat, t < table.width → n ≤ t → filled.get step t = table.get step t
  others : ∀ other t : Nat, 0 < other → other ≠ step → t < table.width →
    filled.get other t = table.get other t

theorem filled_fill (h : table.Roomy) (hs : table.HasRow step) (hsource : 0 < source) :
    Filled table step source g table.width
      (table.fill step fun table t => g (table.get step t) (table.get source t)) := by
  have hall : ∀ n ≤ table.width, Filled table step source g n ((List.range n).foldl
      (fun table t => table.put step t (g (table.get step t) (table.get source t))) table) := by
    intro n
    induction n with
    | zero => intro _; exact ⟨rfl, rfl, rfl, by simp, fun _ _ _ => rfl, fun _ _ _ _ _ => rfl⟩
    | succ n ih =>
      intro hn
      have hf := ih (by omega)
      rw [List.range_succ, List.foldl_append, List.foldl_cons, List.foldl_nil]
      generalize (List.range n).foldl _ table = filled at hf ⊢
      have hlt : n < filled.width := by rw [hf.width]; omega
      have hroom : filled.offset step + n < filled.cells.size := by
        refine offset_lt ?_ ?_ hlt
        · simpa [Roomy, hf.width, hf.rows, hf.size] using h
        · simpa [HasRow, hf.rows] using hs
      refine ⟨hf.width, hf.rows, by simp [hf.size], fun t ht => ?_, fun t ht hnt => ?_,
        fun other t ho hne' ht => ?_⟩
      · rcases Nat.lt_succ_iff_lt_or_eq.1 ht with ht | rfl
        · rw [get_put_of_ne (offset_ne hs.1 hs.1 hlt (by omega) (.inr (by omega))), hf.done t ht]
        · have hread : filled.get source t = table.get source t := by
            by_cases hne : source = step
            · rw [hne, hf.todo t (by omega) le_rfl]
            · exact hf.others source t hsource hne (by omega)
          rw [get_put_self hroom, hf.todo t (by omega) le_rfl, hread]
      · rw [get_put_of_ne (offset_ne hs.1 hs.1 hlt (by rw [hf.width]; omega) (.inr (by omega))),
          hf.todo t ht (by omega)]
      · rw [get_put_of_ne (offset_ne hs.1 ho hlt (by rw [hf.width]; omega) (.inl hne')),
          hf.others other t ho hne' ht]
  exact hall table.width le_rfl

end Fill

namespace Filled

variable {source n : Nat} {g : Nat → Nat → Nat} {filled : ClockTable}

theorem roomy (h : Filled table step source g n filled) (hr : table.Roomy) : filled.Roomy := by
  simpa [Roomy, h.width, h.rows, h.size] using hr

theorem hasRow (h : Filled table step source g n filled) (hr : table.HasRow other) :
    filled.HasRow other := by
  simpa [HasRow, h.rows] using hr

end Filled

theorem filled_clear (h : table.Roomy) (hs : table.HasRow step) :
    Filled table step (step + 1) (fun _ _ => 0) table.width (table.clear step) :=
  filled_fill (fun _ _ => 0) h hs (Nat.succ_pos _)

theorem filled_copy {source : Nat} (h : table.Roomy) (hs : table.HasRow step)
    (hsource : 0 < source) :
    Filled table step source (fun _ b => b) table.width (table.copy source step) :=
  filled_fill (fun _ b => b) h hs hsource

theorem filled_join {source : Nat} (h : table.Roomy) (hs : table.HasRow step)
    (hsource : 0 < source) : Filled table step source max table.width (table.join step source) :=
  filled_fill max h hs hsource

/-! ## Room -/

theorem le_grow {needed : Nat} (fuel : Nat) : ∀ {size : Nat}, needed ≤ size * 2 ^ fuel →
    needed ≤ grow needed fuel size := by
  induction fuel with
  | zero => intro size h; simpa [grow] using h
  | succ fuel ih =>
    intro size h
    rw [grow]
    split
    · assumption
    · exact ih (by rw [Nat.pow_succ] at h; linarith)

theorem roomy_reset (table : ClockTable) (rows width : Nat) : (table.reset rows width).Roomy := by
  have hcap : width * rows ≤ capacity (width * rows) table.cells.size := by
    refine le_grow _ ?_
    have hpow : width * rows < 2 ^ (width * rows) := Nat.lt_two_pow_self
    calc width * rows ≤ 1 * 2 ^ (width * rows) := by omega
      _ ≤ max table.cells.size 1 * 2 ^ (width * rows) :=
        Nat.mul_le_mul_right _ (le_max_right _ _)
  simp only [Roomy, reset]
  split
  · simpa using hcap
  · omega

end ClockTable

end Interleaving
