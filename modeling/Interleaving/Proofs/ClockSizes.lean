import Mathlib.Data.Nat.Log
import Interleaving.Proofs.ClockRows

/-!
# Sizes of the clock table in registers

A machine counts cells in registers of 64 bits. A reset multiplies two sizes there and doubles a
third one, and a cell is found by a product and a sum. A reset that makes room for more than
`2 ^ 60` cells does not end well: the product does not fit, the doubling loses its highest bit and
goes on forever, or so many cells cannot be allocated. Any other reset ends with a buffer so small
that the registers hold all numbers from there on. Then the table is the one whose numbers have no
bound.

## Main definitions

* `Halt` — why a table cannot be used any more.
* `Arithmetic` — what becomes of a number that a register does not hold.
* `ClockTable.reset?` — a reset whose sizes are in registers.
* `ClockTable.get?`, `ClockTable.put?` — access to a cell that is looked for first.
* `ClockTable.Sized` — a size that a buffer may have.

## Main statements

* `ClockTable.lt_of_grow?_eq_error` — a doubling that is given up would never have ended.
* `ClockTable.reset?_eq` — when a reset in registers ends well, and what it comes to.
* `ClockTable.get?_eq_ok`, `ClockTable.put?_eq_ok` — the cells of all rows are there.
-/

namespace Interleaving

/-- Why a table cannot be used any more. -/
inductive Halt where
  /-- A number does not fit a register. -/
  | overflow
  /-- A loop goes on forever. -/
  | endless
  /-- More bytes are asked for than any allocation has. -/
  | memory
  /-- A cell is asked for that is not in the buffer, or in no row of the table. -/
  | outside
deriving DecidableEq, Repr

/-- What becomes of a number that a register does not hold. -/
inductive Arithmetic where
  /-- The program halts. -/
  | checked
  /-- The lowest bits are kept. -/
  | wrapping
deriving DecidableEq, Repr

/-- The number in a register of 64 bits. -/
def Arithmetic.word : Arithmetic → Nat → Except Halt Nat
  | .checked, n => if n < 2 ^ 64 then .ok n else .error .overflow
  | .wrapping, n => .ok (n % 2 ^ 64)

theorem Arithmetic.word_eq_ok (arithmetic : Arithmetic) {n : Nat} (h : n < 2 ^ 64) :
    arithmetic.word n = .ok n := by
  cases arithmetic with
  | checked => exact if_pos h
  | wrapping => rw [word, Nat.mod_eq_of_lt h]

namespace ClockTable

instance (table : ClockTable) (step : Nat) : Decidable (table.HasRow step) :=
  inferInstanceAs (Decidable (0 < step ∧ step ≤ table.rows))

/-- Doubles `size` until it is as large as `needed`. The highest bit falls out of the register in
either arithmetic, so that nothing is left of it after 64 doublings. -/
def grow? (needed : Nat) : Nat → Nat → Except Halt Nat
  | 0, size => if needed ≤ size then .ok size else .error .endless
  | fuel + 1, size => if needed ≤ size then .ok size else grow? needed fuel (2 * size % 2 ^ 64)

/-- Room for `rows` rows of `width` cells of four bytes each. An allocation has fewer than `2 ^ 63`
bytes. -/
def reset? (table : ClockTable) (arithmetic : Arithmetic) (rows width : Nat) :
    Except Halt ClockTable := do
  let needed ← arithmetic.word (width * rows)
  let size ← grow? needed 64 (max table.cells.size 1)
  if table.cells.size < size then
    if 4 * size < 2 ^ 63 then return { cells := Array.replicate size 0, width, rows }
    else throw .memory
  else return { table with width, rows }

/-- Where a cell is in the buffer. It has to be there, and in a row of the table. -/
def cell? (table : ClockTable) (arithmetic : Arithmetic) (step : Step) (t : ThreadId) :
    Except Halt Nat := do
  let start ← arithmetic.word (table.offset step)
  let cell ← arithmetic.word (start + t)
  if table.HasRow step ∧ t < table.width ∧ cell < table.cells.size then return cell
  else throw .outside

def get? (table : ClockTable) (arithmetic : Arithmetic) (step : Step) (t : ThreadId) :
    Except Halt Nat := do
  return table.cells.getD (← table.cell? arithmetic step t) 0

def put? (table : ClockTable) (arithmetic : Arithmetic) (step : Step) (t : ThreadId) (value : Nat) :
    Except Halt ClockTable := do
  let cell ← table.cell? arithmetic step t
  return { table with cells := table.cells.setIfInBounds cell value }

/-! ## Doubling -/

section Doubling

variable {needed fuel n : Nat}

/-- One doubling towards a size that is not yet reached. -/
theorem max_succ_clog (h : 2 ^ n < needed) :
    max (n + 1) (Nat.clog 2 needed) = max n (Nat.clog 2 needed) := by
  have hclog : n < Nat.clog 2 needed := (Nat.lt_clog_iff_pow_lt Nat.one_lt_two).2 h
  rw [max_eq_right hclog, max_eq_right hclog.le]

/-- Whatever power of two it starts from, a doubling that goes far enough ends with the first one
that is large enough. -/
theorem grow_two_pow (h : needed ≤ 2 ^ (n + fuel)) :
    grow needed fuel (2 ^ n) = 2 ^ max n (Nat.clog 2 needed) := by
  induction fuel generalizing n with
  | zero =>
    have hclog : Nat.clog 2 needed ≤ n := Nat.clog_le_of_le_pow h
    rw [grow, max_eq_left hclog]
  | succ fuel ih =>
    rw [grow]
    split
    · next hle => rw [max_eq_left (Nat.clog_le_of_le_pow hle)]
    · next hlt =>
      rw [← Nat.pow_succ', ih (by rwa [Nat.succ_add_eq_add_succ]),
        max_succ_clog (Nat.lt_of_not_le hlt)]

theorem capacity_two_pow (needed n : Nat) :
    capacity needed (2 ^ n) = 2 ^ max n (Nat.clog 2 needed) := by
  rw [capacity, max_eq_left Nat.one_le_two_pow]
  refine grow_two_pow ?_
  calc needed ≤ 2 ^ needed := Nat.lt_two_pow_self.le
    _ ≤ 2 ^ (n + needed) := Nat.pow_le_pow_right Nat.two_pos (Nat.le_add_left needed n)

/-- A register that is empty stays so. -/
theorem grow?_zero (h : 0 < needed) (fuel : Nat) : grow? needed fuel 0 = .error .endless := by
  induction fuel with
  | zero => exact if_neg (Nat.not_le.2 h)
  | succ fuel ih => rw [grow?, if_neg (Nat.not_le.2 h), Nat.mul_zero, Nat.zero_mod, ih]

/-- In a register, the doubling ends so if the highest bit is enough. -/
theorem grow?_two_pow (hn : n < 64) (hfuel : 64 ≤ n + fuel) : grow? needed fuel (2 ^ n) =
    if needed ≤ 2 ^ 63 then .ok (2 ^ max n (Nat.clog 2 needed)) else .error .endless := by
  induction fuel generalizing n with
  | zero => omega
  | succ fuel ih =>
    rw [grow?]
    split
    · next hle =>
      have hpow : 2 ^ n ≤ 2 ^ 63 := Nat.pow_le_pow_right Nat.two_pos (by omega)
      rw [if_pos (hle.trans hpow), max_eq_left (Nat.clog_le_of_le_pow hle)]
    · next hlt =>
      rw [← Nat.pow_succ']
      rcases Nat.lt_or_eq_of_le (Nat.le_of_lt_succ hn) with hn | rfl
      · have hpow : 2 ^ (n + 1) < 2 ^ 64 := Nat.pow_lt_pow_right Nat.one_lt_two (by omega)
        rw [Nat.mod_eq_of_lt hpow, ih (by omega) (by omega), max_succ_clog (Nat.lt_of_not_le hlt)]
      · -- the highest bit was set, and is lost
        rw [Nat.mod_self, grow?_zero (by omega), if_neg hlt]

/-- The register has not held enough up to the doubling at which one gives up. -/
theorem lt_of_grow?_eq_error_of_le {size : Nat} {halt : Halt}
    (h : grow? needed fuel size = .error halt) {k : Nat} (hk : k ≤ fuel) :
    size * 2 ^ k % 2 ^ 64 < needed := by
  induction fuel generalizing size k with
  | zero =>
    obtain rfl : k = 0 := Nat.le_zero.1 hk
    rw [grow?] at h
    split at h
    · contradiction
    · next hlt =>
      rw [Nat.pow_zero, Nat.mul_one]
      exact (Nat.mod_le _ _).trans_lt (Nat.lt_of_not_le hlt)
  | succ fuel ih =>
    rw [grow?] at h
    split at h
    · contradiction
    · next hlt =>
      cases k with
      | zero =>
        rw [Nat.pow_zero, Nat.mul_one]
        exact (Nat.mod_le _ _).trans_lt (Nat.lt_of_not_le hlt)
      | succ k =>
        have hdoubled := ih h (Nat.le_of_succ_le_succ hk)
        rwa [Nat.mod_mul_mod, Nat.mul_comm 2, Nat.mul_assoc, ← Nat.pow_succ'] at hdoubled

/-- A doubling that is given up would go on forever. -/
theorem lt_of_grow?_eq_error {size : Nat} {halt : Halt} (h : grow? needed 64 size = .error halt)
    (k : Nat) : size * 2 ^ k % 2 ^ 64 < needed := by
  rcases Nat.le_total k 64 with hk | hk
  · exact lt_of_grow?_eq_error_of_le h hk
  · obtain ⟨more, rfl⟩ := Nat.exists_eq_add_of_le hk
    have hlast := lt_of_grow?_eq_error_of_le h le_rfl
    rw [Nat.mul_mod_left] at hlast
    rwa [Nat.pow_add, Nat.mul_comm (2 ^ 64), ← Nat.mul_assoc, Nat.mul_mod_left]

end Doubling

/-! ## Tables that fit -/

/-- The size of the buffer is a power of two, which an allocation has room for. -/
def Sized (table : ClockTable) : Prop := ∃ n ≤ 60, table.cells.size = 2 ^ n

variable {table : ClockTable} {step rows width n : Nat} {arithmetic : Arithmetic}

theorem Sized.of_size_eq {table' : ClockTable} (sized : table.Sized)
    (h : table'.cells.size = table.cells.size) : table'.Sized := by
  rwa [Sized, h]

theorem Sized.put (sized : table.Sized) (step : Step) (t : ThreadId) (value : Nat) :
    (table.put step t value).Sized :=
  sized.of_size_eq (size_cells_put table step t value)

theorem size_empty : empty.cells.size = 2 ^ 10 := Array.size_replicate

theorem sized_empty : empty.Sized := ⟨10, by omega, size_empty⟩

theorem size_reset (h : table.cells.size = 2 ^ n) :
    (table.reset rows width).cells.size = 2 ^ max n (Nat.clog 2 (width * rows)) := by
  have hle : 2 ^ n ≤ 2 ^ max n (Nat.clog 2 (width * rows)) :=
    Nat.pow_le_pow_right Nat.two_pos (Nat.le_max_left ..)
  simp only [reset, h, capacity_two_pow]
  split
  · exact Array.size_replicate
  · omega

theorem Sized.reset (sized : table.Sized) (hfits : width * rows ≤ 2 ^ 60) :
    (table.reset rows width).Sized := by
  obtain ⟨n, hn, hsize⟩ := sized
  exact ⟨_, max_le hn (Nat.clog_le_of_le_pow hfits), size_reset hsize⟩

/-- A reset in registers is one in numbers without a bound if it makes room for at most `2 ^ 60`
cells, and does not end well otherwise. -/
theorem reset?_eq (sized : table.Sized) (hword : width * rows < 2 ^ 64) :
    table.reset? arithmetic rows width =
      if width * rows ≤ 2 ^ 60 then .ok (table.reset rows width)
      else if width * rows ≤ 2 ^ 63 then .error .memory else .error .endless := by
  obtain ⟨n, hn, hsize⟩ := sized
  have hgrow : grow? (width * rows) 64 (2 ^ n) = if width * rows ≤ 2 ^ 63 then
      .ok (2 ^ max n (Nat.clog 2 (width * rows))) else .error .endless :=
    grow?_two_pow (by omega) (by omega)
  rw [reset?, arithmetic.word_eq_ok hword, hsize, max_eq_left Nat.one_le_two_pow]
  by_cases hendless : width * rows ≤ 2 ^ 63
  · rw [if_pos hendless] at hgrow
    rw [if_pos hendless]
    simp only [bind, Except.bind, hgrow, reset, hsize, capacity_two_pow]
    by_cases hgrows : n < Nat.clog 2 (width * rows)
    · -- the buffer grows to the first size that is large enough
      have hlt : 2 ^ n < 2 ^ Nat.clog 2 (width * rows) :=
        Nat.pow_lt_pow_right Nat.one_lt_two hgrows
      have hroom : 4 * 2 ^ Nat.clog 2 (width * rows) < 2 ^ 63 ↔ width * rows ≤ 2 ^ 60 := by
        rw [show 4 = 2 ^ 2 from rfl, ← Nat.pow_add, Nat.pow_lt_pow_iff_right Nat.one_lt_two,
          ← Nat.clog_le_iff_le_pow Nat.one_lt_two]
        omega
      simp only [max_eq_right hgrows.le, hlt, if_true, hroom]
      rfl
    · have hclog : Nat.clog 2 (width * rows) ≤ 60 := (Nat.le_of_not_lt hgrows).trans hn
      rw [max_eq_left (Nat.le_of_not_lt hgrows), if_neg (Nat.lt_irrefl _),
        if_pos ((Nat.clog_le_iff_le_pow Nat.one_lt_two).1 hclog), if_neg (Nat.lt_irrefl _)]
      rfl
  · rw [if_neg hendless] at hgrow
    rw [if_neg hendless, if_neg (by omega)]
    simp only [bind, Except.bind, hgrow]

theorem Sized.reset?_eq_ok (sized : table.Sized) (hfits : width * rows ≤ 2 ^ 60) :
    table.reset? arithmetic rows width = .ok (table.reset rows width) := by
  rw [reset?_eq sized (by omega), if_pos hfits]

/-- With checks, a reset that makes room for too many cells halts before a cell is asked for. -/
theorem reset?_checked_eq_error (sized : table.Sized) (hfits : ¬ width * rows ≤ 2 ^ 60) :
    ∃ halt, halt ≠ .outside ∧ table.reset? .checked rows width = .error halt := by
  by_cases hword : width * rows < 2 ^ 64
  · rw [reset?_eq sized hword, if_neg hfits]
    split
    · exact ⟨.memory, by decide, rfl⟩
    · exact ⟨.endless, by decide, rfl⟩
  · refine ⟨.overflow, by decide, ?_⟩
    rw [reset?, Arithmetic.word, if_neg hword]
    rfl

/-! ## Access -/

/-- No number on the way to a cell of a row is too large for a register. -/
theorem cell?_eq_ok (roomy : table.Roomy) (sized : table.Sized) (hs : table.HasRow step) {t : Nat}
    (ht : t < table.width) : table.cell? arithmetic step t = .ok (table.offset step + t) := by
  obtain ⟨n, hn, hsize⟩ := sized
  have hlt := offset_lt roomy hs ht
  have hword : table.cells.size < 2 ^ 64 := by
    rw [hsize]
    exact Nat.pow_lt_pow_right Nat.one_lt_two (by omega)
  rw [cell?, arithmetic.word_eq_ok (by omega)]
  simp only [bind, Except.bind]
  rw [arithmetic.word_eq_ok (by omega)]
  exact if_pos ⟨hs, ht, hlt⟩

theorem get?_eq_ok (roomy : table.Roomy) (sized : table.Sized) (hs : table.HasRow step) {t : Nat}
    (ht : t < table.width) : table.get? arithmetic step t = .ok (table.get step t) := by
  rw [get?, cell?_eq_ok roomy sized hs ht]
  rfl

theorem put?_eq_ok (roomy : table.Roomy) (sized : table.Sized) (hs : table.HasRow step) {t : Nat}
    (ht : t < table.width) (value : Nat) :
    table.put? arithmetic step t value = .ok (table.put step t value) := by
  rw [put?, cell?_eq_ok roomy sized hs ht]
  rfl

end ClockTable

end Interleaving
