/-!
# The random number generator

A multiplicative congruential generator on 128-bit words whose output is permuted: the two halves
of the state are combined and rotated by its six highest bits.

## Main definitions

* `Pcg.ofSeed` — the state that a 64-bit seed gives.
* `Pcg.next` — one 64-bit output.
* `Pcg.below` — a number below a bound, each with the same chance.
* `Pcg.below_lt` — it is below the bound.
-/

namespace Interleaving

structure Pcg where
  state : BitVec 128
deriving DecidableEq, Repr

namespace Pcg

/-- One step of the 64-bit generator that spreads a seed, and the 32-bit word it gives. -/
def seedWord (s : BitVec 64) : BitVec 64 × BitVec 32 :=
  let s := s * 6364136223846793005 + 11634580027462260723
  let x := (((s >>> 18) ^^^ s) >>> 27).setWidth 32
  (s, x.rotateRight (s >>> 59).toNat)

/-- Four words of the spread seed, the first lowest, made odd. -/
def ofSeed (seed : Nat) : Pcg :=
  let (s, a) := seedWord (BitVec.ofNat 64 seed)
  let (s, b) := seedWord s
  let (s, c) := seedWord s
  let (_, d) := seedWord s
  ⟨(d ++ c ++ b ++ a : BitVec 128) ||| 1⟩

/-- Multiplies the state, and gives its permuted output with the generator afterwards. -/
def next (g : Pcg) : BitVec 64 × Pcg :=
  let s := g.state * 0x2360ED051FC65DA44385DF649FCCF645
  (((s >>> 64) ^^^ s).setWidth 64 |>.rotateRight (s >>> 122).toNat, ⟨s⟩)

/-- The number of words of `width` bits. -/
def words (width : Nat) : Nat := Nat.pow 2 width

theorem words_pos (width : Nat) : 0 < words width := Nat.two_pow_pos width

/-- The remainders that are accepted when a number below `n` is made from `width` bits are those
below the largest product of `n` with a power of two that fits into them; this is the last. -/
def zone (width n : Nat) : Nat := n * words (width - 1 - n.log2) - 1

/-- Draws until the low half of the product with `n` is in the zone, and gives the high half. -/
def scaled (width n : Nat) : Nat → Pcg → Nat × Pcg
  | 0, g => (0, g)
  | fuel + 1, g =>
    let (v, g) := g.next
    let product := v.toNat % words width * n
    if product % words width ≤ zone width n then (product / words width, g)
    else scaled width n fuel g

/-- A number below `n`, made from outputs cut to `width` bits. The generator is back in a state it
was in before after fewer draws than there are states, so an output that has not come up by then
never does. -/
def below (width n : Nat) (g : Pcg) : Nat × Pcg := scaled width n (words 128) g

theorem scaled_lt {n : Nat} (h : 0 < n) (width fuel : Nat) (g : Pcg) :
    (scaled width n fuel g).1 < n := by
  induction fuel generalizing g with
  | zero => exact h
  | succ fuel ih =>
    simp only [scaled]
    split
    · apply Nat.div_lt_of_lt_mul
      exact Nat.mul_lt_mul_of_pos_right (Nat.mod_lt _ (words_pos width)) h
    · exact ih _

theorem below_lt {n : Nat} (h : 0 < n) (width : Nat) (g : Pcg) : (g.below width n).1 < n :=
  scaled_lt h width _ g

theorem exists_below (g : Pcg) (width : Nat) {n : Nat} (h : 0 < n) :
    ∃ v g', g.below width n = (v, g') ∧ v < n :=
  ⟨_, _, (Prod.eta _).symm, below_lt h width g⟩

end Pcg

end Interleaving
