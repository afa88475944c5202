import Mathlib.Tactic
import Interleaving.Thread

/-!
# Texts that name threads

A text names a thread if it is the letter, perhaps a plus sign, and a decimal number of 32 bits. The
number may start with zeros, so many texts name one thread; the one that is written for it has
neither a plus sign nor a zero that could be left out.

## Main definitions

* `ThreadId.decimal` — the number that digits stand for.
* `ThreadId.Names` — the texts that name a thread.

## Main statements

* `ThreadId.ofText_eq_ok` — which texts are read, and what they are read as.
* `ThreadId.toDigits_decimal` — the digits of a number are the only ones without such a zero.
* `ThreadId.ofText_exact` — texts and threads.
-/

namespace Interleaving

namespace ThreadId

/-- The number that decimal digits stand for: each counts ten times as much as the one after it. -/
def decimal : List Char → Nat
  | [] => 0
  | c :: rest => (c.toNat - '0'.toNat) * 10 ^ rest.length + decimal rest

/-- At least one character, and all of them decimal digits. -/
structure Digits (cs : List Char) : Prop where
  ne_nil : cs ≠ []
  digit : ∀ c ∈ cs, '0' ≤ c ∧ c ≤ '9'

/-- The text is the letter, at most one plus sign, and digits of a number that fits. -/
def Names (text : String) (t : ThreadId) : Prop :=
  ∃ sign digits, (sign = [] ∨ sign = ['+']) ∧ Digits digits ∧
    text.toList = 't' :: (sign ++ digits) ∧ decimal digits = t ∧ t < 2 ^ 32

variable {text : String} {t : ThreadId} {cs digits : List Char}

/-! ## Digits -/

theorem isDigit_iff {c : Char} : c.isDigit ↔ '0' ≤ c ∧ c ≤ '9' := Char.isDigit_iff_toNat

theorem digits_iff : Digits cs ↔ cs ≠ [] ∧ cs.all Char.isDigit := by
  constructor
  · rintro ⟨hne, hall⟩
    exact ⟨hne, List.all_eq_true.2 fun c hc => isDigit_iff.2 (hall c hc)⟩
  · rintro ⟨hne, hall⟩
    exact ⟨hne, fun c hc => isDigit_iff.1 (List.all_eq_true.1 hall c hc)⟩

/-- A plus sign is no digit. -/
theorem Digits.plus_notMem (h : Digits cs) : '+' ∉ cs :=
  fun hmem => absurd (h.digit _ hmem).1 (by decide)

theorem ofDigitChars_eq_decimal (cs : List Char) : Nat.ofDigitChars 10 cs 0 = decimal cs := by
  induction cs with
  | nil => rfl
  | cons c rest ih =>
    rw [Nat.ofDigitChars_cons, Nat.ofDigitChars_eq_ofDigitChars_zero, ih, decimal, Nat.mul_zero,
      Nat.zero_add, Nat.mul_comm]

/-- One more digit at the end. -/
theorem decimal_concat (cs : List Char) (c : Char) :
    decimal (cs ++ [c]) = 10 * decimal cs + (c.toNat - '0'.toNat) := by
  rw [← ofDigitChars_eq_decimal, ← ofDigitChars_eq_decimal, Nat.ofDigitChars_append,
    Nat.ofDigitChars_cons, Nat.ofDigitChars_nil]

/-! ## Reading -/

/-- The digits are those without a sign, and a sign counts for nothing. -/
theorem number?_eq_some : number? cs = some t ↔
    ∃ sign digits, (sign = [] ∨ sign = ['+']) ∧ Digits digits ∧ cs = sign ++ digits ∧
      decimal digits = t ∧ t < 2 ^ 32 := by
  have hread (digits : List Char) :
      (if digits ≠ [] ∧ digits.all Char.isDigit then
        let n := Nat.ofDigitChars 10 digits 0
        if n < wordBound then some n else none
      else none) = some t ↔ Digits digits ∧ decimal digits = t ∧ t < 2 ^ 32 := by
    rw [ofDigitChars_eq_decimal, digits_iff, show wordBound = 2 ^ 32 from rfl]
    simp only [Option.ite_none_right_eq_some, Option.some.injEq]
    constructor
    · rintro ⟨hdigits, hlt, rfl⟩
      exact ⟨hdigits, rfl, hlt⟩
    · rintro ⟨hdigits, rfl, hlt⟩
      exact ⟨hdigits, hlt, rfl⟩
  by_cases hplus : ∃ rest, cs = '+' :: rest
  · obtain ⟨rest, rfl⟩ := hplus
    refine (hread rest).trans ?_
    constructor
    · rintro ⟨hdigits, hvalue⟩
      exact ⟨['+'], rest, .inr rfl, hdigits, rfl, hvalue⟩
    · rintro ⟨sign, digits, rfl | rfl, hdigits, heq, hvalue⟩
      · obtain rfl : '+' :: rest = digits := heq
        exact absurd List.mem_cons_self hdigits.plus_notMem
      · obtain rfl : rest = digits := (List.cons.inj heq).2
        exact ⟨hdigits, hvalue⟩
  · rw [number?, hread]
    · constructor
      · rintro ⟨hdigits, hvalue⟩
        exact ⟨[], cs, .inl rfl, hdigits, rfl, hvalue⟩
      · rintro ⟨sign, digits, rfl | rfl, hdigits, rfl, hvalue⟩
        · exact ⟨hdigits, hvalue⟩
        · exact absurd ⟨digits, rfl⟩ hplus
    · exact fun rest hrest => hplus ⟨rest, hrest⟩

theorem ofText_eq_ok : ofText text = .ok t ↔ Names text t := by
  unfold ofText Names
  split
  · next rest hrest =>
    simp only [hrest, List.cons.injEq, true_and, ← number?_eq_some]
    cases number? rest <;> simp
  · next hletter =>
    refine iff_of_false (by simp) ?_
    rintro ⟨sign, digits, -, -, heq, -⟩
    exact hletter _ heq

/-! ## Writing -/

theorem toList_text (t : ThreadId) : t.text.toList = 't' :: Nat.toDigits 10 t := by
  simp [text, String.toList_append]

theorem digits_toDigits (n : Nat) : Digits (Nat.toDigits 10 n) :=
  ⟨Nat.toDigits_ne_nil, fun _ hc => isDigit_iff.1
    (Nat.isDigit_of_mem_toDigits (by decide) (by decide) hc)⟩

theorem decimal_toDigits (n : Nat) : decimal (Nat.toDigits 10 n) = n := by
  rw [← ofDigitChars_eq_decimal, Nat.ofDigitChars_ten_toDigits]

/-- A number that is written starts with zero only if it is zero. -/
theorem toDigits_eq_zero_cons {n : Nat} {rest : List Char} (h : Nat.toDigits 10 n = '0' :: rest) :
    rest = [] := by
  induction n using Nat.strong_induction_on generalizing rest with
  | h n ih =>
    by_cases hlt : n < 10
    · rw [Nat.toDigits_of_lt_base hlt] at h
      exact (List.cons.inj h).2.symm
    · rw [Nat.toDigits_of_base_le (by decide) (Nat.le_of_not_lt hlt)] at h
      cases hfront : Nat.toDigits 10 (n / 10) with
      | nil => exact absurd hfront Nat.toDigits_ne_nil
      | cons c front =>
        rw [hfront] at h
        obtain rfl : c = '0' := (List.cons.inj h).1
        obtain rfl := ih (n / 10) (by omega) hfront
        have hzero : n / 10 = 0 := by rw [← decimal_toDigits (n / 10), hfront]; rfl
        omega

theorem digitChar_toNat {c : Char} (h : '0' ≤ c ∧ c ≤ '9') :
    (c.toNat - '0'.toNat).digitChar = c ∧ c.toNat - '0'.toNat < 10 := by
  have hlow : 48 ≤ c.toNat := h.1
  have hhigh : c.toNat ≤ 57 := h.2
  have hlt : c.toNat - '0'.toNat < 10 := by
    change c.toNat - 48 < 10
    omega
  refine ⟨Char.toNat_inj.1 ?_, hlt⟩
  rw [Nat.toNat_digitChar_of_lt_ten hlt]
  change 48 + (c.toNat - 48) = c.toNat
  omega

/-- Digits of which the first is not zero, unless it is the only one, are those written for their
number. -/
theorem toDigits_decimal (hdigits : Digits digits)
    (hzero : ∀ rest, digits = '0' :: rest → rest = []) :
    Nat.toDigits 10 (decimal digits) = digits := by
  induction digits using List.reverseRecOn with
  | nil => exact absurd rfl hdigits.ne_nil
  | append_singleton front c ih =>
    obtain ⟨hchar, hlt⟩ := digitChar_toNat (hdigits.digit c (by simp))
    rw [decimal_concat]
    by_cases hfront : front = []
    · subst hfront
      rw [decimal, Nat.mul_zero, Nat.zero_add, Nat.toDigits_of_lt_base hlt, hchar]
      rfl
    · have hhead : ∀ rest, front ≠ '0' :: rest := by
        rintro rest rfl
        simpa using hzero (rest ++ [c]) rfl
      have hwritten := ih ⟨hfront, fun d hd => hdigits.digit d (List.mem_append_left _ hd)⟩
        fun rest h => absurd h (hhead rest)
      have hpos : 0 < decimal front := by
        refine Nat.pos_of_ne_zero fun h => hhead [] ?_
        rw [← hwritten, h]
        rfl
      rw [← Nat.toDigits_append_toDigits (by decide) hpos hlt, hwritten,
        Nat.toDigits_of_lt_base hlt, hchar]

theorem names_text (h : t < 2 ^ 32) : Names t.text t :=
  ⟨[], Nat.toDigits 10 t, .inl rfl, digits_toDigits t, toList_text t, decimal_toDigits t, h⟩

/-- A text names a thread as this is written iff nothing of it could be left out. -/
theorem Names.text_eq_iff (h : Names text t) :
    t.text = text ↔ '+' ∉ text.toList ∧ ∀ rest, text.toList = 't' :: '0' :: rest → rest = [] := by
  constructor
  · rintro rfl
    rw [toList_text]
    refine ⟨fun hmem => ?_, fun rest hrest => toDigits_eq_zero_cons (List.cons.inj hrest).2⟩
    rcases List.mem_cons.1 hmem with hletter | hmem
    · exact absurd hletter (by decide)
    · exact (digits_toDigits t).plus_notMem hmem
  · obtain ⟨sign, digits, rfl | rfl, hdigits, hlist, rfl, -⟩ := h
    · rintro ⟨-, hzero⟩
      rw [← String.toList_inj, toList_text, hlist, toDigits_decimal hdigits]
      · rfl
      · rintro rest rfl
        exact hzero rest hlist
    · rintro ⟨hplus, -⟩
      simp [hlist] at hplus

/-- A text is read iff it names a thread, which is what it is read as. So every thread is read from
the text that is written for it, and a text that is read is the one written for its thread iff it
has neither a plus sign nor a zero before other digits. -/
theorem ofText_exact (text : String) (t : ThreadId) :
    (ofText text = .ok t ↔ Names text t) ∧ (t < 2 ^ 32 → ofText t.text = .ok t) ∧
      (ofText text = .ok t → (t.text = text ↔
        '+' ∉ text.toList ∧ ∀ rest, text.toList = 't' :: '0' :: rest → rest = [])) :=
  ⟨ofText_eq_ok, fun h => ofText_eq_ok.2 (names_text h), fun h => (ofText_eq_ok.1 h).text_eq_iff⟩

/-- The largest number, with a sign and zeros. -/
theorem ofText_exact_of_padded :
    ofText "t+004294967295" = .ok 4294967295 ∧ Names "t+004294967295" 4294967295 ∧
      ofText (ThreadId.text 4294967295) = .ok 4294967295 ∧
      (ThreadId.text 4294967295 = "t+004294967295" ↔ '+' ∉ "t+004294967295".toList ∧
        ∀ rest, "t+004294967295".toList = 't' :: '0' :: rest → rest = []) := by
  obtain ⟨hread, hwritten, hplain⟩ := ofText_exact "t+004294967295" 4294967295
  have hok : ofText "t+004294967295" = .ok 4294967295 := by decide
  exact ⟨hok, hread.1 hok, hwritten (by decide), hplain hok⟩

end ThreadId

end Interleaving
