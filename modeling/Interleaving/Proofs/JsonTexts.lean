import Interleaving.Json.Printer
import Interleaving.Json.Reader
import Interleaving.Proofs.ThreadTexts

/-!
# JSON texts are read as what was written

A value is written without blanks, and what is read of its text ends where the text ends. So values
are read again one by one, the way they were written, whatever follows them. Not every value is read
as itself: no name may stand twice in an object, and a number must be whole.

## Main definitions

* `Json.Plain` — the values that are read as themselves.
* `Json.Ends` — what may follow a number.
* `Json.IsRead` — a value is read of its characters.

## Main statements

* `Json.readString?_unquoted`, `Json.readNumber?_toDigits` — texts and numbers.
* `Json.Plain.isRead` — a value, whatever follows it.
* `Json.Plain.read?_render` — a whole text.
-/

namespace Interleaving

namespace Json

/-- A value without numbers that are not whole, and without objects that name a key twice. -/
inductive Plain : Json → Prop
  | null : Plain .null
  | bool (b : Bool) : Plain (.bool b)
  | int (n : Int) : Plain (.int n)
  | str (s : String) : Plain (.str s)
  | arr {items : List Json} (items_plain : ∀ j ∈ items, Plain j) : Plain (.arr items)
  | obj {members : List (String × Json)} (nodup : (members.map Prod.fst).Nodup)
      (values : ∀ m ∈ members, Plain m.2) : Plain (.obj members)

/-! ## Texts -/

theorem hexDigit?_digitChar : ∀ d < 16, hexDigit? d.digitChar = some d := by decide

theorem readHex4?_hex4 {n : Nat} (hn : n < 65536) (rest : List Char) :
    readHex4? (hex4 n ++ rest) = some (n, rest) := by
  have hdigit (m : Nat) : hexDigit? (m % 16).digitChar = some (m % 16) :=
    hexDigit?_digitChar _ (Nat.mod_lt m (by decide))
  have hsum : n / 4096 % 16 * 4096 + n / 256 % 16 * 256 + n / 16 % 16 * 16 + n % 16 = n := by omega
  simp [hex4, readHex4?, hdigit, hsum]

/-- A character that is written as itself. -/
def Bare (c : Char) : Prop := c ≠ '"' ∧ c ≠ '\\' ∧ 32 ≤ c.toNat

theorem escapeChar_of_bare {c : Char} (h : Bare c) : escapeChar c = [c] := by
  obtain ⟨hquote, hbackslash, hprints⟩ := h
  have hne (d : Char) (hd : d.toNat < 32) : c ≠ d := by
    rintro rfl
    omega
  simp [escapeChar, hquote, hbackslash, hne '\n' (by decide), hne '\r' (by decide),
    hne '\t' (by decide), hne '\x08' (by decide), hne '\x0c' (by decide), Nat.not_lt.2 hprints]

/-- Any other character is written as an escape that is read as the character. -/
theorem escapeChar_of_not_bare {c : Char} (h : ¬ Bare c) : ∃ escape, escapeChar c = '\\' :: escape ∧
    ∀ rest, readEscape? (escape ++ rest) = some (c, rest) := by
  unfold escapeChar
  split
  · next hc => exact ⟨['"'], rfl, fun rest => by rw [hc]; rfl⟩
  split
  · next hc => exact ⟨['\\'], rfl, fun rest => by rw [hc]; rfl⟩
  split
  · next hc => exact ⟨['n'], rfl, fun rest => by rw [hc]; rfl⟩
  split
  · next hc => exact ⟨['r'], rfl, fun rest => by rw [hc]; rfl⟩
  split
  · next hc => exact ⟨['t'], rfl, fun rest => by rw [hc]; rfl⟩
  split
  · next hc => exact ⟨['b'], rfl, fun rest => by rw [hc]; rfl⟩
  split
  · next hc => exact ⟨['f'], rfl, fun rest => by rw [hc]; rfl⟩
  split
  · next hlt =>
    refine ⟨'u' :: hex4 c.toNat, rfl, fun rest => ?_⟩
    have hread := readHex4?_hex4 (Nat.lt_trans hlt (by decide)) rest
    simp only [List.cons_append, readEscape?, readUnicode?, hread]
    rw [if_neg (by omega), if_neg (by omega), Char.ofNat_toNat]
  · next hquote hbackslash _ _ _ _ _ hprints =>
    exact absurd ⟨hquote, hbackslash, Nat.not_lt.1 hprints⟩ h

/-- A text is read up to its closing quote. -/
theorem readText?_escaped (rest : List Char) : ∀ {fuel : Nat} {cs : List Char}, cs.length < fuel →
    readText? fuel (cs.flatMap escapeChar ++ '"' :: rest) = some (cs, rest)
  | fuel + 1, [], _ => by simp [readText?]
  | fuel + 1, c :: cs, h => by
    have ih := readText?_escaped rest (Nat.lt_of_succ_lt_succ h)
    rw [List.flatMap_cons, List.append_assoc]
    by_cases hbare : Bare c
    · rw [escapeChar_of_bare hbare]
      obtain ⟨hquote, hbackslash, hprints⟩ := hbare
      simp [readText?, hquote, hbackslash, Nat.not_lt.2 hprints, ih]
    · obtain ⟨escape, hescape, hread⟩ := escapeChar_of_not_bare hbare
      rw [hescape]
      simp [readText?, hread, ih]

theorem length_le_length_escaped (cs : List Char) : cs.length ≤ (cs.flatMap escapeChar).length := by
  induction cs with
  | nil => exact le_rfl
  | cons c cs ih =>
    have hpos : 0 < (escapeChar c).length := by
      by_cases hbare : Bare c
      · rw [escapeChar_of_bare hbare]
        exact Nat.one_pos
      · obtain ⟨escape, hescape, -⟩ := escapeChar_of_not_bare hbare
        rw [hescape]
        exact Nat.succ_pos _
    rw [List.flatMap_cons, List.length_append, List.length_cons]
    omega

/-- What is left after the opening quote of a text. -/
def unquoted (s : String) : List Char := s.toList.flatMap escapeChar ++ ['"']

theorem quoted_eq (s : String) : quoted s = '"' :: unquoted s := rfl

theorem readString?_unquoted (s : String) (rest : List Char) :
    readString? (unquoted s ++ rest) = some (s, rest) := by
  have hlength := length_le_length_escaped s.toList
  have hread : readText? (unquoted s ++ rest).length (unquoted s ++ rest) =
      some (s.toList, rest) := by
    have heq : unquoted s ++ rest = s.toList.flatMap escapeChar ++ '"' :: rest := by
      simp [unquoted]
    rw [heq]
    refine readText?_escaped rest ?_
    rw [List.length_append, List.length_cons]
    omega
  rw [readString?, hread]
  simp

/-! ## Numbers -/

/-- What may follow a number: nothing that could be a part of it. -/
def Ends (rest : List Char) : Prop :=
  ∀ c ∈ rest.head?, c.isDigit = false ∧ c ≠ '.' ∧ c ≠ 'e' ∧ c ≠ 'E'

theorem ends_nil : Ends [] := by simp [Ends]

theorem ends_cons {c : Char} (h : c.isDigit = false ∧ c ≠ '.' ∧ c ≠ 'e' ∧ c ≠ 'E')
    (rest : List Char) : Ends (c :: rest) := by
  rintro d ⟨⟩
  exact h

variable {rest : List Char}

theorem Ends.readFraction? (h : Ends rest) : readFraction? rest = some ([], rest) := by
  unfold Json.readFraction?
  split
  · exact absurd rfl (h '.' rfl).2.1
  · rfl

theorem Ends.readExponent? (h : Ends rest) : readExponent? rest = some ([], rest) := by
  cases rest with
  | nil => rfl
  | cons c rest =>
    obtain ⟨-, -, hsmall, hcapital⟩ := h c rfl
    simp [Json.readExponent?, hsmall, hcapital]

/-- Digits are read up to what follows them. -/
theorem readDigits?_append {digits : List Char} (hdigits : ThreadId.Digits digits) (h : Ends rest) :
    readDigits? (digits ++ rest) = some (digits, rest) := by
  obtain ⟨hne, hall⟩ := ThreadId.digits_iff.1 hdigits
  have hspan : (digits ++ rest).span Char.isDigit = (digits, rest) := by
    rw [List.span_eq_takeWhile_dropWhile, List.takeWhile_append_of_pos (List.all_eq_true.1 hall),
      List.dropWhile_append_of_pos (List.all_eq_true.1 hall)]
    cases rest with
    | nil => simp
    | cons c rest => simp [(h c rfl).1]
  rw [readDigits?, hspan]
  cases digits with
  | nil => exact absurd rfl hne
  | cons c digits => rfl

theorem readWhole?_toDigits (n : Nat) (h : Ends rest) :
    readWhole? (Nat.toDigits 10 n ++ rest) = some (Nat.toDigits 10 n, rest) := by
  rw [readWhole?, readDigits?_append (ThreadId.digits_toDigits n) h]
  split
  · next c digits _ hzero =>
    have hnil := ThreadId.toDigits_eq_zero_cons (Prod.mk.inj (Option.some.inj hzero)).1
    simp at hnil
  · rfl

/-- A whole number is read as itself. -/
theorem readNumber?_toDigits (negative : Bool) (n : Nat) (hzero : negative = true → n ≠ 0)
    (h : Ends rest) : readNumber? negative (Nat.toDigits 10 n ++ rest) =
      some (.int (if negative then -(n : Int) else n), rest) := by
  simp only [readNumber?, readWhole?_toDigits n h, h.readFraction?, h.readExponent?, number,
    Nat.ofDigitChars_ten_toDigits, Option.bind_eq_bind, Option.bind_some]
  rw [if_pos (by simpa using hzero)]
  rfl

/-! ## Values -/

theorem isBlank_of_isDigit {c : Char} (h : c.isDigit) : isBlank c = false := by
  rw [Bool.eq_false_iff]
  intro hblank
  simp only [isBlank, Bool.or_eq_true, decide_eq_true_eq] at hblank
  rcases hblank with ((rfl | rfl) | rfl) | rfl <;> simp [Char.isDigit] at h

theorem skipBlanks_cons {c : Char} (h : isBlank c = false) (cs : List Char) :
    skipBlanks (c :: cs) = c :: cs :=
  List.dropWhile_cons_of_neg (by simp [h])

/-- How a value starts: with no blank, and with nothing that closes a list. -/
theorem starts_chars : ∀ j : Json, (∀ text, j ≠ .real text) →
    ∃ c rest, j.chars = c :: rest ∧ isBlank c = false ∧ c ≠ ']'
  | .null, _ => ⟨'n', _, rfl, by decide, by decide⟩
  | .bool true, _ => ⟨'t', _, rfl, by decide, by decide⟩
  | .bool false, _ => ⟨'f', _, rfl, by decide, by decide⟩
  | .int (.ofNat n), _ => by
    obtain ⟨c, rest, hn⟩ := List.exists_cons_of_ne_nil (ThreadId.digits_toDigits n).ne_nil
    have hc : c.isDigit :=
      ThreadId.isDigit_iff.2 ((ThreadId.digits_toDigits n).digit c (by simp [hn]))
    refine ⟨c, rest, by rw [chars, hn], isBlank_of_isDigit hc, ?_⟩
    rintro rfl
    exact absurd hc (by decide)
  | .int (.negSucc n), _ => ⟨'-', _, rfl, by decide, by decide⟩
  | .str s, _ => ⟨'"', _, rfl, by decide, by decide⟩
  | .arr items, _ => ⟨'[', _, rfl, by decide, by decide⟩
  | .obj members, _ => ⟨'\x7b', _, rfl, by decide, by decide⟩
  | .real text, h => absurd rfl (h text)

/-- A value that starts with a digit is a number. -/
theorem readValue?_of_isDigit {c : Char} (hc : c.isDigit = true) (fuel : Nat) (cs : List Char) :
    readValue? (fuel + 1) (c :: cs) = readNumber? false (c :: cs) := by
  rw [readValue?, skipBlanks_cons (isBlank_of_isDigit hc)]
  split
  all_goals first
    | rfl
    | next h => exact absurd ((List.cons.inj h).1 ▸ hc) (by decide)

/-- The value is read of its characters, whatever follows them. -/
def IsRead (j : Json) : Prop := ∀ (fuel : Nat) (rest : List Char), j.chars.length ≤ fuel →
  Ends rest → readValue? fuel (j.chars ++ rest) = some (j, rest)

/-- The items of a list are read up to its closing bracket. -/
theorem readItems?_itemChars (rest : List Char) : ∀ (fuel : Nat) {items : List Json}, items ≠ [] →
    (∀ j ∈ items, j.IsRead) → (itemChars items).length ≤ fuel →
    readItems? fuel (itemChars items ++ rest) = some (items, rest)
  | _, [], hne, _, _ => absurd rfl hne
  | 0, [item], _, _, hfuel => by simp [itemChars] at hfuel
  | fuel + 1, [item], _, hread, hfuel => by
    simp only [itemChars, List.length_append, List.length_cons, List.length_nil] at hfuel
    have hitem := hread item List.mem_cons_self fuel (']' :: rest) (by omega)
      (ends_cons (by decide) rest)
    simp [itemChars, readItems?, hitem, skipBlanks_cons (show isBlank ']' = false by decide)]
  | 0, item :: next :: items, _, _, hfuel => by simp [itemChars] at hfuel
  | fuel + 1, item :: next :: items, _, hread, hfuel => by
    simp only [itemChars, List.length_append, List.length_cons] at hfuel
    have hitem := hread item List.mem_cons_self fuel (',' :: (itemChars (next :: items) ++ rest))
      (by omega) (ends_cons (by decide) _)
    have hitems := readItems?_itemChars rest fuel (List.cons_ne_nil next items)
      (fun j hj => hread j (List.mem_cons_of_mem item hj)) (by omega)
    simp [itemChars, readItems?, hitem, hitems,
      skipBlanks_cons (show isBlank ',' = false by decide)]

/-- The members of an object are read up to its closing brace. -/
theorem readMembers?_memberChars (rest : List Char) : ∀ (fuel : Nat)
    {members : List (String × Json)}, members ≠ [] → (∀ m ∈ members, m.2.IsRead) →
    (memberChars members).length ≤ fuel →
    readMembers? fuel (memberChars members ++ rest) = some (members, rest)
  | _, [], hne, _, _ => absurd rfl hne
  | 0, [(name, value)], _, _, hfuel => by simp [memberChars] at hfuel
  | fuel + 1, [(name, value)], _, hread, hfuel => by
    simp only [memberChars, quoted_eq, List.length_append, List.length_cons, List.length_nil]
      at hfuel
    have hvalue := hread (name, value) List.mem_cons_self fuel ('\x7d' :: rest)
      (by simp only; omega) (ends_cons (by decide) rest)
    simp [memberChars, quoted_eq, readMembers?, readString?_unquoted, hvalue,
      skipBlanks_cons (show isBlank '"' = false by decide),
      skipBlanks_cons (show isBlank ':' = false by decide),
      skipBlanks_cons (show isBlank '\x7d' = false by decide)]
  | 0, (name, value) :: next :: members, _, _, hfuel => by simp [memberChars] at hfuel
  | fuel + 1, (name, value) :: next :: members, _, hread, hfuel => by
    simp only [memberChars, quoted_eq, List.length_append, List.length_cons] at hfuel
    have hvalue := hread (name, value) List.mem_cons_self fuel
      (',' :: (memberChars (next :: members) ++ rest)) (by simp only; omega)
      (ends_cons (by decide) _)
    have hmembers := readMembers?_memberChars rest fuel (List.cons_ne_nil next members)
      (fun m hm => hread m (List.mem_cons_of_mem _ hm)) (by omega)
    simp [memberChars, quoted_eq, readMembers?, readString?_unquoted, hvalue, hmembers,
      skipBlanks_cons (show isBlank '"' = false by decide),
      skipBlanks_cons (show isBlank ':' = false by decide),
      skipBlanks_cons (show isBlank ',' = false by decide)]

theorem put_of_notMem {name : String} (value : Json) : ∀ {members : List (String × Json)},
    name ∉ members.map Prod.fst → put name value members = members ++ [(name, value)]
  | [], _ => rfl
  | (key, old) :: rest, h => by
    obtain ⟨hne, hrest⟩ : name ≠ key ∧ name ∉ rest.map Prod.fst := by simpa using h
    simp [put, Ne.symm hne, put_of_notMem value hrest]

/-- An object that names no key twice has the members that were read. -/
theorem foldl_put : ∀ (members before : List (String × Json)),
    ((before ++ members).map Prod.fst).Nodup →
    members.foldl (fun ms (name, value) => put name value ms) before = before ++ members
  | [], before, _ => (List.append_nil before).symm
  | (name, value) :: rest, before, h => by
    have hmem : name ∉ before.map Prod.fst := by
      rw [List.map_append, List.nodup_append] at h
      exact fun hmem => h.2.2 name hmem name List.mem_cons_self rfl
    have ih := foldl_put rest (before ++ [(name, value)]) (by simpa using h)
    rw [List.append_assoc] at ih
    rw [List.foldl_cons]
    simp only [put_of_notMem value hmem]
    exact ih

theorem isRead_int (n : Int) : (Json.int n).IsRead := by
  rintro (_ | fuel) rest hfuel hends
  · cases n <;> simp [chars, Nat.toDigits_ne_nil] at hfuel
  cases n with
  | ofNat n =>
    obtain ⟨c, digits, hn⟩ := List.exists_cons_of_ne_nil (ThreadId.digits_toDigits n).ne_nil
    have hc : c.isDigit :=
      ThreadId.isDigit_iff.2 ((ThreadId.digits_toDigits n).digit c (by simp [hn]))
    have hnumber := readNumber?_toDigits false n (by simp) hends
    rw [hn, List.cons_append] at hnumber
    rw [chars, hn, List.cons_append, readValue?_of_isDigit hc, hnumber]
    rfl
  | negSucc n =>
    have hnumber := readNumber?_toDigits true (n + 1) (by simp) hends
    simp [chars, readValue?, skipBlanks_cons (show isBlank '-' = false by decide), hnumber]
    omega

theorem isRead_arr {items : List Json} (hitems : ∀ j ∈ items, j.Plain)
    (hread : ∀ j ∈ items, j.IsRead) : (Json.arr items).IsRead := by
  rintro (_ | fuel) rest hfuel -
  · simp [chars] at hfuel
  rw [chars, List.cons_append, readValue?, skipBlanks_cons (by decide)]
  cases items with
  | nil => simp [itemChars, skipBlanks_cons (show isBlank ']' = false by decide)]
  | cons item items =>
    rw [chars, List.length_cons] at hfuel
    have hall := readItems?_itemChars rest fuel (List.cons_ne_nil item items) hread
      (Nat.le_of_succ_le_succ hfuel)
    -- the first item does not close the list
    obtain ⟨c, cs, hc, hblank, hne⟩ := starts_chars item fun text h => by
      cases h ▸ hitems item List.mem_cons_self
    obtain ⟨more, hmore⟩ : ∃ more, itemChars (item :: items) = c :: more := by
      cases items <;> simp [itemChars, hc]
    rw [hmore, List.cons_append] at hall ⊢
    simp only [skipBlanks_cons hblank]
    split
    · next h => exact absurd (List.cons.inj h).1 hne
    · rw [hall]
      rfl

theorem isRead_obj {members : List (String × Json)} (nodup : (members.map Prod.fst).Nodup)
    (hread : ∀ m ∈ members, m.2.IsRead) : (Json.obj members).IsRead := by
  rintro (_ | fuel) rest hfuel -
  · simp [chars] at hfuel
  rw [chars, List.cons_append, readValue?, skipBlanks_cons (by decide)]
  cases members with
  | nil => simp [memberChars, skipBlanks_cons (show isBlank '\x7d' = false by decide)]
  | cons m members =>
    rw [chars, List.length_cons] at hfuel
    have hall := readMembers?_memberChars rest fuel (List.cons_ne_nil m members) hread
      (Nat.le_of_succ_le_succ hfuel)
    obtain ⟨more, hmore⟩ : ∃ more, memberChars (m :: members) = '"' :: more := by
      cases members <;> simp [memberChars, quoted_eq]
    rw [hmore, List.cons_append] at hall ⊢
    simp [skipBlanks_cons (show isBlank '"' = false by decide), hall]
    exact foldl_put _ [] nodup

theorem Plain.isRead {j : Json} (h : j.Plain) : j.IsRead := by
  induction h with
  | null =>
    rintro (_ | fuel) rest hfuel -
    · simp [chars] at hfuel
    · rfl
  | bool b =>
    rintro (_ | fuel) rest hfuel -
    · cases b <;> simp [chars] at hfuel
    · cases b <;> rfl
  | int n => exact isRead_int n
  | str s =>
    rintro (_ | fuel) rest hfuel -
    · simp [chars, quoted] at hfuel
    · simp [chars, quoted_eq, readValue?, skipBlanks_cons (show isBlank '"' = false by decide),
        readString?_unquoted]
  | arr hitems ih => exact isRead_arr hitems ih
  | obj nodup _ ih => exact isRead_obj nodup ih

/-- What is written is read as it was. -/
theorem Plain.read?_render {j : Json} (h : j.Plain) : read? j.render = some j := by
  have hread := h.isRead (2 * j.chars.length + 2) [] (by omega) ends_nil
  rw [List.append_nil] at hread
  rw [read?, render, String.toList_ofList, hread]
  rfl

end Json

end Interleaving
