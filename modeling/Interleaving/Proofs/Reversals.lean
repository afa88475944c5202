import Interleaving.Race
import Interleaving.Proofs.Subruns

/-!
# The reversal of a race in a run

Two sends of different actors to one inbox race if the later one does not need the earlier one. To
reverse the race, all steps between them that need the earlier send fall away, the later send is
made in its place, and the earlier one follows. This is a run again, and its steps are those that
are left, in the order in which they come then.

## Main definitions

* `Machine.HasRace` — two steps of a run race.
* `Machine.reversal` — the steps of a run in the order in which they come when a race is reversed.
* `Machine.reversed` — the run that makes them.

## Main statements

* `reversed_executes`, `deeds_reversed` — the run can be made, and its deeds are those of the steps.
-/

namespace Interleaving

namespace Actors

open Machine

/-- Two steps race: they are sends of different actors to one inbox, and the later one does not
happen after the earlier one. -/
structure Machine.HasRace (m : Machine) (xs : List Move) (race : Race) : Prop where
  sends : ∃ (i j : Nat) (x y : Move) (inbox : Nat), race = ⟨i + 1, j + 1⟩ ∧ i < j ∧
    xs[i]? = some x ∧ xs[j]? = some y ∧ x.instruction = .send inbox ∧ y.instruction = .send inbox ∧
    x.thread ≠ y.thread
  unordered : ¬ m.HappensBefore xs race.earlier race.later

open Classical in
/-- Whether a step of a run happens after another one. -/
noncomputable def Machine.isAfter (m : Machine) (xs : List Move) (a k : Step) : Bool :=
  decide (m.HappensBefore xs a k)

/-- The steps of a run in the order in which they come when a race is reversed: those before the
race, then those between its two steps that do not happen after the earlier one, then the later step
and the earlier one. -/
noncomputable def Machine.reversal (m : Machine) (xs : List Move) (race : Race) : List Step :=
  List.range' 1 (race.earlier - 1) ++
    (List.range' (race.earlier + 1) (race.later - (race.earlier + 1))).filter
      (fun k => !m.isAfter xs race.earlier k) ++
    [race.later, race.earlier]

/-- The run with a race reversed. -/
noncomputable def Machine.reversed (m : Machine) (xs : List Move) (race : Race) : List Move :=
  m.kept (m.isAfter xs race.earlier) xs race.later ++ xs[race.earlier - 1]?.toList

section Reversal

variable {scripts : List Script} {xs : List Move}

@[simp] theorem isAfter_iff {m : Machine} {a k : Step} :
    m.isAfter xs a k ↔ m.HappensBefore xs a k := by
  simp [Machine.isAfter]

theorem isAfter_closed {m : Machine} (a : Step) : ∀ i j, m.Precedes xs i j → m.isAfter xs a i →
    m.isAfter xs a j := by
  intro i j hp hi
  rw [isAfter_iff] at hi ⊢
  exact hi.tail hp

theorem isAfter_of_lt {a k : Nat} (h : k < a) : (load scripts).isAfter xs a k = false := by
  rw [Bool.eq_false_iff, Ne, isAfter_iff]
  exact fun hbefore => Nat.not_le.2 h hbefore.le

/-- Where nothing falls away, all is left. -/
theorem kept_of_not_falls {m : Machine} {falls : Step → Bool} {k : Nat} (hk : k ≤ xs.length)
    (h : ∀ i ≤ k, falls i = false) : m.lost falls xs k = [] ∧ m.kept falls xs k = xs.take k := by
  induction k with
  | zero => exact ⟨rfl, rfl⟩
  | succ k ih =>
    obtain ⟨hlost, hkept⟩ := ih (Nat.le_of_lt hk) fun i hi => h i (Nat.le_succ_of_le hi)
    have hf := h (k + 1) le_rfl
    have hx : xs[k]? = some xs[k] := List.getElem?_eq_getElem hk
    rw [lost_succ_of_not_falls hf, kept_succ_of_not_falls hx hf, hkept, hlost,
      List.take_add_one, hx]
    exact ⟨rfl, by rw [rank_nil]; rfl⟩

theorem getElem?_lineages_of_ne {lines : List Lineage} {u : List Move} {t : Nat}
    (ht : t < lines.length) (hu : ∀ y ∈ u, y.thread ≠ t) : (lineages lines u)[t]? = lines[t]? := by
  induction u generalizing lines with
  | nil => rfl
  | cons y u ih =>
    have hu' : ∀ z ∈ u, z.thread ≠ t := fun z hz => hu z (List.mem_cons_of_mem y hz)
    change (lineages (enrol lines y) u)[t]? = _
    unfold enrol
    split
    · rw [ih (by simp; omega) hu', List.getElem?_append_left (by simpa using ht),
        List.getElem?_set_ne (hu y List.mem_cons_self)]
    · exact ih ht hu'

/-- The actors that are missing are created after the step. -/
theorem thread_lt_of_mem_lost (joinless : Joinless scripts) (h : (load scripts).Executes xs)
    {i k : Nat} {x : Move} (hx : xs[i]? = some x) :
    ∀ u ∈ (load scripts).lost ((load scripts).isAfter xs (i + 1)) xs k, x.thread < u := by
  intro u hu
  obtain ⟨j, -, y, script, hy, hafter, -, rfl⟩ := mem_lost hu
  have hij : i ≤ j := by
    have := (isAfter_iff.1 hafter).le
    omega
  exact Nat.lt_of_lt_of_le (thread_lt_length_actors h hx)
    (length_actors_le_take joinless.ordinary h hij hx)

/-- What falls away when all does that happens after a step changes no number of its actor. -/
theorem rank_lost (joinless : Joinless scripts) (h : (load scripts).Executes xs) {i k : Nat}
    {x : Move} (hx : xs[i]? = some x) :
    rank ((load scripts).lost ((load scripts).isAfter xs (i + 1)) xs k) x.thread = x.thread := by
  have hnil := rank_append_of_le
    (fun u hu => Nat.le_of_lt (thread_lt_of_mem_lost joinless h hx (k := k) u hu)) []
  rwa [List.nil_append, rank_nil] at hnil

/-- What is left of a run when all falls away that happens after a step: the run up to there, and
then moves of other actors than the one that makes the step. -/
theorem exists_kept_eq (joinless : Joinless scripts) (h : (load scripts).Executes xs) {i k : Nat}
    {x : Move} (hx : xs[i]? = some x) (hik : i ≤ k) (hk : k ≤ xs.length) :
    ∃ u, (load scripts).kept ((load scripts).isAfter xs (i + 1)) xs k = xs.take i ++ u ∧
      ∀ y ∈ u, y.thread ≠ x.thread := by
  induction hik with
  | refl =>
    refine ⟨[], ?_, by simp⟩
    rw [List.append_nil]
    exact (kept_of_not_falls hk fun j hj => isAfter_of_lt (Nat.lt_succ_of_le hj)).2
  | @step k hik ih =>
    obtain ⟨u, hu, hne⟩ := ih (Nat.le_of_lt hk)
    have hy : xs[k]? = some xs[k] := List.getElem?_eq_getElem hk
    cases hf : (load scripts).isAfter xs (i + 1) (k + 1) with
    | true => exact ⟨u, (kept_succ_of_falls hf).trans hu, hne⟩
    | false =>
      refine ⟨u ++ [_], by rw [kept_succ_of_not_falls hy hf, hu, List.append_assoc], fun z hz => ?_⟩
      rcases List.mem_append.1 hz with hz | hz
      · exact hne z hz
      · rw [List.mem_singleton.1 hz]
        have halive := alive_of_not_falls (isAfter_closed (i + 1)) hy hf
        -- the actor makes no step that does not happen after its own
        have hother : xs[k].thread ≠ x.thread := by
          intro heq
          have hafter : (load scripts).HappensBefore xs (i + 1) (k + 1) := by
            rcases Nat.lt_or_eq_of_le hik with hlt | rfl
            · exact .single (.own hlt hx hy heq.symm)
            · exact .refl
          rw [← isAfter_iff, hf] at hafter
          simp at hafter
        have := rank_ne_rank hother halive.present fun hmem =>
          Nat.lt_irrefl _ (thread_lt_of_mem_lost joinless h hx _ hmem)
        rwa [rank_lost joinless h hx] at this

theorem le_length_kept (joinless : Joinless scripts) (h : (load scripts).Executes xs) {i k : Nat}
    {x : Move} (hx : xs[i]? = some x) (hik : i ≤ k) (hk : k ≤ xs.length) :
    i ≤ ((load scripts).kept ((load scripts).isAfter xs (i + 1)) xs k).length := by
  obtain ⟨u, hkept, -⟩ := exists_kept_eq joinless h hx hik hk
  rw [hkept, List.length_append, List.length_take]
  omega

/-- What the reversal of a race makes after the beginning that stays: what is left between its two
steps, the later one under the new number of its actor, and the earlier one. -/
theorem drop_reversed (joinless : Joinless scripts) (h : (load scripts).Executes xs) {i j : Nat}
    {x y : Move} (hij : i ≤ j) (hx : xs[i]? = some x) (hy : xs[j]? = some y)
    (hfalls : (load scripts).isAfter xs (i + 1) (j + 1) = false) :
    ((load scripts).reversed xs ⟨i + 1, j + 1⟩).drop i =
      ((load scripts).kept ((load scripts).isAfter xs (i + 1)) xs j).drop i ++ [{ y with
        thread := rank ((load scripts).lost ((load scripts).isAfter xs (i + 1)) xs j) y.thread },
        x] := by
  have hle := le_length_kept joinless h hx hij (List.getElem?_eq_some_iff.1 hy).1.le
  rw [Machine.reversed, kept_succ_of_not_falls hy hfalls, Nat.add_sub_cancel, hx,
    Option.toList_some, List.append_assoc, List.drop_append_of_le_length hle]
  rfl

/-- The steps up to the later one of a race that do not happen after the earlier one. -/
theorem filter_not_isAfter {i j : Nat} (hij : i < j)
    (hfalls : (load scripts).isAfter xs (i + 1) (j + 1) = false) :
    (List.range' 1 (j + 1)).filter (fun k => !(load scripts).isAfter xs (i + 1) k) =
      List.range' 1 i ++ (List.range' (i + 2) (j - (i + 1))).filter
        (fun k => !(load scripts).isAfter xs (i + 1) k) ++ [j + 1] := by
  have hsplit : List.range' 1 (j + 1) =
      List.range' 1 i ++ (i + 1) :: List.range' (i + 2) (j - (i + 1)) ++ [j + 1] := by
    obtain ⟨d, rfl⟩ : ∃ d, j = i + 1 + d := ⟨j - (i + 1), by omega⟩
    rw [List.range'_1_concat, Nat.add_assoc i, Nat.add_comm 1 d, ← List.range'_append_1,
      List.range'_succ, Nat.add_comm 1 i, Nat.add_comm 1 (i + (d + 1)), Nat.add_comm d 1,
      ← Nat.add_assoc, Nat.add_sub_cancel_left]
  have hbefore : (List.range' 1 i).filter (fun k => !(load scripts).isAfter xs (i + 1) k) =
      List.range' 1 i := by
    refine List.filter_eq_self.2 fun k hk => ?_
    rw [List.mem_range'_1] at hk
    rw [isAfter_of_lt (by omega)]
    rfl
  have hself : (load scripts).isAfter xs (i + 1) (i + 1) := isAfter_iff.2 .refl
  rw [hsplit, List.filter_append, List.filter_append, hbefore]
  simp [hself, hfalls]

variable {race : Race}

/-- A race can be reversed. -/
theorem reversed_executes (joinless : Joinless scripts) (h : (load scripts).Executes xs)
    (hrace : (load scripts).HasRace xs race) :
    (load scripts).Executes ((load scripts).reversed xs race) := by
  have orderly := orderly_load joinless.ordinary
  obtain ⟨⟨i, j, x, y, inbox, rfl, hij, hx, hy, hsend, -⟩, -⟩ := hrace
  have hj := (List.getElem?_eq_some_iff.1 hy).1
  obtain ⟨u, hkept, hne⟩ := exists_kept_eq joinless h hx (k := j + 1) (by omega) hj
  have mirrors := mirrors_of_closed joinless h (isAfter_closed (i + 1)) (k := j + 1) hj
  have hexecutes := mirrors.executes
  have hidle := hexecutes.idle orderly rfl
  obtain ⟨htake, hcan⟩ := h.can_at hx
  obtain ⟨rest, hnext, -⟩ := hcan.next
  simp only [reversed, Nat.add_sub_cancel, hx, Option.toList_some]
  refine executes_snoc.2 ⟨hexecutes, hidle, ⟨rest, ?_, ?_⟩, hcan.toss⟩
  · rw [hkept] at hexecutes
    rw [hkept, moves_append, (executes_append.1 hexecutes).2.getElem?_of_ne (htake.orderly orderly)
      (List.getElem?_eq_some_iff.1 hnext).1 hne, hnext]
  · simp [hsend, pending]

/-- The deeds of the run with a race reversed are those of the steps in their new order. -/
theorem deeds_reversed (joinless : Joinless scripts) (h : (load scripts).Executes xs)
    (hrace : (load scripts).HasRace xs race) :
    (deeds (founders scripts.length) ((load scripts).reversed xs race)).map some =
      ((load scripts).reversal xs race).map fun k =>
        (deeds (founders scripts.length) xs)[k - 1]? := by
  obtain ⟨⟨i, j, x, y, inbox, rfl, hij, hx, hy, -⟩, hunordered⟩ := hrace
  have hj := (List.getElem?_eq_some_iff.1 hy).1
  obtain ⟨u, hkept, hne⟩ := exists_kept_eq joinless h hx (k := j + 1) (by omega) hj
  have mirrors := mirrors_of_closed joinless h (isAfter_closed (i + 1)) (k := j + 1) hj
  have hfalls : (load scripts).isAfter xs (i + 1) (j + 1) = false := by
    rw [Bool.eq_false_iff, Ne, isAfter_iff]
    exact hunordered
  have hline : (lineages (founders scripts.length) (xs.take i ++ u))[x.thread]? =
      (lineages (founders scripts.length) (xs.take i))[x.thread]? := by
    rw [lineages_append]
    refine getElem?_lineages_of_ne ?_ hne
    rw [length_lineages_take joinless.ordinary (h.take i)]
    exact thread_lt_length_actors h hx
  simp only [reversed, reversal, Nat.add_sub_cancel, hx, Option.toList_some]
  rw [deeds_snoc, List.map_append, mirrors.deeds, filter_not_isAfter hij hfalls, hkept]
  simp [getElem?_deeds, hx, deed, hline]

/-- The reversal of a race makes no more moves than there were up to the later step. -/
theorem length_reversed_le (joinless : Joinless scripts) (h : (load scripts).Executes xs)
    (hrace : (load scripts).HasRace xs race) :
    ((load scripts).reversed xs race).length ≤ xs.length := by
  have hlength := congrArg List.length (deeds_reversed joinless h hrace)
  obtain ⟨⟨i, j, x, y, inbox, rfl, hij, -, hy, -⟩, -⟩ := hrace
  have hj := (List.getElem?_eq_some_iff.1 hy).1
  rw [List.length_map, List.length_map, length_deeds] at hlength
  have hfilter := List.length_filter_le (fun k => !(load scripts).isAfter xs (i + 1) k)
    (List.range' (i + 1 + 1) (j + 1 - (i + 1 + 1)))
  rw [List.length_range'] at hfilter
  simp only [reversal, List.length_append, List.length_range', List.length_cons,
    List.length_nil] at hlength
  omega

/-- The reversal of a race begins with what was before the race. -/
theorem exists_reversed_eq (joinless : Joinless scripts) (h : (load scripts).Executes xs)
    (hrace : (load scripts).HasRace xs race) : race.earlier.position < xs.length ∧
      ∃ u, (load scripts).reversed xs race = xs.take race.earlier.position ++ u := by
  obtain ⟨⟨i, j, x, y, inbox, rfl, hij, hx, hy, -⟩, -⟩ := hrace
  obtain ⟨u, hkept, -⟩ := exists_kept_eq joinless h hx (k := j + 1) (by omega)
    (List.getElem?_eq_some_iff.1 hy).1
  refine ⟨(List.getElem?_eq_some_iff.1 hx).1, u ++ xs[i]?.toList, ?_⟩
  rw [Machine.reversed, hkept, List.append_assoc]
  rfl

end Reversal

end Actors

end Interleaving
