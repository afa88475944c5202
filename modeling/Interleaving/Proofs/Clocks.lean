import Interleaving.Analysis.Basic
import Interleaving.Proofs.ClockRows
import Interleaving.Proofs.Ordering

/-!
# Clocks tell the order of the steps

The walk over a schedule keeps the last steps of threads and targets, and gives each step a clock.
A step's clock tells which steps come before it in an order that depends on the mode: those of a
thread up to the one that the clock names.

## Main definitions

* `ClockTable.Tells` — a row tells which steps have a property.
* `Trace.Order` — an order of steps that the walk can build up.
* `Walked` — the tables of an analysis after so many steps.

## Main statements

* `Walked.enter`, `Entered.walked_joins` — one more step.
-/

namespace Interleaving

/-- What the clock of step `j` may hold for a thread: a step of the thread up to `j`, or zero. -/
def Trace.Stamp (tr : Trace) (t : ThreadId) (j value : Nat) : Prop :=
  value ≤ j ∧ (value = 0 ∨ tr.Ran t value)

theorem Trace.Stamp.mono {tr : Trace} {t : ThreadId} {i j value : Nat} (h : tr.Stamp t i value)
    (hij : i ≤ j) : tr.Stamp t j value := ⟨h.1.trans hij, h.2⟩

theorem Trace.Stamp.max {tr : Trace} {t : ThreadId} {j v w : Nat} (hv : tr.Stamp t j v)
    (hw : tr.Stamp t j w) : tr.Stamp t j (max v w) := by
  rcases max_choice v w with h | h <;> rw [h] <;> assumption

/-- The row of a step names, for each thread, a step up to which the steps of the thread are those
that have a property. -/
def ClockTable.Tells (table : ClockTable) (tr : Trace) (j : Nat) (Q : Nat → Prop) : Prop :=
  ∀ t < table.width, tr.Stamp t j (table.get j t) ∧ ∀ i, tr.Ran t i → (i ≤ table.get j t ↔ Q i)

/-- An order of the steps that holds between the steps of a thread. -/
structure Trace.Order (tr : Trace) (R : Nat → Nat → Prop) : Prop where
  refl : ∀ i, R i i
  le : ∀ {i j : Nat}, R i j → i ≤ j
  own : ∀ {t : ThreadId} {i j : Nat}, i < j → tr.Ran t i → tr.Ran t j → R i j

theorem Trace.order_reaches (tr : Trace) : tr.Order tr.Reaches where
  refl := fun _ => .refl
  le := Trace.Reaches.le
  own := fun hlt hi hj => .single ⟨hlt, .inl ⟨_, hi, hj⟩⟩

/-- What is before a step in an order is the step itself, or is before the last step of its thread
before it, or is before its source. -/
def ComesThrough (R : Nat → Nat → Prop) (j : Nat) (previous source : Option Nat) : Prop :=
  ∀ i, R i j ↔ i = j ∨ (∃ p, previous = some p ∧ R i p) ∨ ∃ s, source = some s ∧ R i s

/-- The tables of an analysis after the first `k` steps, whose clocks tell the order `R`. -/
structure Walked (R : Nat → Nat → Prop) (tr : Trace) (k : Nat) (a : Analysis) : Prop where
  roomy : a.clocks.Roomy
  rows : a.clocks.rows = tr.length
  threads : ∀ p ∈ tr, p.thread < a.clocks.width
  lastStep : ∀ t < a.clocks.width, ∃ r, a.lastStep[t]? = some r ∧ LastOf (tr.Ran t) (k + 1) r
  lastSend : ∀ x, LastOf (tr.SentTo x) (k + 1) a.lastSend[x]?
  lastLifecycle : ∀ x, LastOf (tr.LivedOn x) (k + 1) a.lastLifecycle[x]?
  clocks : ∀ j, 0 < j → j ≤ k → a.clocks.Tells tr j (R · j)

/-- The tables when step `k + 1` was entered and is ordered after the last step of its thread
before it, but not yet after its source. -/
structure Entered (R : Nat → Nat → Prop) (tr : Trace) (k : Nat) (previous : Option Nat)
    (a : Analysis) : Prop where
  roomy : a.clocks.Roomy
  rows : a.clocks.rows = tr.length
  threads : ∀ p ∈ tr, p.thread < a.clocks.width
  lastStep : ∀ t < a.clocks.width, ∃ r, a.lastStep[t]? = some r ∧ LastOf (tr.Ran t) (k + 2) r
  lastSend : ∀ x, LastOf (tr.SentTo x) (k + 2) a.lastSend[x]?
  lastLifecycle : ∀ x, LastOf (tr.LivedOn x) (k + 2) a.lastLifecycle[x]?
  clocks : ∀ j, 0 < j → j ≤ k → a.clocks.Tells tr j (R · j)
  row : a.clocks.Tells tr (k + 1) fun i =>
    i = k + 1 ∨ ∃ p, previous = some p ∧ R i p

section Begin

variable {R : Nat → Nat → Prop} {tr : Trace} {k : Nat} {a : Analysis} {q : Pending}

theorem Trace.thread_eq_of_ran {t : ThreadId} (hq : tr.stepAt k = some q) (h : tr.Ran t k) :
    q.thread = t := by
  obtain ⟨p, hp, ht⟩ := h
  obtain rfl : q = p := by simpa [hq] using hp
  exact ht

theorem Trace.mem_of_stepAt (hq : tr.stepAt k = some q) : q ∈ tr := by
  cases k with
  | zero => simp [Trace.stepAt] at hq
  | succ k => exact List.mem_of_getElem? hq

theorem Trace.hasRow {table : ClockTable} (hrows : table.rows = tr.length)
    (hq : tr.stepAt k = some q) : table.HasRow k :=
  ⟨Trace.stepAt_pos hq, hrows ▸ Trace.stepAt_le hq⟩

/-- The row of a step that is begun, before its own entry: that of the last step of the thread, or
an empty one. -/
theorem Walked.exists_base (h : Walked R tr k a) (hq : tr.stepAt (k + 1) = some q)
    {previous : Option Nat} (hprevious : a.lastStep[q.thread]? = some previous)
    (hlast : LastOf (tr.Ran q.thread) (k + 1) previous) : ∃ base source g,
      (a.begin (k + 1) q.thread).clocks = base.stamp (k + 1) ⟨q.thread, k + 1⟩ ∧
      ClockTable.Filled a.clocks (k + 1) source g a.clocks.width base ∧
      ∀ t < a.clocks.width, tr.Stamp t k (base.get (k + 1) t) ∧ ∀ i, tr.Ran t i →
        (i ≤ base.get (k + 1) t ↔ ∃ p, previous = some p ∧ R i p) := by
  have hrow : a.clocks.HasRow (k + 1) := Trace.hasRow h.rows hq
  cases previous with
  | none =>
    have hf := ClockTable.filled_clear h.roomy hrow
    refine ⟨_, _, _, by simp [Analysis.begin, hprevious], hf, fun t ht => ?_⟩
    rw [hf.done t ht]
    refine ⟨⟨Nat.zero_le _, .inl rfl⟩, fun i hi => ?_⟩
    obtain ⟨p, hp, -⟩ := hi
    have := Trace.stepAt_pos hp
    simp
    omega
  | some p =>
    have hppos : 0 < p := by
      obtain ⟨p', hp', -⟩ := hlast.2.1
      exact Trace.stepAt_pos hp'
    have hf := ClockTable.filled_copy h.roomy hrow hppos
    refine ⟨_, _, _, by simp [Analysis.begin, hprevious], hf, fun t ht => ?_⟩
    rw [hf.done t ht]
    obtain ⟨hstamp, htells⟩ := h.clocks p hppos (Nat.le_of_lt_succ hlast.1) t ht
    refine ⟨hstamp.mono (Nat.le_of_lt_succ hlast.1), fun i hi => ?_⟩
    simpa using htells i hi

/-- The own entry of a step tells of the steps of its thread up to it. -/
theorem Trace.Order.le_own_iff (order : tr.Order R) {t : ThreadId} {previous : Option Nat}
    (hlast : LastOf (tr.Ran t) (k + 1) previous) {i : Nat} (hi : tr.Ran t i) :
    i ≤ k + 1 ↔ i = k + 1 ∨ ∃ p, previous = some p ∧ R i p := by
  constructor
  · intro hle
    rcases Nat.lt_or_eq_of_le hle with hlt | heq
    · cases previous with
      | none => exact absurd hi (hlast i hlt)
      | some p =>
        refine .inr ⟨p, rfl, ?_⟩
        rcases Nat.lt_or_eq_of_le (hlast.2.2 i hlt hi) with hip | rfl
        · exact order.own hip hi hlast.2.1
        · exact order.refl i
    · exact .inl heq
  · rintro (rfl | ⟨p, rfl, hp⟩)
    · exact le_rfl
    · exact (order.le hp).trans (Nat.le_of_lt hlast.1)

/-- The row of a step that is begun. -/
theorem Walked.begin (order : tr.Order R) (h : Walked R tr k a) (hq : tr.stepAt (k + 1) = some q) :
    ∃ previous, LastOf (tr.Ran q.thread) (k + 1) previous ∧
      (a.begin (k + 1) q.thread).clocks.Roomy ∧
      (a.begin (k + 1) q.thread).clocks.rows = a.clocks.rows ∧
      (a.begin (k + 1) q.thread).clocks.width = a.clocks.width ∧
      (∀ j t, 0 < j → j ≠ k + 1 → t < a.clocks.width →
        (a.begin (k + 1) q.thread).clocks.get j t = a.clocks.get j t) ∧
      (a.begin (k + 1) q.thread).clocks.Tells tr (k + 1) fun i =>
        i = k + 1 ∨ ∃ p, previous = some p ∧ R i p := by
  have hthread := h.threads q (Trace.mem_of_stepAt hq)
  obtain ⟨previous, hprevious, hlast⟩ := h.lastStep q.thread hthread
  obtain ⟨base, source, g, hbase, hfilled, hrowbase⟩ := h.exists_base hq hprevious hlast
  have hroom := hfilled.roomy h.roomy
  have hrow := hfilled.hasRow (Trace.hasRow h.rows hq)
  have hwidth := hfilled.width
  rw [hbase]
  refine ⟨previous, hlast, hroom.put _ _ _, hfilled.rows, hwidth, fun j t hj hne ht => ?_,
    fun t ht => ?_⟩
  · rw [ClockTable.stamp, ClockTable.get_put_of_ne
      (ClockTable.offset_ne (Nat.succ_pos k) hj (hwidth ▸ hthread) (hwidth ▸ ht) (.inl hne)),
      hfilled.others j t hj hne ht]
  · have ht' : t < a.clocks.width := hwidth ▸ ht
    by_cases htq : t = q.thread
    · subst htq
      rw [ClockTable.stamp, ClockTable.get_put_self
        (ClockTable.offset_lt hroom hrow (hwidth ▸ hthread))]
      exact ⟨⟨le_rfl, .inr ⟨q, hq, rfl⟩⟩, fun i hi => order.le_own_iff hlast hi⟩
    · obtain ⟨hstamp, htells⟩ := hrowbase t ht'
      rw [ClockTable.stamp, ClockTable.get_put_of_ne (ClockTable.offset_ne (Nat.succ_pos k)
        (Nat.succ_pos k) (hwidth ▸ hthread) (hwidth ▸ ht') (.inr htq))]
      refine ⟨hstamp.mono (Nat.le_succ k), fun i hi => (htells i hi).trans ⟨.inr, ?_⟩⟩
      rintro (rfl | hp)
      · exact absurd (Trace.thread_eq_of_ran hq hi).symm htq
      · exact hp

theorem Walked.lastStep_begin (h : Walked R tr k a) (hq : tr.stepAt (k + 1) = some q) :
    ∀ t < a.clocks.width, ∃ r, (a.begin (k + 1) q.thread).lastStep[t]? = some r ∧
      LastOf (tr.Ran t) (k + 2) r := by
  intro t ht
  obtain ⟨r, hr, hlast⟩ := h.lastStep t ht
  have hlt := (List.getElem?_eq_some_iff.1 hr).1
  by_cases htq : q.thread = t
  · refine ⟨some (k + 1), ?_, lastOf_self ⟨q, hq, htq⟩⟩
    subst htq
    exact List.getElem?_set_self hlt
  · refine ⟨r, ?_, hlast.succ fun hran => htq (Trace.thread_eq_of_ran hq hran)⟩
    simp [Analysis.begin, List.getElem?_set_ne htq, hr]

end Begin

/-- Enters a step: it begins, and is the last one to access its target. -/
def Analysis.enter (a : Analysis) (i : Step) (q : Pending) : Analysis × Option Step :=
  match q.target with
  | none => (a.begin i q.thread, none)
  | some target => (a.begin i q.thread).access i q.op target q.sendStep

section Enter

variable {R : Nat → Nat → Prop} {tr : Trace} {k : Nat} {a : Analysis} {q : Pending}

@[simp] theorem Analysis.clocks_enter (a : Analysis) (i : Step) (q : Pending) :
    (a.enter i q).1.clocks = (a.begin i q.thread).clocks := by
  unfold enter
  split
  · rfl
  · cases q.op <;> rfl

@[simp] theorem Analysis.lastStep_enter (a : Analysis) (i : Step) (q : Pending) :
    (a.enter i q).1.lastStep = (a.begin i q.thread).lastStep := by
  unfold enter
  split
  · rfl
  · cases q.op <;> rfl

@[simp] theorem Analysis.races_enter (a : Analysis) (i : Step) (q : Pending) :
    (a.enter i q).1.races = a.races := by
  unfold enter
  split
  · rfl
  · cases q.op <;> rfl

theorem Trace.not_sentTo {x : Nat} (hq : tr.stepAt k = some q)
    (h : ¬ (q.op = .send ∧ q.target = some x)) : ¬ tr.SentTo x k := by
  rintro ⟨p, hp, hop, htarget⟩
  obtain rfl : q = p := by simpa [hq] using hp
  exact h ⟨hop, htarget⟩

theorem Trace.not_livedOn {x : Nat} (hq : tr.stepAt k = some q)
    (h : ¬ (q.op.isLifecycle ∧ q.target = some x)) : ¬ tr.LivedOn x k := by
  rintro ⟨p, hp, hop, htarget⟩
  obtain rfl : q = p := by simpa [hq] using hp
  exact h ⟨hop, htarget⟩

/-- The last send to each target once a step was entered. -/
theorem Walked.lastSend_enter (h : Walked R tr k a) (hq : tr.stepAt (k + 1) = some q) (x : Nat) :
    LastOf (tr.SentTo x) (k + 2) (a.enter (k + 1) q).1.lastSend[x]? := by
  have hold := h.lastSend x
  by_cases hsend : q.op = .send ∧ q.target = some x
  · have : (a.enter (k + 1) q).1.lastSend[x]? = some (k + 1) := by
      simp [Analysis.enter, hsend.2, hsend.1, Analysis.access]
    rw [this]
    exact lastOf_self ⟨q, hq, hsend⟩
  · have : (a.enter (k + 1) q).1.lastSend[x]? = a.lastSend[x]? := by
      unfold Analysis.enter
      split
      · rfl
      · next target htarget =>
        cases hop : q.op <;> try rfl
        have hne : target ≠ x := by
          rintro rfl
          exact hsend ⟨hop, htarget⟩
        simp [Analysis.access, Analysis.begin, Std.TreeMap.getElem?_insert, hne]
    rw [this]
    exact hold.succ (Trace.not_sentTo hq hsend)

/-- The last step in the life of each target once a step was entered. -/
theorem Walked.lastLifecycle_enter (h : Walked R tr k a) (hq : tr.stepAt (k + 1) = some q)
    (x : Nat) : LastOf (tr.LivedOn x) (k + 2) (a.enter (k + 1) q).1.lastLifecycle[x]? := by
  have hold := h.lastLifecycle x
  by_cases hlife : q.op.isLifecycle ∧ q.target = some x
  · have : (a.enter (k + 1) q).1.lastLifecycle[x]? = some (k + 1) := by
      have hop := hlife.1
      simp only [Analysis.enter, hlife.2]
      cases ho : q.op <;> simp [ho, Operation.isLifecycle, Analysis.access] at hop ⊢
    rw [this]
    exact lastOf_self ⟨q, hq, hlife⟩
  · have : (a.enter (k + 1) q).1.lastLifecycle[x]? = a.lastLifecycle[x]? := by
      unfold Analysis.enter
      split
      · rfl
      · next target htarget =>
        have hne : q.op.isLifecycle → target ≠ x := by
          rintro hop rfl
          exact hlife ⟨hop, htarget⟩
        cases hop : q.op <;>
          simp [hop, Operation.isLifecycle, Analysis.access, Analysis.begin,
            Std.TreeMap.getElem?_insert] at hne ⊢ <;>
          exact fun heq => absurd heq hne
    rw [this]
    exact hold.succ (Trace.not_livedOn hq hlife)

/-- Entering a step gives the step that it is to be ordered after. -/
theorem Walked.source_enter (h : Walked R tr k a)
    (hreceive : q.op = .receive → q.target.isSome → ∀ i ∈ q.sendStep, 0 < i ∧ i < k + 1) :
    tr.Source (k + 1) q (a.enter (k + 1) q).2 := by
  unfold Trace.Source Analysis.enter
  cases htarget : q.target with
  | none => rfl
  | some x =>
    have hsend := h.lastSend x
    have hlife := h.lastLifecycle x
    cases hop : q.op <;> simp [Analysis.access, Operation.isLifecycle, Analysis.begin]
    case send => exact hsend
    case start => exact hlife
    case stop => exact hlife
    case create => exact hlife
    case join => exact hlife
    case receive =>
      intro i hi
      obtain ⟨hpos, hlt⟩ := hreceive hop (by simp [htarget]) i hi
      exact ⟨hpos, Nat.le_of_lt_succ hlt⟩

/-- A step is entered after the first `k`. -/
theorem Walked.enter (order : tr.Order R) (h : Walked R tr k a) (hq : tr.stepAt (k + 1) = some q) :
    ∃ previous, LastOf (tr.Ran q.thread) (k + 1) previous ∧
      Entered R tr k previous (a.enter (k + 1) q).1 := by
  obtain ⟨previous, hlast, hroomy, hrows, hwidth, hothers, hrow⟩ := h.begin order hq
  refine ⟨previous, hlast, ?_, ?_, ?_, ?_, h.lastSend_enter hq, h.lastLifecycle_enter hq, ?_, ?_⟩
  · simpa using hroomy
  · rw [Analysis.clocks_enter, hrows, h.rows]
  · rw [Analysis.clocks_enter, hwidth]
    exact h.threads
  · rw [Analysis.clocks_enter, Analysis.lastStep_enter, hwidth]
    exact h.lastStep_begin hq
  · intro j hpos hle t ht
    rw [Analysis.clocks_enter, hwidth] at ht
    rw [Analysis.clocks_enter, hothers j t hpos (by omega) ht]
    exact h.clocks j hpos hle t ht
  · simpa using hrow

/-- Rows are joined to that of step `k + 1` one by one, which changes no other row. -/
theorem ClockTable.tells_joins {sources : List Nat} (hsources : ∀ s ∈ sources, 0 < s ∧ s < k + 1) :
    ∀ {table : ClockTable} {Q : Nat → Prop}, table.Roomy → table.HasRow (k + 1) →
      (∀ j, 0 < j → j ≤ k → table.Tells tr j (R · j)) → table.Tells tr (k + 1) Q →
      ∀ joined, joined = sources.foldl (fun table s => table.join (k + 1) s) table →
        joined.Roomy ∧ joined.rows = table.rows ∧ joined.width = table.width ∧
        (∀ j, 0 < j → j ≤ k → joined.Tells tr j (R · j)) ∧
        joined.Tells tr (k + 1) fun i => Q i ∨ ∃ s ∈ sources, R i s := by
  induction sources with
  | nil =>
    rintro table Q hroom - hclocks hrow _ rfl
    exact ⟨hroom, rfl, rfl, hclocks, by simpa using hrow⟩
  | cons s sources ih =>
    intro table Q hroom hhas hclocks hrow joined hjoined
    obtain ⟨hpos, hlt⟩ := hsources s List.mem_cons_self
    have hf := filled_join hroom hhas hpos
    have hclocks' : ∀ j, 0 < j → j ≤ k → (table.join (k + 1) s).Tells tr j (R · j) := by
      intro j hj hle t ht
      rw [hf.width] at ht
      rw [hf.others j t hj (by omega) ht]
      exact hclocks j hj hle t ht
    have hrow' : (table.join (k + 1) s).Tells tr (k + 1) fun i => Q i ∨ R i s := by
      intro t ht
      rw [hf.width] at ht
      obtain ⟨hstamp₁, htells₁⟩ := hrow t ht
      obtain ⟨hstamp₂, htells₂⟩ := hclocks s hpos (by omega) t ht
      rw [hf.done t ht]
      refine ⟨hstamp₁.max (hstamp₂.mono hlt.le), fun i hi => ?_⟩
      rw [le_max_iff, htells₁ i hi, htells₂ i hi]
    obtain ⟨hroom', hrows, hwidth, hothers, hfinal⟩ :=
      ih (fun s hs => hsources s (List.mem_cons_of_mem _ hs)) (hf.roomy hroom) (hf.hasRow hhas)
        hclocks' hrow' joined hjoined
    refine ⟨hroom', hrows.trans hf.rows, hwidth.trans hf.width, hothers, ?_⟩
    simpa [or_assoc] using hfinal

/-- A step has its clock after it was ordered after all its sources. -/
theorem Entered.walked_joins {previous : Option Nat} (h : Entered R tr k previous a)
    (hq : tr.stepAt (k + 1) = some q) (sources : List Nat)
    (hR : ∀ i, R i (k + 1) ↔ (i = k + 1 ∨ ∃ p, previous = some p ∧ R i p) ∨ ∃ s ∈ sources, R i s)
    (hsources : ∀ s ∈ sources, 0 < s ∧ s < k + 1) :
    Walked R tr (k + 1)
      { a with clocks := sources.foldl (fun clocks s => clocks.join (k + 1) s) a.clocks } := by
  have hhas : a.clocks.HasRow (k + 1) := Trace.hasRow h.rows hq
  obtain ⟨hroom, hrows, hwidth, hothers, hrow⟩ :=
    ClockTable.tells_joins hsources h.roomy hhas h.clocks h.row _ rfl
  refine ⟨hroom, hrows.trans h.rows, ?_, ?_, h.lastSend, h.lastLifecycle, fun j hj hle => ?_⟩
  · rw [hwidth]
    exact h.threads
  · rw [hwidth]
    exact h.lastStep
  · rcases Nat.lt_or_eq_of_le hle with hjk | rfl
    · exact hothers j hj (by omega)
    · intro t ht
      obtain ⟨hstamp, htells⟩ := hrow t ht
      exact ⟨hstamp, fun i hi => (htells i hi).trans (hR i).symm⟩

/-- A step without a source has its clock. -/
theorem Entered.walked {previous : Option Nat} (h : Entered R tr k previous a)
    (hq : tr.stepAt (k + 1) = some q) (hR : ComesThrough R (k + 1) previous none) :
    Walked R tr (k + 1) a :=
  h.walked_joins hq [] (fun i => (hR i).trans (by simp)) (by simp)

/-- A step with a source has its clock after it was ordered after the source. -/
theorem Entered.walked_join {previous : Option Nat} {source : Nat} (h : Entered R tr k previous a)
    (hq : tr.stepAt (k + 1) = some q) (hR : ComesThrough R (k + 1) previous (some source))
    (hpos : 0 < source) (hlt : source < k + 1) :
    Walked R tr (k + 1) (a.join (k + 1) source) :=
  h.walked_joins hq [source] (fun i => (hR i).trans (by simp [or_assoc]))
    (by simpa using ⟨hpos, Nat.le_of_lt_succ hlt⟩)

end Enter

end Interleaving
