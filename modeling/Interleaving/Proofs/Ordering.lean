import Mathlib.Tactic
import Interleaving.Snapshot

/-!
# The order of the steps of a schedule

A step is linked to the earlier steps of its own thread, to the earlier sends to its target if it
is a send, to the earlier steps in the life of its target if it is one, and, if it receives, to
the send of the message. One step reaches another if there is a chain of links. All that reaches a
step reaches it through the last step of its thread before it, or through one other step.

## Main definitions

* `Trace` — the operations that the steps of a schedule run.
* `Trace.Linked`, `Trace.Reaches` — the order of the steps.
* `LastOf` — the last step before another that has a property.

## Main statements

* `Trace.reaches_iff` — through which steps a step is reached.
-/

namespace Interleaving

/-- The operations that the steps of a schedule run, the first one first. -/
abbrev Trace := List Pending

namespace Trace

variable (tr : Trace)

/-- The operation that a step runs. -/
def stepAt : Nat → Option Pending
  | 0 => none
  | k + 1 => tr[k]?

/-- The thread makes the step. -/
def Ran (t : ThreadId) (k : Nat) : Prop := ∃ p, tr.stepAt k = some p ∧ p.thread = t

/-- The step is a send to the target. -/
def SentTo (target : Nat) (k : Nat) : Prop :=
  ∃ p, tr.stepAt k = some p ∧ p.op = .send ∧ p.target = some target

/-- The step is one in the life of the target. -/
def LivedOn (target : Nat) (k : Nat) : Prop :=
  ∃ p, tr.stepAt k = some p ∧ p.op.isLifecycle ∧ p.target = some target

/-- The second step is ordered after the first one. -/
def Linked (i j : Nat) : Prop :=
  i < j ∧ ((∃ t, tr.Ran t i ∧ tr.Ran t j) ∨ (∃ x, tr.SentTo x i ∧ tr.SentTo x j) ∨
    (∃ x, tr.LivedOn x i ∧ tr.LivedOn x j) ∨
    ∃ q, tr.stepAt j = some q ∧ q.op = .receive ∧ q.target.isSome ∧ q.sendStep = some i ∧ 0 < i)

/-- The second step is the first one or comes after it by a chain of links. -/
def Reaches : Nat → Nat → Prop := Relation.ReflTransGen tr.Linked

variable {tr}

theorem Reaches.le {i j : Nat} (h : tr.Reaches i j) : i ≤ j := by
  induction h with
  | refl => exact le_rfl
  | tail _ hl ih => exact ih.trans (Nat.le_of_lt hl.1)

theorem stepAt_pos {k : Nat} {p : Pending} (h : tr.stepAt k = some p) : 0 < k := by
  cases k with
  | zero => simp [stepAt] at h
  | succ k => exact Nat.succ_pos k

theorem stepAt_le {k : Nat} {p : Pending} (h : tr.stepAt k = some p) : k ≤ tr.length := by
  cases k with
  | zero => exact Nat.zero_le _
  | succ k => exact (List.getElem?_eq_some_iff.1 h).1

theorem exists_stepAt {k : Nat} (hpos : 0 < k) (hle : k ≤ tr.length) :
    ∃ p, tr.stepAt k = some p := by
  cases k with
  | zero => omega
  | succ k => exact ⟨tr[k], List.getElem?_eq_getElem hle⟩

theorem Linked.pos {i j : Nat} (h : tr.Linked i j) : 0 < i := by
  obtain ⟨-, ⟨t, ⟨p, hp, -⟩, -⟩ | ⟨x, ⟨p, hp, -⟩, -⟩ | ⟨x, ⟨p, hp, -⟩, -⟩ |
    ⟨q, -, -, -, -, hpos⟩⟩ := h
  · exact stepAt_pos hp
  · exact stepAt_pos hp
  · exact stepAt_pos hp
  · exact hpos

end Trace

/-- The last step before `j` that has a property, if there is one. -/
def LastOf (P : Nat → Prop) (j : Nat) : Option Nat → Prop
  | none => ∀ k < j, ¬ P k
  | some p => p < j ∧ P p ∧ ∀ k < j, P k → k ≤ p

theorem lastOf_self {P : Nat → Prop} {j : Nat} (h : P j) : LastOf P (j + 1) (some j) :=
  ⟨Nat.lt_succ_self j, h, fun _ hk _ => Nat.le_of_lt_succ hk⟩

theorem LastOf.succ {P : Nat → Prop} {j : Nat} {r : Option Nat} (h : LastOf P j r) (hj : ¬ P j) :
    LastOf P (j + 1) r := by
  cases r with
  | none =>
    intro k hk hP
    rcases Nat.lt_succ_iff_lt_or_eq.1 hk with hk | rfl
    · exact h k hk hP
    · exact hj hP
  | some p =>
    refine ⟨Nat.lt_succ_of_lt h.1, h.2.1, fun k hk hP => ?_⟩
    rcases Nat.lt_succ_iff_lt_or_eq.1 hk with hk | rfl
    · exact h.2.2 k hk hP
    · exact absurd hP hj

namespace Trace

variable {tr : Trace}

/-- The step, other than those of its own thread, that a step is ordered directly after. -/
def Source (tr : Trace) (j : Nat) (q : Pending) (source : Option Nat) : Prop :=
  match q.target with
  | none => source = none
  | some x =>
    if q.op = .send then LastOf (tr.SentTo x) j source
    else if q.op.isLifecycle then LastOf (tr.LivedOn x) j source
    else if q.op = .receive then source = q.sendStep ∧ ∀ i ∈ source, 0 < i ∧ i < j
    else source = none

/-- A send is ordered directly after the last send before it to its target. -/
theorem source_send_iff {j x : Nat} {q : Pending} {source : Option Nat} (hop : q.op = .send)
    (hx : q.target = some x) : tr.Source j q source ↔ LastOf (tr.SentTo x) j source := by
  simp only [Source, hx, hop, if_true]

/-- A step that is ordered directly after another one has a target. -/
theorem Source.exists_target {j s : Nat} {q : Pending} (h : tr.Source j q (some s)) :
    ∃ x, q.target = some x := by
  cases htarget : q.target with
  | none => simp [Source, htarget] at h
  | some x => exact ⟨x, rfl⟩

/-- The source of a step is linked to it. -/
theorem Source.linked {j : Nat} {q : Pending} {s : Nat} (hq : tr.stepAt j = some q)
    (h : tr.Source j q (some s)) : tr.Linked s j := by
  unfold Source at h
  split at h
  · simp at h
  · next x hx =>
    split at h
    · next hop => exact ⟨h.1, .inr (.inl ⟨x, h.2.1, q, hq, hop, hx⟩)⟩
    · split at h
      · next hop => exact ⟨h.1, .inr (.inr (.inl ⟨x, h.2.1, q, hq, hop, hx⟩))⟩
      · split at h
        · next hop =>
          obtain ⟨hs, hlt⟩ := h
          obtain ⟨hpos, hlt⟩ := hlt s rfl
          exact ⟨hlt, .inr (.inr (.inr ⟨q, hq, hop, by simp [hx], hs.symm, hpos⟩))⟩
        · simp at h

/-- A step that another thread's step is linked to reaches the source of it. -/
theorem Source.reaches {i j : Nat} {q : Pending} {source : Option Nat} (hq : tr.stepAt j = some q)
    (h : tr.Source j q source) (hl : tr.Linked i j) (hne : ¬ tr.Ran q.thread i) :
    ∃ s, source = some s ∧ tr.Reaches i s := by
  obtain ⟨hlt, ⟨t, hi, q', hq', rfl⟩ | ⟨x, hi, q', hq', hop, hx⟩ | ⟨x, hi, q', hq', hop, hx⟩ |
    ⟨q', hq', hop, hx, hs, hpos⟩⟩ := hl
  all_goals
    obtain rfl : q = q' := by simpa [hq] using hq'
  · exact absurd hi hne
  · rw [source_send_iff hop hx] at h
    cases source with
    | none => exact absurd hi (h i hlt)
    | some s =>
      refine ⟨s, rfl, ?_⟩
      rcases Nat.lt_or_eq_of_le (h.2.2 i hlt hi) with his | rfl
      · exact .single ⟨his, .inr (.inl ⟨x, hi, h.2.1⟩)⟩
      · exact .refl
  · have hsend : q.op ≠ .send := by
      intro hs
      simp [hs, Operation.isLifecycle] at hop
    simp only [Source, hx, hsend, hop, if_true, if_false] at h
    cases source with
    | none => exact absurd hi (h i hlt)
    | some s =>
      refine ⟨s, rfl, ?_⟩
      rcases Nat.lt_or_eq_of_le (h.2.2 i hlt hi) with his | rfl
      · exact .single ⟨his, .inr (.inr (.inl ⟨x, hi, h.2.1⟩))⟩
      · exact .refl
  · obtain ⟨x, hx⟩ := Option.isSome_iff_exists.1 hx
    simp only [Source, hx, hop, reduceCtorEq, if_false, Operation.isLifecycle, Bool.false_eq_true,
      if_true] at h
    exact ⟨i, h.1.trans hs, .refl⟩

/-- What reaches a step is the step itself, or reaches the last step of its thread before it, or
reaches its source. -/
theorem reaches_iff {i j : Nat} {q : Pending} {previous source : Option Nat}
    (hq : tr.stepAt j = some q) (hprevious : LastOf (tr.Ran q.thread) j previous)
    (hsource : tr.Source j q source) :
    tr.Reaches i j ↔ i = j ∨ (∃ p, previous = some p ∧ tr.Reaches i p) ∨
      ∃ s, source = some s ∧ tr.Reaches i s := by
  constructor
  · intro h
    rcases Relation.ReflTransGen.cases_tail h with rfl | ⟨k, hk, hl⟩
    · exact .inl rfl
    · by_cases hran : tr.Ran q.thread k
      · cases previous with
        | none => exact absurd hran (hprevious k hl.1)
        | some p =>
          refine .inr (.inl ⟨p, rfl, hk.trans ?_⟩)
          rcases Nat.lt_or_eq_of_le (hprevious.2.2 k hl.1 hran) with hkp | rfl
          · exact .single ⟨hkp, .inl ⟨q.thread, hran, hprevious.2.1⟩⟩
          · exact .refl
      · obtain ⟨s, hs, hks⟩ := hsource.reaches hq hl hran
        exact .inr (.inr ⟨s, hs, hk.trans hks⟩)
  · rintro (rfl | ⟨p, rfl, hp⟩ | ⟨s, rfl, hs⟩)
    · exact .refl
    · exact hp.tail ⟨hprevious.1, .inl ⟨q.thread, hprevious.2.1, q, hq, rfl⟩⟩
    · exact hs.tail (hsource.linked hq)

end Trace

end Interleaving
