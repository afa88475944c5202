import Interleaving.Proofs.Rewinding

/-!
# Paths left behind

The threads that are asleep at a level of the stack, and the draws that were false there before,
are the alternatives that the exploration is done with. A path that takes one of them is passed:
no later iteration goes along it.

## Main definitions

* `Passed` — the exploration is done with an alternative that a path takes.

## Main statements

* `Setting.Stands.not_course_isPrefix` — a passed path does not go on from the stack's course.
* `Growth.passed` — passed paths stay passed while the stack grows.
-/

namespace Interleaving

/-- The exploration took the alternative at a level that a path goes through, and is done with
it: the thread that runs there is asleep, or a value drawn there was false. -/
inductive PassedAt (below : List Level) (l : Level) (p : List Answer) : Prop
  | asleep {t : ThreadId} {e : Entry} :
      l.selected.isSome ∨ (∃ e ∈ l.entries, e.awake) → l.entries[t]? = some e → e.asleep →
      course below ++ [.run t (below.length + 1)] <+: p → PassedAt below l p
  | drawn {t : ThreadId} {ds rest : List Draw} :
      l.selected = some t → l.draws = ds ++ .ofBool true :: rest →
      course below ++ move t (below.length + 1) (ds ++ [.ofBool false]) <+: p → PassedAt below l p

/-- The exploration is done with an alternative that a path takes somewhere. -/
def Passed (G : List Level) (p : List Answer) : Prop :=
  ∃ below l above, G = below ++ l :: above ∧ PassedAt below l p

theorem passed_snoc {G : List Level} {l : Level} {p : List Answer} :
    Passed (G ++ [l]) p ↔ Passed G p ∨ PassedAt G l p := by
  have passed_iff (G : List Level) :
      Passed G p ↔ ¬ Upward (fun below l => ¬ PassedAt below l p) G := by
    simp [Passed, Upward]
  rw [passed_iff, passed_iff, upward_snoc, not_and_or, not_not]

theorem eq_of_snoc_isPrefix {p q : List Answer} {a b : Answer} (ha : p ++ [a] <+: q)
    (hb : p ++ [b] <+: q) : a = b := by
  have h := List.prefix_of_prefix_length_le ha hb (by simp)
  simpa using List.IsPrefix.eq_of_length h (by simp)

theorem PassedAt.course_below {below : List Level} {l : Level} {p : List Answer}
    (h : PassedAt below l p) : course below <+: p := by
  cases h with
  | asleep _ _ _ hp => exact (List.prefix_append _ _).trans hp
  | drawn _ _ hp => exact (List.prefix_append _ _).trans hp

namespace Setting

variable {σ : Type} {S : Setting σ}

/-- A path that was passed at a level does not go on through what is selected there. -/
theorem Fits.not_course_isPrefix {below : List Level} {l : Level} {t : ThreadId} {p : List Answer}
    (h : S.Fits below l) (ht : l.selected = some t) (hp : PassedAt below l p) :
    ¬ course (below ++ [l]) <+: p := by
  intro hc
  rw [h.course_eq ht] at hc
  cases hp with
  | @asleep u e _ hu hasleep hp =>
    have hrun : course below ++ [.run t (below.length + 1)] <+: p := by
      refine List.IsPrefix.trans ?_ hc
      simp [move]
    obtain ⟨rfl, -⟩ := Answer.run.inj (eq_of_snoc_isPrefix hp hrun)
    obtain ⟨e', he', ha⟩ := h.awake u ht
    rw [hu, Option.some.injEq] at he'
    subst he'
    simp [Entry.awake, hasleep] at ha
  | @drawn u ds rest hu hd hp =>
    obtain rfl : t = u := by simpa [ht] using hu
    rw [move_snoc, ← List.append_assoc] at hp
    have htrue : course below ++ move t (below.length + 1) ds ++ [.bool true] <+: p := by
      refine List.IsPrefix.trans ?_ hc
      simp [hd, move]
    simpa using eq_of_snoc_isPrefix hp htrue

/-- A path that was passed does not go on from the course of the stack. -/
theorem Stands.not_course_isPrefix {G : List Level} (h : S.Stands G)
    (selected : ∀ l ∈ G, l.selected.isSome) {p : List Answer} (hp : Passed G p) :
    ¬ course G <+: p := by
  obtain ⟨below, l, above, rfl, hp⟩ := hp
  obtain ⟨t, ht⟩ := Option.isSome_iff_exists.1 (selected l (by simp))
  intro hc
  refine (h below l above rfl).not_course_isPrefix ht hp (List.IsPrefix.trans ?_ hc)
  simp [course]

end Setting

theorem Growth.passed {σ : Type} {S : Setting σ} {G G' : List Level} (g : Growth S G G')
    {p : List Answer} (h : Passed G p) : Passed G' p := by
  cases g with
  | push => exact passed_snoc.2 (.inl h)
  | select unselected first =>
    rcases passed_snoc.1 h with h | h
    · exact passed_snoc.2 (.inl h)
    · refine passed_snoc.2 (.inr ?_)
      cases h with
      | asleep _ he ha hp => exact .asleep (.inl rfl) he ha hp
      | drawn ht => simp [unselected] at ht
  | draw selected request =>
    rcases passed_snoc.1 h with h | h
    · exact passed_snoc.2 (.inl h)
    · refine passed_snoc.2 (.inr ?_)
      cases h with
      | asleep _ he ha hp =>
        exact .asleep (.inl (by simp [Level.record, selected])) he ha hp
      | @drawn t ds rest ht hd hp =>
        have hd' : ∀ {l : Level}, l.draws = ds ++ .ofBool true :: rest →
            (l.record (.ofBool false)).draws =
              ds ++ .ofBool true :: (rest ++ [.ofBool false]) := by
          intro l hl
          simp [Level.record, hl]
        exact .drawn ht (hd' hd) hp

end Interleaving
