import Interleaving.Proofs.Course

/-!
# How a stack of levels grows

An iteration replays the levels that are there and goes on from the last of them: it selects a
thread there, draws values, adds a level, and so on until the client is done or nothing is left
to run. Each of these is one growth of the stack, and the stack keeps standing along a path.

## Main statements

* `Setting.getElem?_fresh` — what is asleep and what is marked at a level that is added.
* `Growth.stands` — a stack that stands keeps standing as it grows.
-/

namespace Interleaving

namespace Setting

variable {σ : Type} (S : Setting σ)

section Fresh

variable (below : List Level) (choices : Snapshot) (current : ThreadId)

theorem fresh_eq : S.fresh below choices current =
    { step := below.length + 1, entries := (S.fresh below choices current).entries } := by
  unfold fresh
  split_ifs
  · exact Level.markFirst_eq _ _
  · rfl
  · exact Level.markFirst_eq _ _
  · rfl

@[simp] theorem fresh_step : (S.fresh below choices current).step = below.length + 1 := by
  rw [fresh_eq]

@[simp] theorem fresh_selected : (S.fresh below choices current).selected = none := by
  rw [fresh_eq]

@[simp] theorem fresh_draws : (S.fresh below choices current).draws = [] := by
  rw [fresh_eq]

@[simp] theorem fresh_cursor : (S.fresh below choices current).cursor = 0 := by
  rw [fresh_eq]

@[simp] theorem pendings_fresh :
    (S.fresh below choices current).pendings = choices.unstick := by
  have seen (step : Step) :
      Level.pendings { step, entries := choices.unstick.map Entry.capture } = choices.unstick := by
    simp [Level.pendings, Function.comp_def]
  unfold fresh
  split_ifs <;> simp [seen]

end Fresh

variable {S} {below : List Level} {choices : Snapshot} {current : ThreadId}

/-- At a level that is added the inherited threads are asleep, only enabled threads are marked,
and without reduction all of them are. -/
theorem getElem?_fresh {i : Nat} {e : Entry}
    (h : (S.fresh below choices current).entries[i]? = some e) :
    e.asleep = (S.sleepSets && decide (i ∈ inherited below)) ∧ (e.marked → e.enabled) ∧
      (S.reduction = false → e.enabled → e.marked) := by
  let seen : Level := { step := below.length + 1, entries := choices.unstick.map Entry.capture }
  let rested := if S.sleepSets then seen.putToSleep (inherited below) else seen
  have rest : ∀ {i : Nat} {e : Entry}, rested.entries[i]? = some e →
      e.asleep = (S.sleepSets && decide (i ∈ inherited below)) ∧ e.marked = false := by
    intro i e he
    cases hs : S.sleepSets with
    | false =>
      simp only [rested, hs, seen, Bool.false_eq_true, if_false, List.getElem?_map,
        Option.map_eq_some_iff] at he
      obtain ⟨p, -, rfl⟩ := he
      simp
    | true =>
      simp only [rested, hs, seen, if_true, Level.getElem?_putToSleep, List.getElem?_map,
        Option.map_map, Option.map_eq_some_iff] at he
      obtain ⟨p, -, rfl⟩ := he
      by_cases hi : i ∈ inherited below <;> simp [hi, Entry.putToSleep, Entry.capture]
  change (if S.reduction then rested.markFirst current else rested.markEnabled).entries[i]? = _ at h
  cases hr : S.reduction with
  | true =>
    simp only [hr, if_true] at h
    rcases rested.getElem?_markFirst current with ⟨position, a, ha, hav, hmark⟩ | ⟨-, hmark⟩
    · rw [hmark, Option.map_eq_some_iff] at h
      obtain ⟨e', he', rfl⟩ := h
      obtain ⟨h₁, h₂⟩ := rest he'
      by_cases hi : i = position
      · subst hi
        rw [ha, Option.some.injEq] at he'
        subst he'
        have : a.enabled := by simp only [Entry.available, Bool.and_eq_true] at hav; exact hav.1
        simp [Entry.mark, h₁, this]
      · simp [hi, h₁, h₂]
    · rw [hmark] at h
      obtain ⟨h₁, h₂⟩ := rest h
      simp [h₁, h₂]
  | false =>
    simp only [hr, Bool.false_eq_true, if_false, Level.getElem?_markEnabled,
      Option.map_eq_some_iff] at h
    obtain ⟨e', he', rfl⟩ := h
    obtain ⟨h₁, h₂⟩ := rest he'
    by_cases hen : e'.enabled <;> simp [hen, Entry.mark, h₁, h₂]

/-- If some thread could be run at a level that is added, one is marked there. -/
theorem exists_awake_fresh {e : Entry} (he : e ∈ (S.fresh below choices current).entries)
    (hav : e.available) : ∃ e ∈ (S.fresh below choices current).entries, e.awake := by
  simp only [Entry.available, Bool.and_eq_true, Bool.not_eq_true'] at hav
  obtain ⟨i, hi⟩ := List.mem_iff_getElem?.1 he
  cases hr : S.reduction with
  | false =>
    refine ⟨e, he, ?_⟩
    simp [Entry.awake, (getElem?_fresh hi).2.2 hr hav.1, hav.2]
  | true =>
    by_contra hno
    push Not at hno
    simp only [fresh, hr, if_true] at he hno
    generalize (if S.sleepSets = true then _ else _ : Level) = rested at he hno
    rcases rested.getElem?_markFirst current with ⟨position, a, ha, hava, hmark⟩ | ⟨hnone, hmark⟩
    · have hpos := hmark position
      rw [ha, Option.map_some, if_pos rfl] at hpos
      refine hno _ (List.mem_iff_getElem?.2 ⟨position, hpos⟩) ?_
      simp only [Entry.available, Bool.and_eq_true, Bool.not_eq_true'] at hava
      simp [Entry.awake, Entry.mark, hava.2]
    · rw [hmark] at he
      exact hnone e he (by simp [Entry.available, hav.1, hav.2])

end Setting

/-- One growth of a stack of levels. -/
inductive Growth {σ : Type} (S : Setting σ) : List Level → List Level → Prop
  /-- A level is added for what the client shows. -/
  | push {G : List Level} {choices : Snapshot} {current : ThreadId} :
      (∀ l ∈ G, l.selected.isSome) → (∀ limit ∈ S.stepLimit, G.length < limit) →
      S.request (course G) = .next choices current →
      Growth S G (G ++ [S.fresh G choices current])
  /-- A thread is selected at the last level. -/
  | select {below : List Level} {l : Level} {start t : ThreadId} :
      l.selected = none → l.firstAwake start = .thread t →
      Growth S (below ++ [l]) (below ++ [{ l with selected := some t }])
  /-- The thread selected at the last level draws a value that was not drawn there before. -/
  | draw {below : List Level} {l : Level} {t : ThreadId} :
      l.selected = some t → S.request (course (below ++ [l])) = .drawBool →
      Growth S (below ++ [l]) (below ++ [l.record (.ofBool false)])

namespace Growth

variable {σ : Type} {S : Setting σ} {n : Nat}

theorem fits_fresh {G : List Level} {choices : Snapshot} {current : ThreadId}
    (selected : ∀ l ∈ G, l.selected.isSome) (within : ∀ limit ∈ S.stepLimit, G.length < limit)
    (request : S.request (course G) = .next choices current) (h : S.Stands G) :
    S.Fits G (S.fresh G choices current) where
  below_selected := selected
  within := within
  step_eq := S.fresh_step G choices current
  seen := ⟨choices, current, request, S.pendings_fresh G choices current⟩
  follows := by
    rw [course_append, course_singleton, Level.answers_of_none (by simp), List.append_nil]
    exact h.follows
  marked := by
    intro e he hm
    obtain ⟨i, hi⟩ := List.mem_iff_getElem?.1 he
    exact S.may_of_enabled _ ((Setting.getElem?_fresh hi).2.1 hm)
  draws := by simp
  settled := by simp
  awake := by simp
  undrawn := by simp

theorem fits_select {below : List Level} {l : Level} {start t : ThreadId} (tame : S.Tame n)
    (unselected : l.selected = none) (first : l.firstAwake start = .thread t)
    (h : S.Fits below l) : S.Fits below { l with selected := some t } := by
  obtain ⟨e, he, hawake, rfl⟩ := Level.exists_awake_of_firstAwake first
  have hmarked : e.marked := by
    simp only [Entry.awake, Bool.and_eq_true] at hawake
    exact hawake.1
  obtain ⟨choices, current, hr, hl⟩ := h.seen
  have hmem : e.toPending ∈ choices.unstick := hl ▸ List.mem_map_of_mem he
  refine ⟨h.below_selected, h.within, h.step_eq, h.seen, ?_, h.marked, h.draws, h.settled, ?_,
    by simp⟩
  · rw [course_append, course_singleton, Level.answers_of_selected rfl]
    simp only [h.undrawn unselected, List.map_nil]
    refine .snoc h.follows_below (Setting.run_mem_offers.2 ⟨choices, current, hr, ?_, ?_⟩)
    · rw [h.step_eq, decisions_course h.below_selected]
    · exact ⟨e.toPending, hmem, h.marked e he hmarked, rfl⟩
  · intro t ht
    obtain rfl : e.thread = t := by simpa using ht
    exact ⟨e, (h.dense tame).getElem? he, hawake⟩

theorem fits_draw {below : List Level} {l : Level} {t : ThreadId} (selected : l.selected = some t)
    (request : S.request (course (below ++ [l])) = .drawBool) (h : S.Fits below l) :
    S.Fits below (l.record (.ofBool false)) where
  below_selected := h.below_selected
  within := h.within
  step_eq := h.step_eq
  seen := h.seen
  follows := by
    have hnew : course (below ++ [l.record (.ofBool false)]) =
        course (below ++ [l]) ++ [.bool false] := by
      simp only [course_append, course_singleton, List.append_assoc]
      rw [Level.answers_of_selected selected,
        Level.answers_of_selected (show (l.record _).selected = some t from selected)]
      simp [Level.record]
    rw [hnew]
    exact .snoc h.follows (Setting.bool_mem_offers.2 request)
  marked := h.marked
  draws := by
    intro d hd
    rcases List.mem_append.1 hd with hd | hd
    · exact h.draws d hd
    · rw [List.mem_singleton.1 hd, Draw.truth_ofBool]
  settled := by simp [Level.record, h.settled]
  awake := h.awake
  undrawn := fun hn => absurd (hn.symm.trans selected) (by simp)

/-- A stack that stands along a path stands along one as it grows. -/
theorem stands (tame : S.Tame n) {G H : List Level} (g : Growth S G H) (h : S.Stands G) :
    S.Stands H := by
  cases g with
  | push selected within request => exact upward_snoc.2 ⟨h, fits_fresh selected within request h⟩
  | select unselected first =>
    obtain ⟨hb, hl⟩ := upward_snoc.1 h
    exact upward_snoc.2 ⟨hb, fits_select tame unselected first hl⟩
  | draw selected request =>
    obtain ⟨hb, hl⟩ := upward_snoc.1 h
    exact upward_snoc.2 ⟨hb, fits_draw selected request hl⟩

theorem stands_of_reflTransGen (tame : S.Tame n) {G H : List Level}
    (g : Relation.ReflTransGen (Growth S) G H) (h : S.Stands G) : S.Stands H := by
  induction g with
  | refl => exact h
  | tail _ g ih => exact g.stands tame ih

end Growth

end Interleaving
