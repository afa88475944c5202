import Interleaving.Proofs.Walking

/-!
# Schedules and their steps

A schedule is built by visiting one level after another and selecting a thread at each. The
operations of the selected threads are its steps. Only the last level may be without a selection;
then all levels but that one are steps.

## Main definitions

* `Schedule.Built`, `Schedule.Decided` — how schedules come about, and where threads are selected.
* `Schedule.trace` — the steps of a schedule.

## Main statements

* `Schedule.push_ensures`, `Schedule.onTop_ensures` — what a level is after it was visited or
  changed.
* `Schedule.Built.performs`, `Schedule.Built.length_trace` — the levels run the steps.
-/

namespace Interleaving

open Interleaving.Action

/-! ## Visiting and changing levels -/

/-- A level is captured of a snapshot that shows every thread at its own position. -/
theorem Level.of_capture_eq_ok {step : Step} {snapshot : Snapshot} {l : Level}
    (h : Level.capture step snapshot = .ok l) :
    snapshot.Dense ∧ l = { step, entries := snapshot.map Entry.capture } := by
  unfold Level.capture at h
  split at h
  · simp at h
  · next hm =>
    refine ⟨fun i p hp => ?_, (Except.ok.inj h).symm⟩
    simp only [Level.misnumbered?, List.find?_eq_none, Prod.forall,
      List.mem_zipIdx_iff_getElem?] at hm
    simpa using hm p i hp

theorem Level.dense_capture {step : Step} {snapshot : Snapshot} (h : snapshot.Dense) :
    Level.Dense { step, entries := snapshot.map Entry.capture } := by
  rw [Level.dense_iff]
  have hpendings : Level.pendings { step, entries := snapshot.map Entry.capture } = snapshot := by
    simp [Level.pendings, Function.comp_def]
  rwa [hpendings]

theorem Level.of_select_eq_ok {l l' : Level} {t : ThreadId} (h : l.select t = .ok l') :
    l.selected = none ∧ t < l.entries.length ∧ l' = { l with selected := some t } := by
  unfold Level.select at h
  split at h
  · simp at h
  · next hnone =>
    split at h
    · next e he =>
      exact ⟨hnone, (List.getElem?_eq_some_iff.1 (Level.entry_eq_ok.1 he)).1,
        (Except.ok.inj h).symm⟩
    · simp at h

theorem Level.of_selectedEntry_eq_ok {l : Level} {e : Entry} (h : l.selectedEntry = .ok e) :
    ∃ t, l.selected = some t ∧ l.entries[t]? = some e := by
  cases ht : l.selection with
  | error fault => simp [Level.selectedEntry, ht, bind, Except.bind] at h
  | ok t =>
    simp only [Level.selectedEntry, ht, bind, Except.bind] at h
    exact ⟨t, Level.selection_eq_ok.1 ht, Level.entry_eq_ok.1 h⟩

namespace Schedule

variable {s : Schedule}

/-- A level that is visited was not there before, or it was and is left as it is. -/
theorem push_ensures {snapshot : Snapshot} {Q : Bool → Schedule → Prop}
    (new : s.levels[s.visited]? = none → snapshot.Dense → Q true
      { s with
        levels := s.levels ++ [{ step := s.visited + 1, entries := snapshot.map Entry.capture }]
        visited := s.visited + 1 })
    (old : ∀ recorded, s.levels[s.visited]? = some recorded → Q false
      { s with visited := s.visited + 1 }) :
    (push snapshot).Ensures s Q := by
  refine (yields_get s).bind_ensures (bind_lift_ensures fun observed hobserved => ?_)
  obtain ⟨dense, rfl⟩ := Level.of_capture_eq_ok hobserved
  split
  · next hnone =>
    exact (yields_notify _ _).bind_ensures
      ((yields_set _ _).bind_ensures (ensures_pure (new hnone dense)))
  · next recorded hsome =>
    split
    · exact ensures_fail _ _ _
    · exact (yields_notify _ _).bind_ensures
        ((yields_set _ _).bind_ensures (ensures_pure (old recorded hsome)))

theorem top?_eq_some {l : Level} :
    s.top? = some l ↔ ∃ position, s.visited = position + 1 ∧ s.levels[position]? = some l := by
  unfold top? fromTop?
  cases h : s.visited with
  | zero => simp
  | succ position => simp

theorem below?_eq_some {l : Level} :
    s.below? = some l ↔ ∃ position, s.visited = position + 2 ∧ s.levels[position]? = some l := by
  unfold below? fromTop?
  rcases h : s.visited with _ | _ | position <;> simp

theorem onTop_ensures {α : Type} {f : Level → Except Fault (α × Level)} {Q : α → Schedule → Prop}
    (h : ∀ position top a top', s.visited = position + 1 → s.levels[position]? = some top →
      f top = .ok (a, top') → Q a { s with levels := s.levels.set position top' }) :
    (onTop f).Ensures s Q := by
  refine (yields_get s).bind_ensures (bind_lift_ensures fun top htop => ?_)
  refine bind_lift_ensures fun r hr => ?_
  obtain ⟨position, hvisited, hlevel⟩ := top?_eq_some.1 (top_eq_ok.1 htop)
  have hset : s.modifyTop (fun _ => r.2) = { s with levels := s.levels.set position r.2 } := by
    simp [modifyTop, hvisited, modifyLevel, List.set_eq_modify]
  refine (yields_set _ _).bind_ensures (ensures_pure ?_)
  rw [hset]
  exact h position top r.1 r.2 hvisited hlevel hr

/-- A level that is changed without a value to tell. -/
theorem eq_ok_of_pair {α : Type} {x : Except Fault α} {u : Unit} {a : α}
    (h : (do return ((), ← x)) = .ok (u, a)) : x = .ok a := by
  cases hx : x with
  | error fault => simp [hx, bind, Except.bind] at h
  | ok b => simpa [hx, bind, Except.bind, pure, Except.pure] using h

/-- A thread is selected at the level visited last. -/
theorem select_ensures {t : ThreadId} {Q : Unit → Schedule → Prop}
    (h : ∀ position top, s.visited = position + 1 → s.levels[position]? = some top →
      top.selected = none → t < top.entries.length →
      Q () { s with levels := s.levels.set position { top with selected := some t } }) :
    (select t).Ensures s Q := by
  refine onTop_ensures fun position top _ top' hvisited htop hf => ?_
  obtain ⟨hnone, hlt, rfl⟩ := Level.of_select_eq_ok (eq_ok_of_pair hf)
  exact h position top hvisited htop hnone hlt

/-! ## Building a schedule -/

/-- The schedules that are built from an empty one by visiting levels and selecting threads. -/
inductive Built : Schedule → Prop
  | empty (randomized : Bool) : Built { randomized }
  | push {s t : Schedule} {snapshot : Snapshot} {added : Bool} :
      Built s → (Schedule.push snapshot).Yields s added t → Built t
  | select {s t : Schedule} {thread : ThreadId} :
      Built s → (Schedule.select thread).Yields s () t → Built t

/-- Every level except possibly the last one has a selection. -/
def Decided (s : Schedule) : Prop :=
  ∀ (position : Nat) (l : Level), s.levels[position]? = some l → position + 1 < s.size →
    l.selected.isSome

/-- The entries stand at the positions of their threads, and the selected one is there. -/
structure Regular (l : Level) : Prop where
  dense : l.Dense
  inRange : ∀ t, l.selected = some t → t < l.entries.length

theorem Built.regular (h : s.Built) : s.visited = s.size ∧ ∀ l ∈ s.levels, Regular l := by
  induction h with
  | empty => simp [size]
  | @push s t snapshot added _ hpush ih =>
    refine (push_ensures ?_ ?_ : (Schedule.push snapshot).Ensures s fun _ t =>
      t.visited = t.size ∧ ∀ l ∈ t.levels, Regular l) added t hpush
    · intro _ dense
      refine ⟨by simp [size, ih.1], fun l hl => ?_⟩
      rcases List.mem_append.1 hl with hl | hl
      · exact ih.2 l hl
      · rw [List.mem_singleton.1 hl]
        exact ⟨Level.dense_capture dense, by simp⟩
    · intro recorded hrecorded
      rw [ih.1, size, List.getElem?_length] at hrecorded
      simp at hrecorded
  | @select s t thread _ hselect ih =>
    refine (select_ensures ?_ : (Schedule.select thread).Ensures s fun _ t =>
      t.visited = t.size ∧ ∀ l ∈ t.levels, Regular l) () t hselect
    intro position top _ htop _ hlt
    refine ⟨by simpa [size] using ih.1, fun l hl => ?_⟩
    rcases List.mem_or_eq_of_mem_set hl with hl | rfl
    · exact ih.2 l hl
    · refine ⟨(ih.2 top (List.mem_of_getElem? htop)).dense, ?_⟩
      rintro u ⟨⟩
      exact hlt

end Schedule

/-! ## The steps of a schedule -/

/-- The operation of the selected thread, as step `k` of a schedule with so many levels. -/
def Level.performed? (l : Level) (levels : Nat) (k : Step) : Option Pending :=
  (l.selected.bind (l.entries[·]?)).map (l.resolved levels k)

/-- The steps of a schedule: the operations of the selected threads, the first one first. -/
def Schedule.trace (s : Schedule) : Trace :=
  s.levels.zipIdx.filterMap fun (l, position) => l.performed? s.size (position + 1)

/-- Where only the last item may fall away, every other one stays at its place. -/
theorem getElem?_filterMap_of_isSome {α β : Type} {f : α → Option β} : ∀ {items : List α},
    (∀ i x, items[i]? = some x → i + 1 < items.length → (f x).isSome) →
    ∀ i : Nat, (items.filterMap f)[i]? = items[i]?.bind f
  | [], _, i => by simp
  | [x], _, i => by cases hx : f x <;> cases i <;> simp [hx]
  | x :: y :: rest, h, i => by
    obtain ⟨z, hz⟩ := Option.isSome_iff_exists.1 (h 0 x rfl (by simp))
    have ih : ∀ i, ((y :: rest).filterMap f)[i]? = (y :: rest)[i]?.bind f :=
      getElem?_filterMap_of_isSome fun i x hx hi =>
        h (i + 1) x (by simpa using hx) (by simpa using hi)
    rw [List.filterMap_cons_some hz]
    cases i with
    | zero => simp [hz]
    | succ i => simpa using ih i

namespace Schedule

variable {s : Schedule}

theorem isSome_performed? {l : Level} (regular : Regular l) (levels : Nat) (k : Step) :
    (l.performed? levels k).isSome ↔ l.selected.isSome := by
  cases ht : l.selected with
  | none => simp [Level.performed?, ht]
  | some t => simp [Level.performed?, ht, List.getElem?_eq_getElem (regular.inRange t ht)]

theorem stepAt_trace (regular : ∀ l ∈ s.levels, Regular l) (decided : s.Decided) (position : Nat) :
    s.trace.stepAt (position + 1) =
      s.levels[position]?.bind fun l => l.performed? s.size (position + 1) := by
  have hsome : ∀ (i : Nat) (x : Level × Nat), s.levels.zipIdx[i]? = some x →
      i + 1 < s.levels.zipIdx.length → (x.1.performed? s.size (x.2 + 1)).isSome := by
    intro i x hx hi
    rw [List.getElem?_zipIdx, Option.map_eq_some_iff] at hx
    obtain ⟨l, hl, rfl⟩ := hx
    rw [isSome_performed? (regular l (List.mem_of_getElem? hl))]
    exact decided i l hl (by simpa [size] using hi)
  rw [Trace.stepAt, trace, getElem?_filterMap_of_isSome hsome, List.getElem?_zipIdx]
  cases s.levels[position]? <;> simp

/-- The levels of a schedule run its steps. -/
theorem performs_trace (regular : ∀ l ∈ s.levels, Regular l) (decided : s.Decided) :
    Performs s.levels s.trace := by
  intro k p hp
  cases k with
  | zero => simp [Trace.stepAt] at hp
  | succ position =>
    rw [stepAt_trace regular decided] at hp
    obtain ⟨l, hl, hp⟩ := Option.bind_eq_some_iff.1 hp
    obtain ⟨e, he, hresolved⟩ := Option.map_eq_some_iff.1 hp
    obtain ⟨t, ht, he⟩ := Option.bind_eq_some_iff.1 he
    refine ⟨l, e, hl, Level.selectedEntry_eq_ok ht he, hresolved, ?_⟩
    have hthread : p.thread = t := by
      rw [← hresolved]
      exact (regular l (List.mem_of_getElem? hl)).dense t e he
    rw [ht, hthread]

/-- All levels are steps, except the last one if nothing is selected there. -/
theorem length_trace {w : Workspace} (regular : ∀ l ∈ w.schedule.levels, Regular l)
    (decided : w.schedule.Decided) : w.schedule.trace.length = w.steps := by
  have hiff (k : Nat) : k < w.schedule.trace.length ↔ k < w.steps := by
    have hstep : k < w.schedule.trace.length ↔ (w.schedule.trace.stepAt (k + 1)).isSome := by
      simp [Trace.stepAt]
    rw [hstep, stepAt_trace regular decided]
    cases hlevels : w.schedule.levels using List.reverseRecOn with
    | nil => simp [Workspace.steps, last?, size, hlevels]
    | append_singleton below l _ =>
      have hsteps : w.steps = if l.selected.isNone then below.length else below.length + 1 := by
        simp [Workspace.steps, last?, size, hlevels]
      have hsize : w.schedule.size = below.length + 1 := by simp [size, hlevels]
      rw [← hlevels, hsteps]
      rcases Nat.lt_trichotomy k below.length with hlt | rfl | hgt
      · have hk : w.schedule.levels[k]? = some below[k] := by
          rw [hlevels, List.getElem?_append_left hlt, List.getElem?_eq_getElem hlt]
        have hsome := decided k below[k] hk (by omega)
        rw [← isSome_performed? (regular _ (List.mem_of_getElem? hk)) w.schedule.size (k + 1)]
          at hsome
        simp only [hk, Option.bind_some, hsome, true_iff]
        split <;> omega
      · have hk : w.schedule.levels[below.length]? = some l := by simp [hlevels]
        simp only [hk, Option.bind_some, isSome_performed? (regular l (List.mem_of_getElem? hk))]
        cases l.selected <;> simp
      · have hk : w.schedule.levels[k]? = none := by
          simp [hlevels]
          omega
        simp only [hk, Option.bind_none, Option.isSome_none, Bool.false_eq_true, false_iff]
        split <;> omega
  exact le_antisymm (Nat.le_of_not_lt fun h => absurd ((hiff _).1 h) (lt_irrefl _))
    (Nat.le_of_not_lt fun h => absurd ((hiff _).2 h) (lt_irrefl _))

end Schedule

end Interleaving
