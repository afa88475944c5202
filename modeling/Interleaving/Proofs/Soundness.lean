import Interleaving.Proofs.Noting

/-!
# Sound schedules

A schedule is sound if its cursor is within its levels, its levels are numbered, and every selection
is of a thread that may be run. Schedules stay sound when they are cut, when the next level is
visited and when they are rewound to the next alternative.

## Main definitions

* `Level.Sound`, `Schedule.Sound` — what holds of levels and schedules.
* `Schedule.Settled` — all levels that were visited have a selection.

## Main statements

* `Schedule.Sound.push`, `Schedule.Sound.inheritSleep` — the next level is visited.
* `Schedule.Sound.rewind` — the next iteration starts.
-/

namespace Interleaving

open Interleaving.Action

/-! ## Levels -/

namespace Level

variable {l l' : Level}

/-- A draw is replayed, or a fresh one is recorded. -/
theorem cases_of_draw {kind : DrawKind} {bound v : Nat} {g g' : Option Pcg}
    (h : l.draw kind bound g = .ok (v, l', g')) :
    (l' = { l with cursor := l.cursor + 1 } ∧ l.cursor < l.draws.length ∧ g' = g) ∨
      l' = l.record ⟨kind, v⟩ ∧ g' = (fresh kind bound g).2 := by
  unfold Level.draw at h
  split at h
  · simp at h
  · split at h
    · next d hd =>
      split at h
      · obtain ⟨-, rfl, rfl⟩ : d.value = v ∧ { l with cursor := l.cursor + 1 } = l' ∧ g = g' := by
          simpa using h
        exact .inl ⟨rfl, (List.getElem?_eq_some_iff.1 hd).1, rfl⟩
      · simp at h
    · obtain ⟨rfl, rfl, rfl⟩ : _ = v ∧ l.record _ = l' ∧ _ = g' := by simpa using h
      exact .inr ⟨rfl, rfl⟩

theorem exists_of_flipDraws {r : Except Fault Bool} (h : l.flipDraws = (l', r)) :
    l' = l ∨ ∃ draws, l' = { l with draws, cursor := 0 } := by
  unfold Level.flipDraws at h
  split at h
  · exact .inl (congrArg Prod.fst h).symm
  · exact .inr ⟨_, (congrArg Prod.fst h).symm⟩

theorem exists_of_retire (h : l.retire = .ok l') :
    ∃ t, l.selected = some t ∧
      l' = { l.modifyEntry t Entry.putToSleep with selected := none } := by
  cases ht : l.selection with
  | error fault => simp [Level.retire, ht, bind, Except.bind] at h
  | ok t =>
    cases he : l.entry t with
    | error fault => simp [Level.retire, ht, he, bind, Except.bind] at h
    | ok e =>
      simp only [Level.retire, ht, he, bind, Except.bind] at h
      exact ⟨t, selection_eq_ok.1 ht, (Except.ok.inj h).symm⟩

/-- A level goes on with other draws, or its thread is put to sleep. -/
theorem cases_of_advance (h : l.advance = (l', .ok true)) :
    l.flipDraws = (l', .ok true) ∨ ∃ m, l.flipDraws = (m, .ok false) ∧ m.retire = .ok l' := by
  unfold Level.advance at h
  split at h
  · next m hflip =>
    split at h
    · next m' hretire =>
      obtain rfl := congrArg Prod.fst h
      exact .inr ⟨m, hflip, hretire⟩
    · simp at h
  · exact .inl h

end Level

/-- A level at a position: it is numbered, its entries stand at the positions of their threads, its
selection is of a thread to be run, and its cursor is within the draws. -/
structure Level.Sound (position : Nat) (l : Level) : Prop where
  step : l.step = position + 1
  dense : l.Dense
  selection : ∀ t, l.selected = some t →
    ∃ e, l.entries[t]? = some e ∧ e.runnable ∧ e.marked ∧ ¬ e.asleep
  cursor : l.cursor ≤ l.draws.length

namespace Level.Sound

variable {k : Nat} {l l' : Level}

/-- A level without a selection stays sound whatever marks and sleep it is given. -/
theorem of_pendings (h : l.Sound k) (hstep : l'.step = l.step)
    (hpendings : l'.pendings = l.pendings) (hselected : l'.selected = none)
    (hcursor : l'.cursor ≤ l'.draws.length) : l'.Sound k where
  step := hstep.trans h.step
  dense := by
    rw [Level.dense_iff, hpendings, ← Level.dense_iff]
    exact h.dense
  selection := by simp [hselected]
  cursor := hcursor

/-- A level stays sound whatever is drawn. -/
theorem withDraws (h : l.Sound k) {draws : List Draw} {cursor : Nat}
    (hcursor : cursor ≤ draws.length) : Level.Sound k { l with draws, cursor } :=
  ⟨h.step, h.dense, h.selection, hcursor⟩

theorem record (h : l.Sound k) (d : Draw) : (l.record d).Sound k :=
  h.withDraws (by
    have := h.cursor
    simp only [List.length_append, List.length_singleton]
    omega)

/-- The first thread that is awake is selected. -/
theorem select (h : l.Sound k) {start t : ThreadId} (hfirst : l.firstAwake start = .thread t)
    {e : Entry} (he : l.entries[t]? = some e) (hrunnable : e.runnable) :
    Level.Sound k { l with selected := some t } where
  step := h.step
  dense := h.dense
  selection := by
    rintro u ⟨⟩
    obtain ⟨f, hf, hawake, rfl⟩ := Level.exists_awake_of_firstAwake hfirst
    obtain rfl : f = e := by simpa [h.dense.getElem? hf] using he
    obtain ⟨hmarked, hasleep⟩ : f.marked ∧ f.asleep = false := by simpa [Entry.awake] using hawake
    exact ⟨f, he, hrunnable, hmarked, by simp [hasleep]⟩
  cursor := h.cursor

theorem remarked (h : l.Sound k) (hmarked : l.Remarked l') : l'.Sound k where
  step := by rw [hmarked.rest, h.step]
  dense := hmarked.dense h.dense
  selection := by
    intro t ht
    obtain ⟨e, he, hrunnable, hmark, hawake⟩ := h.selection t (hmarked.selected ▸ ht)
    obtain ⟨e', he', hpending, hasleep, hkept⟩ := hmarked.getElem? he
    refine ⟨e', he', ?_, hkept hmark, by rwa [hasleep]⟩
    rwa [show e'.toPending = e.toPending from hpending]
  cursor := by
    rw [hmarked.rest]
    exact h.cursor

theorem draw (h : l.Sound k) {kind : DrawKind} {bound v : Nat} {g g' : Option Pcg}
    (hdraw : l.draw kind bound g = .ok (v, l', g')) :
    l'.Sound k ∧ l'.selected = l.selected ∧ g'.isSome = g.isSome := by
  rcases Level.cases_of_draw hdraw with ⟨rfl, hlt, rfl⟩ | ⟨rfl, rfl⟩
  · exact ⟨h.withDraws hlt, rfl, rfl⟩
  · exact ⟨h.record _, rfl, Level.isSome_fresh kind bound g⟩

theorem flipDraws (h : l.Sound k) {r : Except Fault Bool} (hl : l.flipDraws = (l', r)) :
    l'.Sound k := by
  rcases Level.exists_of_flipDraws hl with rfl | ⟨draws, rfl⟩
  · exact h
  · exact h.withDraws (Nat.zero_le _)

theorem retire (h : l.Sound k) (hl : l.retire = .ok l') : l'.Sound k := by
  obtain ⟨t, -, rfl⟩ := Level.exists_of_retire hl
  exact h.of_pendings rfl (Level.pendings_modifyEntry l t Entry.toPending_putToSleep) rfl h.cursor

theorem advance (h : l.Sound k) (hl : l.advance = (l', .ok true)) : l'.Sound k := by
  rcases Level.cases_of_advance hl with hflip | ⟨m, hflip, hretire⟩
  · exact h.flipDraws hflip
  · exact (h.flipDraws hflip).retire hretire

end Level.Sound

/-! ## Schedules -/

/-- The cursor is within the levels, all levels are sound, and every level except possibly the last
one has a selection. -/
structure Schedule.Sound (s : Schedule) : Prop where
  visited_le : s.visited ≤ s.size
  level : ∀ (k : Nat) (l : Level), s.levels[k]? = some l → l.Sound k
  decided : s.Decided

/-- All levels that were visited have a selection, so that a level may be added. -/
def Schedule.Settled (s : Schedule) : Prop :=
  ∀ (k : Nat) (l : Level), s.levels[k]? = some l → k < s.visited → l.selected.isSome

namespace Schedule

variable {s s' : Schedule} {top l : Level} {visited : Nat} {randomized : Bool}

theorem of_getElem?_set {levels : List Level} {position k : Nat} {m : Level}
    (h : (levels.set position l)[k]? = some m) : k = position ∧ m = l ∨ levels[k]? = some m := by
  by_cases hk : position = k
  · subst hk
    have hlt : position < levels.length := by
      simpa using (List.getElem?_eq_some_iff.1 h).1
    exact .inl ⟨rfl, by simpa [hlt, eq_comm] using h⟩
  · exact .inr (List.getElem?_set_ne hk ▸ h)

theorem modifyTop_eq_set {position : Nat} (hvisited : s.visited = position + 1)
    (hlevel : s.levels[position]? = some top) (f : Level → Level) :
    s.modifyTop f = { s with levels := s.levels.set position (f top) } := by
  simp [modifyTop, hvisited, modifyLevel, List.modify_eq_set_getElem?, hlevel]

theorem modifyTop_cases (s : Schedule) (f : Level → Level) :
    s.modifyTop f = s ∨ ∃ position top, s.top? = some top ∧ s.levels[position]? = some top ∧
      s.modifyTop f = { s with levels := s.levels.set position (f top) } := by
  cases htop : s.top? with
  | none =>
    refine .inl ?_
    unfold Schedule.modifyTop modifyLevel
    split
    · rfl
    · next position hvisited =>
      have hlength : s.levels.length ≤ position := by simpa [top?, fromTop?, hvisited] using htop
      rw [List.modify_eq_self hlength]
  | some top =>
    obtain ⟨position, hvisited, hlevel⟩ := top?_eq_some.1 htop
    exact .inr ⟨position, top, rfl, hlevel, modifyTop_eq_set hvisited hlevel f⟩

@[simp] theorem randomized_modifyTop (s : Schedule) (f : Level → Level) :
    (s.modifyTop f).randomized = s.randomized := by
  rcases s.modifyTop_cases f with heq | ⟨_, _, _, _, heq⟩ <;> rw [heq]

@[simp] theorem visited_modifyTop (s : Schedule) (f : Level → Level) :
    (s.modifyTop f).visited = s.visited := by
  rcases s.modifyTop_cases f with heq | ⟨_, _, _, _, heq⟩ <;> rw [heq]

theorem Remarked.decided (hs : s.Remarked s') (h : s.Decided) : s'.Decided := by
  intro k l' hl' hk
  obtain ⟨l, hl, hmarked⟩ := hs.of_getElem? hl'
  rw [hmarked.selected]
  exact h k l hl (by simpa [size, hs.length] using hk)

namespace Sound

theorem remarked (h : s.Sound) (hs : s.Remarked s') : s'.Sound where
  visited_le := by
    rw [hs.visited, size, hs.length]
    exact h.visited_le
  level := by
    intro k l' hl'
    obtain ⟨l, hl, hmarked⟩ := hs.of_getElem? hl'
    exact (h.level k l hl).remarked hmarked
  decided := hs.decided h.decided

/-- The beginning of a sound schedule is sound. -/
theorem take (h : s.Sound) {n : Nat} (hv : visited ≤ min n s.size) :
    Sound ⟨s.levels.take n, visited, randomized⟩ where
  visited_le := by simpa [size] using hv
  level := by
    intro k l hl
    rw [List.getElem?_take, Option.ite_none_right_eq_some] at hl
    exact h.level k l hl.2
  decided := by
    intro k l hl hk
    rw [List.getElem?_take, Option.ite_none_right_eq_some] at hl
    simp only [size, List.length_take] at hk
    exact h.decided k l hl.2 (by simp only [size]; omega)

/-- The beginning of a sound schedule with another last level is sound. -/
theorem takeSnoc (h : s.Sound) {n : Nat} (hn : n < s.size) (hl : l.Sound n) :
    Sound ⟨s.levels.take n ++ [l], 0, randomized⟩ where
  visited_le := Nat.zero_le _
  level := by
    intro k m hm
    rcases of_getElem?_snoc hm with hm | ⟨rfl, rfl⟩
    · rw [List.getElem?_take, Option.ite_none_right_eq_some] at hm
      exact h.level k m hm.2
    · rwa [List.length_take_of_le hn.le]
  decided := by
    intro k m hm hlast
    have hk : k < min n s.size := by simpa [size] using hlast
    rw [List.getElem?_append_left (by simpa [size] using hk), List.getElem?_take,
      Option.ite_none_right_eq_some] at hm
    exact h.decided k m hm.2 (by omega)

theorem cut (h : s.Sound) (n : Nat) : (s.cut n).Sound :=
  h.take (by have := h.visited_le; omega)

theorem dropUnvisited (h : s.Sound) : s.dropUnvisited.Sound :=
  h.take (by have := h.visited_le; omega)

theorem empty (randomized : Bool) : Sound ⟨[], 0, randomized⟩ where
  visited_le := le_rfl
  level := by simp
  decided := by
    intro k l hl
    simp at hl

/-- Levels of a sound schedule may be visited or not. -/
theorem visit (h : s.Sound) (hv : visited ≤ s.size) : Sound { s with visited } :=
  ⟨hv, h.level, h.decided⟩

/-- A level is replaced. -/
theorem set (h : s.Sound) {position : Nat} (htop : s.levels[position]? = some top)
    (hl : l.Sound position) (hselected : top.selected.isSome → l.selected.isSome) :
    Sound { s with levels := s.levels.set position l } where
  visited_le := by simpa [size] using h.visited_le
  level := by
    intro k m hm
    rcases of_getElem?_set hm with ⟨rfl, rfl⟩ | hm
    · exact hl
    · exact h.level k m hm
  decided := by
    intro k m hm hlast
    have hk : k + 1 < s.size := by simpa [size] using hlast
    rcases of_getElem?_set hm with ⟨rfl, rfl⟩ | hm
    · exact hselected (h.decided _ top htop hk)
    · exact h.decided k m hm hk

/-- A level is added where all levels are decided. -/
theorem snoc (h : s.Sound) (settled : s.Settled) (hv : s.visited = s.size) (hl : l.Sound s.size) :
    Sound { s with levels := s.levels ++ [l], visited := s.visited + 1 } where
  visited_le := by simp [size, hv]
  level := by
    intro k m hm
    rcases of_getElem?_snoc hm with hm | ⟨rfl, rfl⟩
    · exact h.level k m hm
    · exact hl
  decided := by
    intro k m hm hlast
    have hk : k < s.size := by simpa [size] using hlast
    rcases of_getElem?_snoc hm with hm | ⟨rfl, rfl⟩
    · exact settled k m hm (hv ▸ hk)
    · exact absurd hk (lt_irrefl _)

/-- The level visited last is changed and keeps its selection. -/
theorem modifyTop (h : s.Sound) {f : Level → Level}
    (hf : ∀ top k, s.top? = some top → top.Sound k →
      (f top).Sound k ∧ (f top).selected = top.selected) :
    (s.modifyTop f).Sound ∧ (s.Settled → (s.modifyTop f).Settled) := by
  rcases s.modifyTop_cases f with heq | ⟨position, top, htop, hlevel, heq⟩
  · rw [heq]
    exact ⟨h, id⟩
  · obtain ⟨hsound, hselected⟩ := hf top position htop (h.level position top hlevel)
    rw [heq]
    refine ⟨h.set hlevel hsound (by simp [hselected]), fun settled k m hm hk => ?_⟩
    rcases of_getElem?_set hm with ⟨rfl, rfl⟩ | hm
    · rw [hselected]
      exact settled _ top hlevel hk
    · exact settled k m hm hk

end Sound

theorem Settled.dropUnvisited (h : s.Settled) : s.dropUnvisited.Settled := by
  intro k l hl hk
  simp only [Schedule.dropUnvisited, List.getElem?_take, Option.ite_none_right_eq_some] at hl
  exact h k l hl.2 hk

/-- Where no level was visited yet, all that were have a selection. -/
theorem settled_of_visited (h : s.visited = 0) : s.Settled := by
  intro k l _ hk
  omega

end Schedule

/-! ## Marks -/

namespace Level

theorem remarked_markEnabled (l : Level) : l.Remarked l.markEnabled := by
  refine ⟨rfl, fun i => ?_⟩
  rw [getElem?_markEnabled]
  cases l.entries[i]? with
  | none => simp
  | some e => by_cases he : e.enabled <;> simp [he]

theorem remarked_markFirst (l : Level) (start : ThreadId) : l.Remarked (l.markFirst start) := by
  unfold markFirst
  split
  · exact l.remarked_mark _
  · exact .refl l

/-- A thread is looked up, and what comes of it is known before. -/
theorem eq_of_entry {α : Type} {l : Level} {t : ThreadId} {may : Entry → Bool}
    {fault : Entry → Fault} {a b : α}
    (h : (do
      let e ← l.entry t
      if may e then return a else throw (fault e)) = .ok b) : a = b := by
  cases he : l.entry t with
  | error fault => simp [he, bind, Except.bind] at h
  | ok e =>
    simp only [he, bind, Except.bind] at h
    split at h
    · exact Except.ok.inj h
    · simp [throw, throwThe, MonadExceptOf.throw] at h

theorem remarked_markThread {l l' : Level} {t : ThreadId} (h : l.markThread t = .ok l') :
    l.Remarked l' :=
  eq_of_entry h ▸ l.remarked_mark t

theorem remarked_markRandom (l : Level) (g : Pcg) : l.Remarked (l.markRandom g).1 := by
  -- the draw is not to be computed
  obtain ⟨below, hbelow⟩ : ∃ below, below = Pcg.below := ⟨_, rfl⟩
  delta markRandom
  rw [← hbelow]
  simp only
  split
  · exact .refl l
  · split
    · exact l.remarked_mark _
    · exact .refl l

end Level

/-! ## From level to level -/

namespace Schedule

variable {s : Schedule}

/-- The level visited last, where nothing was selected yet, inherits its sleep. -/
theorem Sound.inheritSleep (h : s.Sound) (hnone : ∀ top, s.top? = some top → top.selected = none) :
    Schedule.inheritSleep.Ensures s fun _ t => t.Sound ∧ t.randomized = s.randomized := by
  refine (yields_get s).bind_ensures ?_
  split
  · exact ensures_pure ⟨h, rfl⟩
  · refine bind_lift_ensures fun executed _ => bind_lift_ensures fun top _ =>
      (yields_notify _ _).bind_ensures ((yields_set _ _).ensures ⟨?_, by simp⟩)
    refine (h.modifyTop (f := fun top => top.putToSleep _) fun top k htop hsound => ⟨?_, rfl⟩).1
    exact hsound.of_pendings rfl (top.pendings_putToSleep _) (hnone top htop) hsound.cursor

/-- The next level is visited. If it is new, nothing is selected there. -/
theorem Sound.push (h : s.Sound) (settled : s.Settled) (snapshot : Snapshot) :
    (Schedule.push snapshot).Ensures s fun added t => t.Sound ∧ t.randomized = s.randomized ∧
      (added → ∀ top, t.top? = some top → top.selected = none) := by
  refine push_ensures (fun hnone dense => ?_) fun recorded hrecorded => ?_
  · have hvisited : s.visited = s.size :=
      le_antisymm h.visited_le (by simpa [size] using hnone)
    refine ⟨h.snoc settled hvisited ?_, rfl, fun _ top htop => ?_⟩
    · rw [hvisited]
      exact ⟨rfl, Level.dense_capture dense, by simp, le_rfl⟩
    · obtain ⟨position, hposition, hlevel⟩ := top?_eq_some.1 htop
      obtain rfl : position = s.levels.length := by
        have : s.visited + 1 = position + 1 := hposition
        simp only [size] at hvisited
        omega
      obtain rfl := Option.some.inj ((List.getElem?_concat_length ..).symm.trans hlevel)
      rfl
  · exact ⟨h.visit (List.getElem?_eq_some_iff.1 hrecorded).1, rfl, by simp⟩

/-- Of levels, the last one first, those with nothing left to explore are dropped, and the first
that is kept goes on to its next alternative. -/
theorem of_dropExplored {kept : List Level} : ∀ {levels : List Level},
    dropExplored levels = (kept, .ok ()) → kept = [] ∨ ∃ dropped l l' rest,
      levels = dropped ++ l :: rest ∧ kept = l' :: rest ∧ l.advance = (l', .ok true)
  | [], h => .inl (congrArg Prod.fst h).symm
  | l :: rest, h => by
    unfold dropExplored at h
    split at h
    · rcases of_dropExplored h with hkept | ⟨dropped, m, m', rest', rfl, hkept, hm⟩
      · exact .inl hkept
      · exact .inr ⟨l :: dropped, m, m', rest', rfl, hkept, hm⟩
    · next l' hl =>
      exact .inr ⟨[], l, l', rest, rfl, (congrArg Prod.fst h).symm, hl⟩
    · simp at h

theorem exists_dropUnselected (levels : List Level) :
    ∃ dropped, levels = dropped ++ dropUnselected levels := by
  cases levels with
  | nil => exact ⟨[], rfl⟩
  | cons l rest =>
    by_cases hl : l.selected.isNone
    · exact ⟨[l], by simp [dropUnselected, hl]⟩
    · exact ⟨[], by simp [dropUnselected, hl]⟩

/-- At random all levels stay. Otherwise it is those up to one that goes on to its next
alternative, if there is one. -/
theorem rewind_ensures {Q : Unit → Schedule → Prop}
    (hall : s.randomized → Q () { s with visited := 0 })
    (hnone : Q () { s with levels := [], visited := 0 })
    (hkept : ∀ p l l', s.randomized = false → s.levels[p]? = some l → l.advance = (l', .ok true) →
      Q () { s with levels := s.levels.take p ++ [l'], visited := 0 }) :
    Schedule.rewind.Ensures s Q := by
  rintro u t ⟨notices, ht⟩
  unfold Schedule.rewind at ht
  split at ht
  · next hrandomized =>
    obtain ⟨-, rfl, -⟩ := Outcome.mk.inj ht
    exact hall hrandomized
  · next hrandomized =>
    split at ht
    · next kept hdropped =>
      obtain ⟨-, rfl, -⟩ := Outcome.mk.inj ht
      obtain ⟨unselected, hunselected⟩ := exists_dropUnselected s.levels.reverse
      rcases of_dropExplored hdropped with rfl | ⟨dropped, l, l', rest, hlevels, rfl, hadvance⟩
      · exact hnone
      · have hkeep : s.levels = rest.reverse ++ l :: (unselected ++ dropped).reverse := by
          rw [hlevels] at hunselected
          rw [← List.reverse_reverse s.levels, hunselected]
          simp
        have htake : s.levels.take rest.length = rest.reverse := by
          rw [hkeep, List.take_left' (by simp)]
        rw [List.reverse_cons, ← htake]
        exact hkept rest.length l l' (by simpa using hrandomized) (by simp [hkeep]) hadvance
    · simp at ht

/-- At the start of an iteration no level was visited yet. -/
theorem Sound.rewind (h : s.Sound) : Schedule.rewind.Ensures s fun _ t =>
    t.Sound ∧ t.randomized = s.randomized ∧ t.visited = 0 := by
  refine rewind_ensures (fun _ => ?_) ?_ fun p l l' _ hl hadvance => ?_
  · exact ⟨h.visit (Nat.zero_le _), rfl, rfl⟩
  · exact ⟨.empty _, rfl, rfl⟩
  · refine ⟨?_, rfl, rfl⟩
    exact h.takeSnoc (List.getElem?_eq_some_iff.1 hl).1 ((h.level p l hl).advance hadvance)

end Schedule

end Interleaving
