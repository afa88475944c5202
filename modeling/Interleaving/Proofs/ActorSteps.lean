import Interleaving.Proofs.Waking
import Interleaving.Proofs.Walking

/-!
# The steps of a run of actors

The analysis of a schedule sees the moves of a run as steps: which actor made them, and what they
did to which actor or inbox. The levels of the schedule show, one after the other, what the actors
are about to do along the run.

## Main definitions

* `Machine.steps` — the steps of a run as the analysis sees them.
* `Along` — a stack of levels along a run.

## Main statements

* `Along.performs`, `Along.calm` — the levels along a run run its steps, which the analysis can
  order.
-/

namespace Interleaving

namespace Actors

open Machine

namespace Machine

/-- What a move shows to the analysis, as step `k` of a schedule with so many levels. An actor that
is created is the next to appear. -/
def shown (m : Machine) (levels k : Nat) (x : Move) : Pending :=
  { m.pending x.thread [x.instruction] with
    target := if (m.pending x.thread [x.instruction]).op = .create ∧ k < levels then
        some m.actors.length
      else (m.pending x.thread [x.instruction]).target }

/-- The steps of a run as the analysis sees them. -/
def steps (m : Machine) (levels : Nat) (xs : List Move) : Trace :=
  xs.mapIdx fun k x => (m.moves (xs.take k)).shown levels (k + 1) x

variable {m : Machine} {levels : Nat} {xs : List Move} {x y : Move}

theorem pending_cons (m : Machine) (t : ThreadId) (i : Instruction) (rest : Script) :
    m.pending t (i :: rest) = m.pending t [i] := by
  cases i <;> rfl

@[simp] theorem thread_shown (k : Nat) : (m.shown levels k x).thread = x.thread :=
  m.thread_pending x.thread [x.instruction]

theorem length_steps : (m.steps levels xs).length = xs.length := List.length_mapIdx

theorem stepAt_steps (k : Nat) : (m.steps levels xs).stepAt (k + 1) =
    xs[k]?.map ((m.moves (xs.take k)).shown levels (k + 1)) := List.getElem?_mapIdx

theorem exists_of_stepAt_steps {k : Nat} {p : Pending} (h : (m.steps levels xs).stepAt k = some p) :
    ∃ n x, k = n + 1 ∧ xs[n]? = some x ∧ p = (m.moves (xs.take n)).shown levels (n + 1) x := by
  obtain ⟨n, rfl⟩ : ∃ n, k = n + 1 := ⟨k - 1, by have := Trace.stepAt_pos h; omega⟩
  rw [stepAt_steps, Option.map_eq_some_iff] at h
  obtain ⟨x, hx, rfl⟩ := h
  exact ⟨n, x, rfl, hx, rfl⟩

theorem ran_steps {k : Nat} {t : ThreadId} :
    (m.steps levels xs).Ran t (k + 1) ↔ ∃ x, xs[k]? = some x ∧ x.thread = t := by
  simp [Trace.Ran, stepAt_steps]

theorem Executes.take (h : m.Executes xs) (n : Nat) : m.Executes (xs.take n) := by
  rw [← List.take_append_drop n xs] at h
  exact (executes_append.1 h).1

/-- The moves up to one of a run, and that move. -/
theorem Executes.can_at {n : Nat} (h : m.Executes xs) (hx : xs[n]? = some x) :
    m.Executes (xs.take n) ∧ (m.moves (xs.take n)).Can x := by
  obtain ⟨hn, rfl⟩ := List.getElem?_eq_some_iff.1 hx
  have hsplit : xs = xs.take n ++ xs[n] :: xs.drop (n + 1) := by
    rw [List.getElem_cons_drop, List.take_append_drop]
  rw [hsplit] at h
  obtain ⟨htake, hcan, -⟩ := executes_append.1 h
  exact ⟨htake, hcan⟩

/-- The instructions of a run pass the tests that the scripts pass. -/
theorem Executes.passes_at {n : Nat} (h : m.Executes xs) (orderly : m.Orderly)
    {f : Instruction → Bool} (hstart : f .start) (hf : Throughout f m.actors)
    (hx : xs[n]? = some x) : f x.instruction := by
  obtain ⟨htake, hcan⟩ := h.can_at hx
  obtain ⟨rest, hnext, -⟩ := hcan.next
  exact Instruction.of_every (htake.throughout orderly hstart hf _ (List.mem_of_getElem? hnext) _
    List.mem_cons_self)

/-- A receive gets a message that was sent before. -/
theorem sendStep_lt {scripts : List Script} {n : Nat} {i : Step}
    (hordinary : x.instruction.ordinary) (hn : n ≤ xs.length)
    (hi : (((load scripts).moves (xs.take n)).shown levels (n + 1) x).sendStep = some i) :
    0 < i ∧ i < n + 1 := by
  obtain ⟨message, hmem, rfl⟩ : ∃ message ∈ ((load scripts).moves (xs.take n)).messages,
      message.step = i := by
    change (Machine.pending _ _ _).sendStep = some i at hi
    cases hx : x.instruction <;> simp [hx, pending, Instruction.ordinary] at hi hordinary
    obtain ⟨message, hfront, rfl⟩ := hi
    exact ⟨message, List.mem_of_find?_eq_some hfront, rfl⟩
  rcases mem_messages_moves hmem with hmem | ⟨hlt, hle⟩
  · simp [load] at hmem
  · rw [List.length_take, Nat.min_eq_left hn] at hle
    simp only [load, List.length_nil, Nat.zero_add] at hlt hle
    exact ⟨hlt, Nat.lt_succ_of_le hle⟩

end Machine

/-! ## Levels along a run -/

/-- The levels show what the actors do along a run, one level for each move, and perhaps one for
what they could do next. -/
structure Along (scripts : List Script) (G : List Level) (xs : List Move) : Prop where
  executes : (load scripts).Executes xs
  length_le : xs.length ≤ G.length
  shown : ∀ {k : Nat} {l : Level}, G[k]? = some l →
    l.pendings = ((load scripts).moves (xs.take k)).snapshot
  selected : ∀ {k : Nat} {l : Level} {x : Move}, G[k]? = some l → xs[k]? = some x →
    l.selected = some x.thread

theorem eq_take_append {k : Nat} {l : Level} {G : List Level} (h : G[k]? = some l) :
    G = G.take k ++ l :: G.drop (k + 1) := by
  obtain ⟨hk, rfl⟩ := List.getElem?_eq_some_iff.1 h
  rw [List.getElem_cons_drop, List.take_append_drop]

section Along

variable {scripts : List Script} {G : List Level} {xs : List Move} {k : Nat} {l : Level}

/-- The entry of an actor shows its next instruction. -/
theorem Along.entry (h : Along scripts G xs) (hl : G[k]? = some l) {t : ThreadId}
    {script : Script} (ht : ((load scripts).moves (xs.take k)).actors[t]? = some script) :
    ∃ e, l.entries[t]? = some e ∧
      e.toPending = ((load scripts).moves (xs.take k)).pending t script := by
  have := l.pendings_getElem? t
  rw [h.shown hl, getElem?_snapshot, ht, Option.map_some] at this
  exact Option.map_eq_some_iff.1 this.symm

theorem Along.length_entries (h : Along scripts G xs) (hl : G[k]? = some l) :
    l.entries.length = ((load scripts).moves (xs.take k)).actors.length := by
  have := congrArg List.length (h.shown hl)
  simpa [Level.pendings, snapshot] using this

/-- The levels along a run run its steps. -/
theorem Along.performs (h : Along scripts G xs) :
    Performs G ((load scripts).steps G.length xs) := by
  intro k p hp
  obtain ⟨n, x, rfl, hx, rfl⟩ := exists_of_stepAt_steps hp
  have hn := (List.getElem?_eq_some_iff.1 hx).1
  have hlt : n < G.length := Nat.lt_of_lt_of_le hn h.length_le
  have hl : G[n]? = some G[n] := List.getElem?_eq_getElem hlt
  obtain ⟨-, hcan⟩ := h.executes.can_at hx
  obtain ⟨rest, hnext, -⟩ := hcan.next
  obtain ⟨e, he, hpending⟩ := h.entry hl hnext
  have hselected := h.selected hl hx
  refine ⟨G[n], e, hl, Level.selectedEntry_eq_ok hselected he, ?_, by rw [hselected, thread_shown]⟩
  rw [Level.resolved, Machine.shown, hpending, pending_cons, h.length_entries hl]

theorem Along.calm (ordinary : Ordinary scripts) (h : Along scripts G xs) :
    ((load scripts).steps G.length xs).Calm := by
  have hordinary {n : Nat} {x : Move} (hx : xs[n]? = some x) :=
    h.executes.passes_at (orderly_load ordinary) rfl ordinary hx
  refine ⟨fun p hp hop => ?_, fun k p hp _ _ i hi => ?_⟩
  · obtain ⟨k, hk⟩ := List.mem_iff_getElem?.1 hp
    obtain ⟨n, x, -, hx, rfl⟩ := exists_of_stepAt_steps (k := k + 1) hk
    have := hordinary hx
    cases hi : x.instruction <;>
      simp [Machine.shown, hi, pending, Instruction.ordinary] at hop this
  · obtain ⟨n, x, rfl, hx, rfl⟩ := exists_of_stepAt_steps hp
    exact sendStep_lt (hordinary hx) (Nat.le_of_lt (List.getElem?_eq_some_iff.1 hx).1) hi

end Along

end Actors

end Interleaving
