import Interleaving.Proofs.Commuting

/-!
# Actors that never wait

Actors that only send, yield, start and stop are enabled until they are finished. Their maximal
runs are the shuffles of their scripts. All that they leave behind are the messages, and those
arrive in an inbox in the order of the sends to it; equivalent runs agree in it.

## Main definitions

* `Free` — scripts that wait for nothing and draw nothing.
* `movesOf`, `sendsTo` — the moves of an actor, and the sends to an inbox, in a run.
* `Machine.arrivals` — the actors whose messages came to an inbox.

## Main statements

* `Machine.maximal_iff` — the maximal runs are the shuffles.
* `Machine.Equivalent.filter_eq` — what equivalent runs have in common.
* `Machine.arrivals_moves` — the arrivals after a run.
-/

namespace Interleaving

namespace Actors

/-- The instructions that wait for nothing and draw nothing. -/
def Instruction.free : Instruction → Bool
  | .send _ | .yield | .start | .stop => true
  | _ => false

/-- All instructions of the scripts are free. -/
def Free (scripts : List Script) : Prop := ∀ script ∈ scripts, ∀ i ∈ script, i.free

theorem Instruction.free.plain {i : Instruction} (h : i.free) : i.plain := by
  cases i <;> simp [free, Instruction.plain] at h ⊢

theorem Free.plain {scripts : List Script} (h : Free scripts) : Plain scripts :=
  fun script hs i hi => Instruction.free.plain (h script hs i hi)

/-- Whether a move is a send to the inbox. -/
def Move.sends (x : Move) (inbox : Nat) : Bool :=
  match x.instruction with
  | .send i => i == inbox
  | _ => false

theorem Move.sends_iff {x : Move} {inbox : Nat} :
    x.sends inbox ↔ x.instruction = .send inbox := by
  unfold sends
  cases x.instruction <;> simp

/-- The moves of an actor in a run. -/
def movesOf (t : ThreadId) (xs : List Move) : List Move := xs.filter (·.thread == t)

/-- The sends to an inbox in a run. -/
def sendsTo (inbox : Nat) (xs : List Move) : List Move := xs.filter (·.sends inbox)

theorem mem_movesOf {t : ThreadId} {xs : List Move} {x : Move} :
    x ∈ movesOf t xs ↔ x ∈ xs ∧ x.thread = t := by
  simp [movesOf]

theorem mem_sendsTo {inbox : Nat} {xs : List Move} {x : Move} :
    x ∈ sendsTo inbox xs ↔ x ∈ xs ∧ x.instruction = .send inbox := by
  simp [sendsTo, Move.sends_iff]

theorem movesOf_append (t : ThreadId) (xs ys : List Move) :
    movesOf t (xs ++ ys) = movesOf t xs ++ movesOf t ys := List.filter_append ..

theorem sendsTo_append (inbox : Nat) (xs ys : List Move) :
    sendsTo inbox (xs ++ ys) = sendsTo inbox xs ++ sendsTo inbox ys := List.filter_append ..

theorem movesOf_cons_self (x : Move) (xs : List Move) :
    movesOf x.thread (x :: xs) = x :: movesOf x.thread xs := by
  simp [movesOf]

theorem movesOf_of_ne {t : ThreadId} {x : Move} (h : x.thread ≠ t) (u v : List Move) :
    movesOf t (u ++ x :: v) = movesOf t (u ++ v) := by
  simp [movesOf, h]

theorem sendsTo_of_ne {inbox : Nat} {x : Move} (h : x.instruction ≠ .send inbox)
    (u v : List Move) : sendsTo inbox (u ++ x :: v) = sendsTo inbox (u ++ v) := by
  simp [sendsTo, Move.sends_iff, h]

/-- The moves of an actor, of which the first one is known. -/
theorem movesOf_first {t : ThreadId} {u v : List Move} {x : Move} (hx : x.thread = t)
    (hu : ∀ y ∈ u, y.thread ≠ t) : movesOf t (u ++ x :: v) = x :: movesOf t v := by
  have hnil : movesOf t u = [] := List.filter_eq_nil_iff.2 (by simpa using hu)
  rw [movesOf_append, hnil, List.nil_append, ← hx, movesOf_cons_self]

/-- The sends to an inbox, of which the first one is known. -/
theorem sendsTo_first {inbox : Nat} {u v : List Move} {x : Move} (hx : x.instruction = .send inbox)
    (hu : ∀ y ∈ u, y.instruction ≠ .send inbox) :
    sendsTo inbox (u ++ x :: v) = x :: sendsTo inbox v := by
  have hnil : sendsTo inbox u = [] := by
    rw [sendsTo, List.filter_eq_nil_iff]
    exact fun y hy hyi => hu y hy (Move.sends_iff.1 hyi)
  rw [sendsTo_append, hnil, List.nil_append]
  simp [sendsTo, Move.sends_iff.2 hx]

/-- Free moves of different actors are independent unless both send to one inbox. -/
theorem Move.independent_of_free {x y : Move} (hx : x.instruction.free) (hy : y.instruction.free)
    (hne : x.thread ≠ y.thread) (hs : ∀ i, x.instruction = .send i → y.instruction ≠ .send i) :
    x.Independent y := by
  refine ⟨hne, ?_⟩
  cases hxi : x.instruction <;> cases hyi : y.instruction <;>
    simp [hxi, hyi, Instruction.free, operation, Machine.pending, Pending.dependent, hne] at hx hy ⊢
  exact fun h => absurd hyi (h ▸ hs _ hxi)

/-- Two sends to one inbox depend on each other. -/
theorem Move.not_independent_of_sends {x y : Move} {inbox : Nat} (hx : x.instruction = .send inbox)
    (hy : y.instruction = .send inbox) : ¬ x.Independent y := by
  intro h
  have := h.free
  simp [operation, Machine.pending, hx, hy, Pending.dependent] at this

namespace Machine

/-- What an actor has left to do. -/
def left (m : Machine) (t : ThreadId) : Script := m.actors[t]?.getD []

/-- The machine runs free scripts, and nothing stops it. -/
structure Unhindered (m : Machine) : Prop where
  free : Free m.actors
  unforced : m.forces = []
  idle : m.demand = none

theorem unhindered_load {scripts : List Script} (h : Free scripts) : (load scripts).Unhindered :=
  ⟨h, rfl, rfl⟩

namespace Unhindered

variable {m : Machine} {x : Move} {xs : List Move}

theorem tidy (h : m.Unhindered) : m.Tidy := ⟨h.free.plain, h.unforced⟩

theorem free_next (h : m.Unhindered) {t : ThreadId} {i : Instruction} {rest : Script}
    (ht : m.actors[t]? = some (i :: rest)) : i.free :=
  h.free _ (List.mem_of_getElem? ht) i List.mem_cons_self

/-- An actor that has something left to do can do it. -/
theorem can_iff (h : m.Unhindered) :
    m.Can x ↔ x.toss = none ∧ ∃ rest, m.left x.thread = x.instruction :: rest := by
  constructor
  · intro hx
    obtain ⟨rest, hnext, -⟩ := hx.next
    have hfree := h.free_next hnext
    have htoss := hx.toss
    refine ⟨?_, rest, by simp [left, hnext]⟩
    cases hi : x.instruction <;> simp [hi, Instruction.free] at hfree htoss <;> exact htoss
  · rintro ⟨htoss, rest, hleft⟩
    have hnext : m.actors[x.thread]? = some (x.instruction :: rest) := by
      cases ha : m.actors[x.thread]? with
      | none => simp [left, ha] at hleft
      | some script => simpa [left, ha] using hleft
    have hfree := h.free_next hnext
    refine ⟨h.idle, ⟨rest, hnext, ?_⟩, ?_⟩
    · cases hi : x.instruction <;> simp [hi, Instruction.free, pending] at hfree ⊢
    · cases hi : x.instruction <;> simp [hi, Instruction.free, htoss] at hfree ⊢

theorem move (h : m.Unhindered) (hx : m.Can x) : (m.move x).Unhindered := by
  obtain ⟨rest, hm⟩ := hx.moved h.tidy
  refine ⟨fun script hs i hi => ?_, hm.tidy.free, hm.demand⟩
  rw [hm.actors] at hs
  rcases List.mem_or_eq_of_mem_set hs with hs | rfl
  · exact h.free script hs i hi
  · exact h.free _ (List.mem_of_getElem? hm.next) i (List.mem_cons_of_mem _ hi)

theorem moves (h : m.Unhindered) (hxs : m.Executes xs) : (m.moves xs).Unhindered := by
  induction xs generalizing m with
  | nil => exact h
  | cons x xs ih => exact ih (h.move hxs.1) hxs.2

theorem left_move (h : m.Unhindered) (hx : m.Can x) (t : ThreadId) :
    m.left t = (movesOf t [x]).map Move.instruction ++ (m.move x).left t := by
  obtain ⟨rest, hm⟩ := hx.moved h.tidy
  have hlt := (List.getElem?_eq_some_iff.1 hm.next).1
  by_cases ht : x.thread = t
  · subst ht
    have hset : (m.actors.set x.thread rest)[x.thread]? = some rest := List.getElem?_set_self hlt
    rw [left, left, hm.next, hm.actors, hset]
    simp [movesOf]
  · simp [left, movesOf, ht, hm.actors]

/-- A run takes instructions from the scripts. -/
theorem left_moves (h : m.Unhindered) (hxs : m.Executes xs) (t : ThreadId) :
    m.left t = (movesOf t xs).map Move.instruction ++ (m.moves xs).left t := by
  induction xs generalizing m with
  | nil => simp [movesOf]
  | cons x xs ih =>
    rw [h.left_move hxs.1 t, ih (h.move hxs.1) hxs.2, ← List.append_assoc, ← List.map_append,
      ← movesOf_append]
    rfl

/-- What takes instructions from the scripts in their order is a run. -/
theorem executes_of_isPrefix (h : m.Unhindered) (htoss : ∀ x ∈ xs, x.toss = none)
    (hleft : ∀ t, (movesOf t xs).map Move.instruction <+: m.left t) : m.Executes xs := by
  induction xs generalizing m with
  | nil => trivial
  | cons x xs ih =>
    have hx : m.Can x := by
      obtain ⟨rest, hrest⟩ := hleft x.thread
      rw [movesOf_cons_self, List.map_cons, List.cons_append] at hrest
      exact h.can_iff.2 ⟨htoss x List.mem_cons_self, _, hrest.symm⟩
    refine ⟨hx, ih (h.move hx) (fun y hy => htoss y (List.mem_cons_of_mem x hy)) fun t => ?_⟩
    have hprefix := hleft t
    rw [← List.singleton_append, movesOf_append, List.map_append, h.left_move hx t] at hprefix
    exact (List.prefix_append_right_inj _).1 hprefix

theorem toss_eq_none (h : m.Unhindered) (hxs : m.Executes xs) : ∀ x ∈ xs, x.toss = none := by
  induction xs generalizing m with
  | nil => simp
  | cons y xs ih =>
    intro x hx
    rcases List.mem_cons.1 hx with rfl | hx
    · exact (h.can_iff.1 hxs.1).1
    · exact ih (h.move hxs.1) hxs.2 x hx

theorem free_of_mem (h : m.Unhindered) (hxs : m.Executes xs) : ∀ x ∈ xs, x.instruction.free := by
  induction xs generalizing m with
  | nil => simp
  | cons y xs ih =>
    intro x hx
    rcases List.mem_cons.1 hx with rfl | hx
    · obtain ⟨rest, hnext, -⟩ := hxs.1.next
      exact h.free_next hnext
    · exact ih (h.move hxs.1) hxs.2 x hx

/-- The maximal runs are the shuffles of the scripts. -/
theorem maximal_iff (h : m.Unhindered) : m.Maximal xs ↔ (∀ x ∈ xs, x.toss = none) ∧
    ∀ t, (movesOf t xs).map Move.instruction = m.left t := by
  constructor
  · rintro ⟨hxs, hstuck⟩
    refine ⟨h.toss_eq_none hxs, fun t => ?_⟩
    rw [h.left_moves hxs t]
    cases hleft : (m.moves xs).left t with
    | nil => simp
    | cons i rest =>
      exact absurd ((h.moves hxs).can_iff.2 ⟨rfl, rest, hleft⟩) (hstuck ⟨t, i, none⟩)
  · rintro ⟨htoss, hleft⟩
    have hxs := h.executes_of_isPrefix htoss fun t => hleft t ▸ List.prefix_refl _
    refine ⟨hxs, fun x hx => ?_⟩
    obtain ⟨-, rest, hrest⟩ := (h.moves hxs).can_iff.1 hx
    have := h.left_moves hxs x.thread
    rw [hleft, hrest] at this
    simp at this

/-- An actor's first move can be made before the moves of the others. -/
theorem maximal_front (h : m.Unhindered) {pre u v : List Move} (hu : ∀ y ∈ u, y.thread ≠ x.thread)
    (hmax : m.Maximal (pre ++ (u ++ x :: v))) : m.Maximal (pre ++ x :: (u ++ v)) := by
  rw [h.maximal_iff] at hmax ⊢
  refine ⟨fun y hy => hmax.1 y ?_, fun t => ?_⟩
  · simp only [List.mem_append, List.mem_cons] at hy ⊢
    tauto
  · rw [← hmax.2 t, movesOf_append, movesOf_append]
    congr 2
    by_cases ht : x.thread = t
    · have hnil : movesOf t u = [] := List.filter_eq_nil_iff.2 (by simpa [← ht] using hu)
      rw [movesOf_first ht (ht ▸ hu), ← ht, movesOf_cons_self, movesOf_append, ht, hnil]
      rfl
    · rw [movesOf_of_ne ht]
      exact movesOf_of_ne ht [] (u ++ v)

end Unhindered

/-! ## What equivalent runs have in common -/

/-- Equivalent runs have the moves of a kind in the same order if no two of the kind are
independent. -/
theorem Equivalent.filter_eq {m : Machine} {xs ys : List Move} (h : m.Equivalent xs ys)
    {f : Move → Bool} (hf : ∀ x y, f x → f y → ¬ x.Independent y) : xs.filter f = ys.filter f := by
  induction h with
  | rel xs ys h =>
    cases h with
    | @mk pre post x y hind _ _ =>
      have hxy := hf x y
      simp only [List.filter_append, List.filter_cons]
      split <;> split
      · next hx hy => exact absurd hind (hxy hx hy)
      all_goals rfl
  | refl xs => rfl
  | symm xs ys _ ih => exact ih.symm
  | trans xs ys zs _ _ ih₁ ih₂ => exact ih₁.trans ih₂

theorem Equivalent.movesOf_eq {m : Machine} {xs ys : List Move} (h : m.Equivalent xs ys)
    (t : ThreadId) : movesOf t xs = movesOf t ys := by
  refine h.filter_eq fun x y hx hy hind => hind.ne ?_
  simp only [beq_iff_eq] at hx hy
  rw [hx, hy]

theorem Equivalent.sendsTo_eq {m : Machine} {xs ys : List Move} (h : m.Equivalent xs ys)
    (inbox : Nat) : sendsTo inbox xs = sendsTo inbox ys :=
  h.filter_eq fun _ _ hx hy =>
    Move.not_independent_of_sends (Move.sends_iff.1 hx) (Move.sends_iff.1 hy)

/-- The actors whose messages are in an inbox, the oldest message first. -/
def arrivals (m : Machine) (inbox : Nat) : List ThreadId :=
  (m.messages.filter (·.inbox == inbox)).map (·.sender)

/-- The messages in an inbox are those that were sent to it, in this order. -/
theorem Unhindered.arrivals_moves {m : Machine} (h : m.Unhindered) {xs : List Move}
    (hxs : m.Executes xs) (inbox : Nat) :
    (m.moves xs).arrivals inbox = m.arrivals inbox ++ (sendsTo inbox xs).map Move.thread := by
  induction xs generalizing m with
  | nil => simp [sendsTo]
  | cons x xs ih =>
    obtain ⟨rest, hnext, -⟩ := hxs.1.next
    have hfree := h.free_next hnext
    have htoss := (h.can_iff.1 hxs.1).1
    have hmove : (m.move x).arrivals inbox =
        m.arrivals inbox ++ (sendsTo inbox [x]).map Move.thread := by
      simp only [Machine.move, htoss, step, hnext]
      cases hi : x.instruction with
      | send i => by_cases hin : i = inbox <;> simp [effect, arrivals, sendsTo, Move.sends, hi, hin]
      | yield | start | stop => simp [effect, arrivals, sendsTo, Move.sends, hi]
      | _ => simp [hi, Instruction.free] at hfree
    rw [moves_cons, ih (h.move hxs.1) hxs.2, hmove, List.append_assoc, ← List.map_append,
      ← sendsTo_append]
    rfl

end Machine

end Actors

end Interleaving
