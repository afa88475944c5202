import Interleaving.Proofs.ActorRuns

/-!
# What wakes up an actor

An actor that cannot move waits for a message, for another actor to finish, or does not exist yet.
If it moves later, then one of the moves in between sent the message, was the last one of the other
actor, or created it.

## Main definitions

* `Closed` — scripts that are empty or end by stopping, those of created actors included.
* `Machine.Shows` — an actor is about to run an instruction that is enabled.

## Main statements

* `Machine.exists_created` — an actor that was not there was created.
* `Machine.exists_finishing` — an actor that was not finished made its last move.
* `Machine.mem_messages_moves` — a message that was not there was sent.
* `Machine.shows_or_woken` — why an actor that moves later could move at once, or could not.
-/

namespace Interleaving

namespace Actors

/-- A script is empty or ends by stopping. -/
def Script.stops (script : Script) : Bool :=
  script.getLast?.all fun
    | .stop => true
    | _ => false

/-- The script of a created actor is empty or ends by stopping. -/
def Instruction.createsStopping : Instruction → Bool
  | .create script => Script.stops script
  | _ => true

/-- All scripts are empty or end by stopping, those of created actors included. -/
structure Closed (scripts : List Script) : Prop where
  stops : ∀ script ∈ scripts, Script.stops script
  nested : Throughout Instruction.createsStopping scripts

namespace Machine

/-- The last instruction of every actor is to start or to stop. -/
structure Closing (m : Machine) : Prop where
  last : ∀ script ∈ m.actors, ∀ i ∈ script.getLast?, i = .start ∨ i = .stop
  nested : Throughout Instruction.createsStopping m.actors

theorem closing_load {scripts : List Script} (h : Closed scripts) : (load scripts).Closing := by
  refine ⟨fun script hs i hi => .inr ?_, h.nested⟩
  have := h.stops script hs
  rw [Script.stops, Option.mem_def.1 hi] at this
  cases i <;> simp at this ⊢

variable {m : Machine} {x y : Move} {u : List Move} {t : ThreadId}

theorem Can.closing (h : m.Can x) (orderly : m.Orderly) (closing : m.Closing) :
    (m.move x).Closing := by
  obtain ⟨rest, hm⟩ := h.advanced orderly
  refine ⟨fun script hs i hi => ?_, hm.actors ▸ closing.nested.advance rfl hm.next⟩
  rw [hm.actors, List.mem_append] at hs
  rcases hs with hs | hs
  · rcases List.mem_or_eq_of_mem_set hs with hs | rfl
    · exact closing.last script hs i hi
    · refine closing.last _ (List.mem_of_getElem? hm.next) i ?_
      cases script with
      | nil => simp at hi
      | cons j rest => simpa using hi
  · have hnested := Instruction.of_every
      (closing.nested _ (List.mem_of_getElem? hm.next) x.instruction List.mem_cons_self)
    cases hx : x.instruction with
    | create script' =>
      rw [hx] at hs hnested
      obtain rfl : script = .start :: script' := by simpa [Instruction.created] using hs
      cases script' with
      | nil => exact .inl (by simpa [eq_comm] using hi)
      | cons j rest =>
        simp only [Instruction.createsStopping, Script.stops] at hnested
        rw [List.getLast?_cons_cons] at hi
        rw [Option.mem_def.1 hi] at hnested
        cases i <;> simp at hnested ⊢
    | _ => simp [hx, Instruction.created] at hs

theorem Executes.closing (h : m.Executes u) (orderly : m.Orderly) (closing : m.Closing) :
    (m.moves u).Closing := by
  induction u generalizing m with
  | nil => exact closing
  | cons y u ih =>
    obtain ⟨_, hm⟩ := h.1.advanced orderly
    exact ih h.2 hm.orderly (h.1.closing orderly closing)

/-! ## Actors that do not move -/

/-- An actor that does not move keeps its script. -/
theorem Executes.getElem?_of_ne (h : m.Executes u) (orderly : m.Orderly)
    (ht : t < m.actors.length) (hu : ∀ y ∈ u, y.thread ≠ t) :
    (m.moves u).actors[t]? = m.actors[t]? := by
  induction u generalizing m with
  | nil => rfl
  | cons y u ih =>
    obtain ⟨_, hm⟩ := h.1.advanced orderly
    have hlt : t < (m.move y).actors.length := hm.length_actors ▸ Nat.lt_add_right _ ht
    rw [moves_cons, ih h.2 hm.orderly hlt fun z hz => hu z (List.mem_cons_of_mem y hz)]
    exact hm.getElem?_of_ne ht (hu y List.mem_cons_self)

/-- An actor that was not there and has not moved was created, and is about to start. -/
theorem exists_created (h : m.Executes u) (orderly : m.Orderly) (habsent : m.actors.length ≤ t)
    {i : Instruction} {rest : Script} (ht : (m.moves u).actors[t]? = some (i :: rest))
    (hu : ∀ y ∈ u, y.thread ≠ t) : i = .start ∧ ∃ u₁ y u₂ script, u = u₁ ++ y :: u₂ ∧
      y.instruction = .create script ∧ (m.moves u₁).actors.length = t := by
  induction u generalizing m with
  | nil => exact absurd (List.getElem?_eq_some_iff.1 ht).1 (Nat.not_lt.2 habsent)
  | cons y u ih =>
    obtain ⟨rest', hm⟩ := h.1.advanced orderly
    have hu' : ∀ z ∈ u, z.thread ≠ t := fun z hz => hu z (List.mem_cons_of_mem y hz)
    rcases Nat.lt_or_ge t (m.move y).actors.length with hlt | hge
    · -- it is the one that `y` creates
      have hlength := hm.length_actors
      cases hy : y.instruction with
      | create script =>
        have htl : m.actors.length = t := by
          simp only [hy, Instruction.created, List.length_singleton] at hlength
          omega
        have hscript : (m.move y).actors[t]? = some (.start :: script) := by
          rw [hm.actors, List.getElem?_append_right (by simp [htl])]
          simp [hy, Instruction.created, htl]
        rw [moves_cons, h.2.getElem?_of_ne hm.orderly hlt hu', hscript] at ht
        obtain ⟨rfl, -⟩ := List.cons.inj (Option.some.inj ht)
        exact ⟨rfl, [], y, u, script, rfl, hy, htl⟩
      | _ =>
        simp only [hy, Instruction.created, List.length_nil] at hlength
        omega
    · obtain ⟨hi, u₁, z, u₂, script, rfl, hz, hlength⟩ := ih h.2 hm.orderly hge ht hu'
      exact ⟨hi, y :: u₁, z, u₂, script, rfl, hz, hlength⟩

/-- An actor that was not finished and now is made its last move, by starting or stopping. -/
theorem exists_finishing (h : m.Executes u) (orderly : m.Orderly) (closing : m.Closing)
    {actor : ThreadId} (hbefore : m.finished actor = false)
    (hafter : (m.moves u).finished actor = true) :
    ∃ u₁ y u₂, u = u₁ ++ y :: u₂ ∧ y.thread = actor ∧
      (y.instruction = .start ∨ y.instruction = .stop) := by
  induction u generalizing m with
  | nil => simp [hbefore] at hafter
  | cons y u ih =>
    obtain ⟨rest, hm⟩ := h.1.advanced orderly
    cases hmid : (m.move y).finished actor with
    | false =>
      obtain ⟨u₁, z, u₂, rfl, hz⟩ := ih h.2 hm.orderly (h.1.closing orderly closing) hmid hafter
      exact ⟨y :: u₁, z, u₂, rfl, hz⟩
    | true =>
      refine ⟨[], y, u, rfl, ?_⟩
      have hlt := (List.getElem?_eq_some_iff.1 hm.next).1
      simp only [finished, Option.any_eq_true, List.isEmpty_iff] at hmid
      obtain ⟨_, hget, rfl⟩ := hmid
      rcases Nat.lt_or_ge actor m.actors.length with ha | ha
      · have hthread : y.thread = actor := by
          by_contra hne
          rw [hm.getElem?_of_ne ha hne] at hget
          simp [finished, hget] at hbefore
        subst hthread
        rw [hm.actors, List.getElem?_append_left (by simpa using ha),
          List.getElem?_set_self hlt] at hget
        obtain rfl := Option.some.inj hget
        exact ⟨rfl, closing.last _ (List.mem_of_getElem? hm.next) y.instruction (by simp)⟩
      · -- an actor that is created is not finished
        rw [hm.actors, List.getElem?_append_right (by simpa using ha)] at hget
        have := List.mem_of_getElem? hget
        cases hy : y.instruction <;> simp [hy, Instruction.created] at this

/-! ## Messages -/

theorem mem_messages_step {k : Step} {message : Message}
    (h : message ∈ (m.step t k).messages) : message ∈ m.messages ∨ message.step = k := by
  simp only [step] at h
  split at h
  · next i rest _ =>
    cases i with
    | send inbox =>
      rcases List.mem_append.1 h with h | h
      · exact .inl h
      · rw [List.mem_singleton.1 h]
        exact .inr rfl
    | receive inbox =>
      simp only [effect] at h
      split at h
      · exact .inl (List.mem_of_mem_eraseP h)
      · exact .inl h
    | _ => exact .inl h
  · exact .inl h

/-- A message that was not there before a run was sent in it. -/
theorem mem_messages_moves {message : Message} (h : message ∈ (m.moves u).messages) :
    message ∈ m.messages ∨
      m.order.length < message.step ∧ message.step ≤ m.order.length + u.length := by
  induction u generalizing m with
  | nil => exact .inl h
  | cons y u ih =>
    rcases ih h with h | ⟨hlt, hle⟩
    · have hstep : message ∈ (m.step y.thread (m.order.length + 1)).messages := by
        unfold move at h
        split at h
        · exact h
        · exact h
      refine (mem_messages_step hstep).imp_right fun hk => ?_
      rw [hk, List.length_cons]
      exact ⟨Nat.lt_succ_self _, Nat.add_le_add_left (Nat.succ_le_succ (Nat.zero_le _)) _⟩
    · rw [order_move, List.length_append, List.length_singleton] at hlt hle
      rw [List.length_cons, Nat.add_comm u.length, ← Nat.add_assoc]
      exact .inr ⟨Nat.lt_of_succ_lt hlt, hle⟩

/-! ## Waking -/

/-- The actor of a move is about to run its instruction, which is enabled. -/
def Shows (m : Machine) (x : Move) : Prop :=
  ∃ rest, m.actors[x.thread]? = some (x.instruction :: rest) ∧
    (m.pending x.thread (x.instruction :: rest)).enabled

/-- An actor makes a move after a run in which it made none. It could have moved at once, or else
the run created it, finished the actor that it waits for, or sent the message that it receives. -/
theorem shows_or_woken (h : m.Executes u) (orderly : m.Orderly) (closing : m.Closing)
    (hx : (m.moves u).Can x) (hu : ∀ y ∈ u, y.thread ≠ x.thread) :
    m.Shows x ∨
    (∃ u₁ y u₂ script, u = u₁ ++ y :: u₂ ∧ x.instruction = .start ∧
      y.instruction = .create script ∧ (m.moves u₁).actors.length = x.thread) ∨
    (∃ u₁ y u₂ actor, u = u₁ ++ y :: u₂ ∧ x.instruction = .join actor ∧ y.thread = actor ∧
      (y.instruction = .start ∨ y.instruction = .stop)) ∨
    ∃ inbox message, x.instruction = .receive inbox ∧
      (m.moves u).front? inbox = some message ∧
      m.order.length < message.step ∧ message.step ≤ m.order.length + u.length := by
  obtain ⟨rest, hnext, henabled⟩ := hx.next
  rcases Nat.lt_or_ge x.thread m.actors.length with hlt | hge
  · rw [h.getElem?_of_ne orderly hlt hu] at hnext
    by_cases hbefore : (m.pending x.thread (x.instruction :: rest)).enabled
    · exact .inl ⟨rest, hnext, hbefore⟩
    · have hordinary := orderly.ordinary_next hnext
      cases hi : x.instruction with
      | join actor =>
        simp only [hi, pending, Bool.not_eq_true] at hbefore henabled
        obtain ⟨u₁, y, u₂, hsplit, hy⟩ := exists_finishing h orderly closing hbefore henabled
        exact .inr (.inr (.inl ⟨u₁, y, u₂, actor, hsplit, rfl, hy⟩))
      | receive inbox =>
        simp only [hi, pending, Bool.not_eq_true, Option.isSome_eq_false_iff,
          Option.isNone_iff_eq_none] at hbefore henabled
        obtain ⟨message, hfront⟩ := Option.isSome_iff_exists.1 henabled
        refine .inr (.inr (.inr ⟨inbox, message, rfl, hfront, ?_⟩))
        rcases mem_messages_moves (List.mem_of_find?_eq_some hfront) with hmem | hsent
        · have := List.find?_eq_none.1 hbefore message hmem
          exact absurd (List.find?_some hfront) this
        · exact hsent
      | _ => simp [hi, pending, Instruction.ordinary] at hbefore hordinary
  · obtain ⟨hi, u₁, y, u₂, script, hsplit, hy, hlength⟩ := exists_created h orderly hge hnext hu
    exact .inr (.inl ⟨u₁, y, u₂, script, hsplit, hi, hy, hlength⟩)

end Machine

end Actors

end Interleaving
