import Interleaving.Proofs.ActorSteps

/-!
# What a step of a run needs

A step of a run of actors could not have been made without the earlier steps of its actor, without
the step that created its actor, and, if it receives, without the step that sent the message. Where
actors do not wait for each other to finish this is all, and it is what the clocks tell in random
mode, where sends are not ordered.

## Main definitions

* `Joinless` — scripts that do not wait for other actors to finish.
* `Machine.Precedes`, `Machine.HappensBefore` — the order of the steps of a run.

## Main statements

* `comesThrough_happensBefore` — through which steps a step is reached.
-/

namespace Interleaving

namespace Actors

open Machine

/-- The ordinary instructions other than joins: only a missing message can hold them up. -/
def Instruction.joinless : Instruction → Bool
  | .send _ | .receive _ | .create _ | .yield | .toss | .start | .stop => true
  | _ => false

/-- All instructions of the scripts are joinless, those of created actors included. -/
abbrev Joinless (scripts : List Script) : Prop := Throughout Instruction.joinless scripts

theorem Joinless.ordinary {scripts : List Script} (h : Joinless scripts) : Ordinary scripts := by
  refine h.mono fun i hi => ?_
  cases i <;> simp [Instruction.joinless, Instruction.ordinary] at hi ⊢

namespace Machine

/-- The later step of a run needs the earlier one: it is made by the same actor, or by the one that
was created there, or it receives the message that was sent there. -/
inductive Precedes (m : Machine) (xs : List Move) : Step → Step → Prop
  | own {i j : Nat} {x y : Move} : i < j → xs[i]? = some x → xs[j]? = some y →
      x.thread = y.thread → Precedes m xs (i + 1) (j + 1)
  | created {i j : Nat} {x y : Move} {script : Script} : i < j → xs[i]? = some x →
      xs[j]? = some y → x.instruction = .create script →
      y.thread = (m.moves (xs.take i)).actors.length → Precedes m xs (i + 1) (j + 1)
  | received {j inbox : Nat} {y : Move} {message : Message} : xs[j]? = some y →
      y.instruction = .receive inbox → (m.moves (xs.take j)).front? inbox = some message →
      Precedes m xs message.step (j + 1)

/-- The two steps of a run are the same, or the later one needs the earlier one, perhaps through
others in between. -/
def HappensBefore (m : Machine) (xs : List Move) : Step → Step → Prop :=
  Relation.ReflTransGen (m.Precedes xs)

end Machine

section Run

variable {scripts : List Script} {xs : List Move}

/-- A step needs only steps before it. -/
theorem Machine.Precedes.lt {a b : Nat} (h : (load scripts).Precedes xs a b) : 0 < a ∧ a < b := by
  cases h with
  | own hij | created hij => exact ⟨Nat.succ_pos _, Nat.succ_lt_succ hij⟩
  | @received j inbox y message hy _ hfront =>
    rcases mem_messages_moves (List.mem_of_find?_eq_some hfront) with hmem | ⟨hlt, hle⟩
    · simp [load] at hmem
    · have hj := Nat.le_of_lt (List.getElem?_eq_some_iff.1 hy).1
      rw [List.length_take, Nat.min_eq_left hj] at hle
      simp only [load, List.length_nil, Nat.zero_add] at hlt hle
      exact ⟨hlt, Nat.lt_succ_of_le hle⟩

theorem Machine.HappensBefore.le {a b : Nat} (h : (load scripts).HappensBefore xs a b) : a ≤ b := by
  induction h with
  | refl => exact le_rfl
  | tail _ hp ih => exact ih.trans (Nat.le_of_lt hp.lt.2)

/-! ## The number of actors -/

theorem Machine.Executes.length_actors_le {m : Machine} (h : m.Executes xs) (orderly : m.Orderly) :
    m.actors.length ≤ (m.moves xs).actors.length := by
  induction xs generalizing m with
  | nil => exact le_rfl
  | cons x xs ih =>
    obtain ⟨rest, hm⟩ := h.1.advanced orderly
    have := ih h.2 hm.orderly
    have := hm.length_actors
    simp only [moves_cons]
    omega

/-- The number of actors does not fall in the course of a run, and rises where one is created. -/
theorem length_actors_take (ordinary : Ordinary scripts) (h : (load scripts).Executes xs)
    {i j : Nat} (hij : i < j) {x : Move} (hx : xs[i]? = some x) :
    ((load scripts).moves (xs.take i)).actors.length + x.instruction.created.length ≤
      ((load scripts).moves (xs.take j)).actors.length := by
  obtain ⟨htake, hcan⟩ := h.can_at hx
  have orderly := htake.orderly (orderly_load ordinary)
  obtain ⟨rest, hm⟩ := hcan.advanced orderly
  obtain ⟨hi, rfl⟩ := List.getElem?_eq_some_iff.1 hx
  -- the moves from step `i + 2` up to step `j`
  obtain ⟨u, hu⟩ : ∃ u, xs.take j = xs.take i ++ xs[i] :: u := by
    refine ⟨(xs.take j).drop (i + 1), ?_⟩
    have := List.take_append_drop (i + 1) (xs.take j)
    rw [List.take_take, Nat.min_eq_left hij, List.take_succ_eq_append_getElem hi] at this
    exact this.symm.trans (List.append_assoc _ _ _)
  have hexecutes := h.take j
  rw [hu, executes_append] at hexecutes
  have hle := hexecutes.2.2.length_actors_le hm.orderly
  rw [hu, moves_append, moves_cons, ← hm.length_actors]
  exact hle

theorem length_actors_le_take (ordinary : Ordinary scripts) (h : (load scripts).Executes xs)
    {i j : Nat} (hij : i ≤ j) {x : Move} (hx : xs[i]? = some x) :
    ((load scripts).moves (xs.take i)).actors.length ≤
      ((load scripts).moves (xs.take j)).actors.length := by
  rcases Nat.lt_or_eq_of_le hij with hlt | rfl
  · exact (Nat.le_add_right _ _).trans (length_actors_take ordinary h hlt hx)
  · exact le_rfl

theorem thread_lt_length_actors (h : (load scripts).Executes xs) {i : Nat} {x : Move}
    (hx : xs[i]? = some x) : x.thread < ((load scripts).moves (xs.take i)).actors.length := by
  obtain ⟨-, hcan⟩ := h.can_at hx
  obtain ⟨rest, hnext, -⟩ := hcan.next
  exact (List.getElem?_eq_some_iff.1 hnext).1

/-- The first step of an actor that was created is to start. -/
theorem start_of_first (ordinary : Ordinary scripts) (h : (load scripts).Executes xs) {j : Nat}
    {y : Move} (hy : xs[j]? = some y) (hcreated : scripts.length ≤ y.thread)
    (hfirst : ∀ i < j, ∀ x, xs[i]? = some x → x.thread ≠ y.thread) : y.instruction = .start := by
  obtain ⟨htake, hcan⟩ := h.can_at hy
  obtain ⟨rest, hnext, -⟩ := hcan.next
  refine (exists_created htake (orderly_load ordinary) hcreated hnext fun x hx => ?_).1
  obtain ⟨i, hi⟩ := List.mem_iff_getElem?.1 hx
  have hlt := (List.getElem?_eq_some_iff.1 hi).1
  rw [List.length_take] at hlt
  rw [List.getElem?_take_of_lt (by omega)] at hi
  exact hfirst i (by omega) x hi

/-! ## The order that the clocks tell -/

variable {levels : Nat}

/-- The steps in the life of an actor are its creation and those where it starts or stops. -/
theorem livedOn_steps (joinless : Joinless scripts) (h : (load scripts).Executes xs) {t k : Nat}
    (hk : ((load scripts).steps levels xs).LivedOn t k) : ∃ n x, k = n + 1 ∧ xs[n]? = some x ∧
      (x.thread = t ∨ (∃ script, x.instruction = .create script) ∧
        t = ((load scripts).moves (xs.take n)).actors.length) := by
  obtain ⟨p, hp, hop, htarget⟩ := hk
  obtain ⟨n, x, rfl, hx, rfl⟩ := exists_of_stepAt_steps hp
  have hpasses := h.passes_at (orderly_load joinless.ordinary) rfl joinless hx
  refine ⟨n, x, rfl, hx, ?_⟩
  cases hi : x.instruction with
  | create script =>
    simp only [Machine.shown, hi, pending, true_and] at htarget
    split at htarget
    · exact .inr ⟨⟨script, rfl⟩, (Option.some.inj htarget).symm⟩
    · simp at htarget
  | start | stop =>
    simp only [Machine.shown, hi, pending, reduceCtorEq, false_and, if_false] at htarget
    exact .inl (Option.some.inj htarget)
  | _ =>
    simp [Machine.shown, hi, pending, Operation.isLifecycle, Instruction.joinless] at hop hpasses

theorem order_happensBefore :
    ((load scripts).steps levels xs).Order ((load scripts).HappensBefore xs) where
  refl := fun _ => .refl
  le := HappensBefore.le
  own := by
    intro t i j hij hi hj
    obtain ⟨p, hp, rfl⟩ := hi
    obtain ⟨q, hq, hthread⟩ := hj
    obtain ⟨n, x, rfl, hx, rfl⟩ := exists_of_stepAt_steps hp
    obtain ⟨k, y, rfl, hy, rfl⟩ := exists_of_stepAt_steps hq
    rw [thread_shown, thread_shown] at hthread
    exact .single (.own (by omega) hx hy hthread.symm)

/-- The first step of an actor that was created starts it, and its source is its creation. -/
theorem source_of_created (joinless : Joinless scripts) (h : (load scripts).Executes xs)
    (hlevels : xs.length ≤ levels) {i n : Nat} {x y : Move} {script : Script}
    {source : Option Nat} (hin : i < n) (hx : xs[i]? = some x) (hy : xs[n]? = some y)
    (hcreate : x.instruction = .create script)
    (hthread : y.thread = ((load scripts).moves (xs.take i)).actors.length)
    (hfirst : ∀ k < n, ∀ z, xs[k]? = some z → z.thread ≠ y.thread)
    (hsource : ((load scripts).steps levels xs).Source (n + 1)
      (((load scripts).moves (xs.take n)).shown levels (n + 1) y) source) :
    y.instruction = .start ∧ source = some (i + 1) := by
  have hstart : y.instruction = .start := by
    refine start_of_first joinless.ordinary h hy ?_ hfirst
    rw [hthread]
    exact (h.take i).length_actors_le (orderly_load joinless.ordinary)
  refine ⟨hstart, ?_⟩
  have hn := (List.getElem?_eq_some_iff.1 hy).1
  have hlived : ((load scripts).steps levels xs).LivedOn y.thread (i + 1) := by
    refine ⟨_, by rw [stepAt_steps, hx, Option.map_some], ?_, ?_⟩
    · simp [Machine.shown, hcreate, pending, Operation.isLifecycle]
    · simp only [Machine.shown, hcreate, pending, hthread, true_and]
      rw [if_pos (by omega)]
  simp only [Trace.Source, Machine.shown, hstart, pending, reduceCtorEq, false_and, if_false,
    Operation.isLifecycle, if_true] at hsource
  cases source with
  | none => exact absurd hlived (hsource (i + 1) (by omega))
  | some s =>
    obtain ⟨hlt, hs, hmax⟩ := hsource
    have hle := hmax (i + 1) (by omega) hlived
    obtain ⟨k, z, rfl, hz, heq | ⟨⟨script', hscript'⟩, heq⟩⟩ := livedOn_steps joinless h hs
    · exact absurd heq (hfirst k (by omega) z hz)
    · -- no other step creates the same actor
      rcases Nat.lt_or_eq_of_le (show i ≤ k by omega) with hik | rfl
      · have := length_actors_take joinless.ordinary h hik hx
        simp only [hcreate, Instruction.created, List.length_singleton] at this
        exact absurd (hthread.symm.trans heq) (Nat.ne_of_lt this)
      · rfl

/-- A step needs the step that its clock is joined with. -/
theorem precedes_of_source (joinless : Joinless scripts) (h : (load scripts).Executes xs)
    {n s : Nat} {y : Move} (hy : xs[n]? = some y)
    (hsend : (((load scripts).moves (xs.take n)).shown levels (n + 1) y).op ≠ .send)
    (hsource : ((load scripts).steps levels xs).Source (n + 1)
      (((load scripts).moves (xs.take n)).shown levels (n + 1) y) (some s)) :
    (load scripts).Precedes xs s (n + 1) := by
  have hpasses := h.passes_at (orderly_load joinless.ordinary) rfl joinless hy
  -- a step in the life of an actor before this one
  have hlife {t : ThreadId} (hs : LastOf (((load scripts).steps levels xs).LivedOn t) (n + 1)
      (some s)) : ∃ k x, s = k + 1 ∧ k < n ∧ xs[k]? = some x ∧ (x.thread = t ∨
        (∃ script, x.instruction = .create script) ∧
          t = ((load scripts).moves (xs.take k)).actors.length) := by
    obtain ⟨k, x, rfl, hx, hor⟩ := livedOn_steps joinless h hs.2.1
    exact ⟨k, x, rfl, Nat.lt_of_succ_lt_succ hs.1, hx, hor⟩
  cases hi : y.instruction with
  | create script =>
    simp only [Trace.Source, Machine.shown, hi, pending, true_and, Operation.isLifecycle,
      reduceCtorEq, if_false, if_true] at hsource
    split at hsource
    · simp at hsource
    · next t ht =>
      split at ht
      · -- an actor has no life before it is created
        obtain rfl := Option.some.inj ht
        obtain ⟨k, x, rfl, hkn, hx, heq | ⟨⟨script', hscript'⟩, heq⟩⟩ := hlife hsource
        · have hlt := thread_lt_length_actors h hx
          have hle := length_actors_le_take joinless.ordinary h (Nat.le_of_lt hkn) hx
          exact absurd heq (Nat.ne_of_lt (Nat.lt_of_lt_of_le hlt hle))
        · have hlt := length_actors_take joinless.ordinary h hkn hx
          simp only [hscript', Instruction.created, List.length_singleton] at hlt
          exact absurd heq.symm (Nat.ne_of_lt hlt)
      · simp at ht
  | start | stop =>
    simp only [Trace.Source, Machine.shown, hi, pending, reduceCtorEq, false_and, if_false,
      Operation.isLifecycle, if_true] at hsource
    obtain ⟨k, x, rfl, hkn, hx, heq | ⟨⟨script, hscript⟩, heq⟩⟩ := hlife hsource
    · exact .own hkn hx hy heq
    · exact .created hkn hx hy hscript heq
  | receive inbox =>
    simp only [Trace.Source, Machine.shown, hi, pending, reduceCtorEq, false_and, if_false,
      Operation.isLifecycle, Bool.false_eq_true, if_true] at hsource
    obtain ⟨message, hfront, rfl⟩ := Option.map_eq_some_iff.1 hsource.1.symm
    exact .received hy hi hfront
  | yield | toss => simp [Trace.Source, Machine.shown, hi, pending] at hsource
  | send inbox => simp [Machine.shown, hi, pending] at hsend
  | _ => simp [hi, Instruction.joinless] at hpasses

/-- What happens before a step is the step itself, or happens before the last step of its actor
before it, or, unless it is a send, happens before its source. -/
theorem comesThrough_happensBefore (joinless : Joinless scripts) (h : (load scripts).Executes xs)
    (hlevels : xs.length ≤ levels) {n : Nat} {y : Move} {previous source : Option Nat}
    (hy : xs[n]? = some y)
    (hlast : LastOf (((load scripts).steps levels xs).Ran y.thread) (n + 1) previous)
    (hsource : ((load scripts).steps levels xs).Source (n + 1)
      (((load scripts).moves (xs.take n)).shown levels (n + 1) y) source) :
    ComesThrough ((load scripts).HappensBefore xs) (n + 1) previous
      (if (((load scripts).moves (xs.take n)).shown levels (n + 1) y).op = .send then none
        else source) := by
  have order : ((load scripts).steps levels xs).Order _ := order_happensBefore
  have hran : ((load scripts).steps levels xs).Ran y.thread (n + 1) := ran_steps.2 ⟨y, hy, rfl⟩
  intro i
  constructor
  · intro hbefore
    rcases Relation.ReflTransGen.cases_tail hbefore with rfl | ⟨k, hk, hp⟩
    · exact .inl rfl
    · right
      cases hp with
      | @own i' j x y' hij hx hy' heq =>
        obtain rfl : y = y' := by simpa [hy] using hy'
        have hx' : ((load scripts).steps levels xs).Ran y.thread (i' + 1) :=
          ran_steps.2 ⟨x, hx, heq⟩
        cases previous with
        | none => exact absurd hx' (hlast (i' + 1) (by omega))
        | some p =>
          refine .inl ⟨p, rfl, hk.trans ?_⟩
          rcases Nat.lt_or_eq_of_le (hlast.2.2 (i' + 1) (by omega) hx') with hlt | rfl
          · exact order.own hlt hx' hlast.2.1
          · exact .refl
      | @created i' j x y' script hij hx hy' hcreate heq =>
        obtain rfl : y = y' := by simpa [hy] using hy'
        cases previous with
        | none =>
          have hfirst : ∀ k < n, ∀ z, xs[k]? = some z → z.thread ≠ y.thread :=
            fun k hk z hz heq => hlast (k + 1) (by omega) (ran_steps.2 ⟨z, hz, heq⟩)
          obtain ⟨hstart, hs⟩ :=
            source_of_created joinless h hlevels hij hx hy hcreate heq hfirst hsource
          refine .inr ⟨i' + 1, ?_, hk⟩
          rw [if_neg (by simp [Machine.shown, hstart, pending]), hs]
        | some p =>
          obtain ⟨q, hq, hthread⟩ := hlast.2.1
          obtain ⟨m, z, rfl, hz, rfl⟩ := exists_of_stepAt_steps hq
          rw [thread_shown] at hthread
          -- the actor was not there before it was created
          have him : i' < m := by
            by_contra hle
            have hlt := thread_lt_length_actors h hz
            have hle := length_actors_le_take joinless.ordinary h (Nat.not_lt.1 hle) hz
            exact absurd (hthread.trans heq) (Nat.ne_of_lt (Nat.lt_of_lt_of_le hlt hle))
          exact .inl ⟨m + 1, rfl, hk.tail (.created him hx hz hcreate (hthread.trans heq))⟩
      | @received j inbox y' message hy' hi hfront =>
        obtain rfl : y = y' := by simpa [hy] using hy'
        refine .inr ⟨message.step, ?_, hk⟩
        simp only [Trace.Source, Machine.shown, hi, pending, reduceCtorEq, false_and, if_false,
          Operation.isLifecycle, Bool.false_eq_true, if_true, hfront, Option.map_some] at hsource ⊢
        exact hsource.1
  · rintro (rfl | ⟨p, rfl, hp⟩ | ⟨s, hs, hbefore⟩)
    · exact .refl
    · exact hp.trans (order.own hlast.1 hlast.2.1 hran)
    · split at hs
      · simp at hs
      · next hsend =>
        subst hs
        exact hbefore.tail (precedes_of_source joinless h hy hsend hsource)

end Run

end Actors

end Interleaving
