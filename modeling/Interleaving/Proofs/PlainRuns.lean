import Interleaving.Proofs.ActorRuns

/-!
# Runs of plain scripts

Plain scripts create no actors. Each of their moves only takes an instruction from the script of
its actor, so that the actors stay the same ones throughout a run.

## Main definitions

* `Instruction.plain`, `Plain` — the instructions that leave the actors alone.
* `Machine.Tidy` — the machine that runs plain scripts.

## Main statements

* `Machine.Can.moved` — what a move of a plain script leaves.
-/

namespace Interleaving

namespace Actors

/-- The instructions that create no actor, do not wait for others to be idle, and draw truth
values only. -/
def Instruction.plain : Instruction → Bool
  | .send _ | .receive _ | .join _ | .yield | .toss | .start | .stop => true
  | _ => false

/-- All instructions of the scripts are plain. -/
def Plain (scripts : List Script) : Prop := ∀ script ∈ scripts, ∀ i ∈ script, i.plain

theorem Instruction.plain.ordinary {i : Instruction} (h : i.plain) :
    i.every Instruction.ordinary := by
  cases i <;> simp [plain, Instruction.every, Instruction.ordinary] at h ⊢

theorem Instruction.plain.created_eq {i : Instruction} (h : i.plain) : i.created = [] := by
  cases i <;> simp [plain, created] at h ⊢

theorem Plain.ordinary {scripts : List Script} (h : Plain scripts) : Ordinary scripts :=
  fun script hs i hi => Instruction.plain.ordinary (h script hs i hi)

namespace Machine

/-- The machine that runs plain scripts and forces nothing. -/
structure Tidy (m : Machine) : Prop where
  plain : Plain m.actors
  free : m.forces = []

theorem Tidy.orderly {m : Machine} (h : m.Tidy) : m.Orderly := ⟨h.plain.ordinary, h.free⟩

theorem Tidy.plain_next {m : Machine} (h : m.Tidy) {t : ThreadId} {i : Instruction} {rest : Script}
    (ht : m.actors[t]? = some (i :: rest)) : i.plain :=
  h.plain _ (List.mem_of_getElem? ht) i List.mem_cons_self

/-- What is left of the scripts is plain. -/
theorem Tidy.plain_set {m : Machine} (h : m.Tidy) {t : ThreadId} {i : Instruction} {rest : Script}
    (ht : m.actors[t]? = some (i :: rest)) : Plain (m.actors.set t rest) := by
  intro script hs j hj
  rcases List.mem_or_eq_of_mem_set hs with hs | rfl
  · exact h.plain script hs j hj
  · exact h.plain _ (List.mem_of_getElem? ht) j (List.mem_cons_of_mem i hj)

/-- What a move of a plain script leaves. -/
structure Moved (m : Machine) (x : Move) (rest : Script) (m' : Machine) : Prop where
  next : m.actors[x.thread]? = some (x.instruction :: rest)
  actors : m'.actors = m.actors.set x.thread rest
  waiting : ∀ j, m'.waiting j = waitingAfter (m.waiting j) j x.instruction
  demand : m'.demand = none
  tidy : m'.Tidy

theorem Can.moved {m : Machine} {x : Move} (h : m.Can x) (tidy : m.Tidy) :
    ∃ rest, m.Moved x rest (m.move x) := by
  obtain ⟨rest, hm⟩ := h.advanced tidy.orderly
  have hactors : (m.move x).actors = m.actors.set x.thread rest := by
    rw [hm.actors, Instruction.plain.created_eq (tidy.plain_next hm.next), List.append_nil]
  exact ⟨rest, hm.next, hactors, hm.waiting, hm.demand, hactors ▸ tidy.plain_set hm.next,
    hm.orderly.free⟩

theorem Executes.tidy {m : Machine} {xs : List Move} (h : m.Executes xs) (tidy : m.Tidy) :
    (m.moves xs).Tidy := by
  induction xs generalizing m with
  | nil => exact tidy
  | cons x xs ih =>
    obtain ⟨rest, hm⟩ := h.1.moved tidy
    exact ih h.2 hm.tidy

end Machine

theorem tidy_load {scripts : List Script} (plain : Plain scripts) : (load scripts).Tidy :=
  ⟨plain, rfl⟩

end Actors

end Interleaving
