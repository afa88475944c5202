import Interleaving.Notice

/-!
# Actions

An action changes a state of type `σ`, may give notices on the way, and ends with a value or a
fault. What it changed before a fault stays changed. No action can see the notices given so far.

## Main definitions

* `Outcome`, `Action` — what an action comes to, and the actions, which form a monad.
* `Action.within` — an action on a part of the state.
* `Action.each` — an action for every item of a list, up to the first fault.
-/

namespace Interleaving

structure Outcome (σ α : Type) where
  result : Except Fault α
  state : σ
  notices : List Notice := []

def Action (σ α : Type) : Type := σ → Outcome σ α

namespace Action

variable {σ τ α β ι : Type}

protected def pure (a : α) : Action σ α := fun s => ⟨.ok a, s, []⟩

protected def bind (x : Action σ α) (f : α → Action σ β) : Action σ β := fun s =>
  match x s with
  | ⟨.ok a, s, before⟩ =>
    let o := f a s
    ⟨o.result, o.state, before ++ o.notices⟩
  | ⟨.error fault, s, before⟩ => ⟨.error fault, s, before⟩

instance : Monad (Action σ) where
  pure := Action.pure
  bind := Action.bind

/-- The state. -/
def get : Action σ σ := fun s => ⟨.ok s, s, []⟩

def set (s : σ) : Action σ Unit := fun _ => ⟨.ok (), s, []⟩

def modify (f : σ → σ) : Action σ Unit := fun s => ⟨.ok (), f s, []⟩

def fail (fault : Fault) : Action σ α := fun s => ⟨.error fault, s, []⟩

def notify (notices : List Notice) : Action σ Unit := fun s => ⟨.ok (), s, notices⟩

/-- A value or a fault, nothing changed. -/
def lift (x : Except Fault α) : Action σ α := fun s => ⟨x, s, []⟩

/-- An action on the part of the state that `get` reads and `put` replaces. -/
def within (get : σ → τ) (put : τ → σ → σ) (x : Action τ α) : Action σ α := fun s =>
  let o := x (get s)
  ⟨o.result, put o.state s, o.notices⟩

def each (f : ι → Action σ Unit) : List ι → Action σ Unit
  | [] => pure ()
  | i :: rest => do
    f i
    each f rest

@[simp] theorem pure_apply (a : α) (s : σ) : (pure a : Action σ α) s = ⟨.ok a, s, []⟩ := rfl

@[simp] theorem get_apply (s : σ) : (get : Action σ σ) s = ⟨.ok s, s, []⟩ := rfl

@[simp] theorem set_apply (s t : σ) : set t s = ⟨.ok (), t, []⟩ := rfl

@[simp] theorem modify_apply (f : σ → σ) (s : σ) : modify f s = ⟨.ok (), f s, []⟩ := rfl

@[simp] theorem fail_apply (fault : Fault) (s : σ) :
    (fail fault : Action σ α) s = ⟨.error fault, s, []⟩ := rfl

@[simp] theorem notify_apply (notices : List Notice) (s : σ) :
    notify notices s = ⟨.ok (), s, notices⟩ := rfl

@[simp] theorem lift_apply (x : Except Fault α) (s : σ) : (lift x : Action σ α) s = ⟨x, s, []⟩ :=
  rfl

@[simp] theorem within_apply (get : σ → τ) (put : τ → σ → σ) (x : Action τ α) (s : σ) :
    within get put x s =
      ⟨(x (get s)).result, put (x (get s)).state s, (x (get s)).notices⟩ := rfl

theorem bind_apply (x : Action σ α) (f : α → Action σ β) (s : σ) :
    (x >>= f) s =
      match x s with
      | ⟨.ok a, s, before⟩ => ⟨(f a s).result, (f a s).state, before ++ (f a s).notices⟩
      | ⟨.error fault, s, before⟩ => ⟨.error fault, s, before⟩ := rfl

theorem bind_apply_of_ok {x : Action σ α} {f : α → Action σ β} {s s' : σ} {a : α}
    {before : List Notice} (h : x s = ⟨.ok a, s', before⟩) :
    (x >>= f) s = ⟨(f a s').result, (f a s').state, before ++ (f a s').notices⟩ := by
  rw [bind_apply, h]

theorem bind_apply_of_error {x : Action σ α} {f : α → Action σ β} {s s' : σ} {fault : Fault}
    {before : List Notice} (h : x s = ⟨.error fault, s', before⟩) :
    (x >>= f) s = ⟨.error fault, s', before⟩ := by
  rw [bind_apply, h]

@[simp] theorem map_apply (f : α → β) (x : Action σ α) (s : σ) :
    (f <$> x) s = ⟨(x s).result.map f, (x s).state, (x s).notices⟩ := by
  change (x >>= fun a => pure (f a)) s = _
  rw [bind_apply]
  cases h : x s with
  | mk result state notices => cases result <;> simp [Except.map]

/-- An action that starts with another ends well only if the other does, and goes on from there. -/
theorem bind_eq_ok {x : Action σ α} {f : α → Action σ β} {s t : σ} {b : β} {all : List Notice}
    (h : (x >>= f) s = ⟨.ok b, t, all⟩) :
    ∃ a u before after, x s = ⟨.ok a, u, before⟩ ∧ f a u = ⟨.ok b, t, after⟩ ∧
      all = before ++ after := by
  rw [bind_apply] at h
  split at h
  · next a u before hx =>
    obtain ⟨hr, hs, hn⟩ := Outcome.mk.inj h
    refine ⟨a, u, before, (f a u).notices, hx, ?_, hn.symm⟩
    rw [← hr, ← hs]
  · simp at h

instance : LawfulMonad (Action σ) := by
  refine LawfulMonad.mk' _ (fun x => ?_) (fun a f => ?_) (fun x f g => ?_)
  · funext s
    change (x >>= fun a => pure (id a)) s = x s
    rw [bind_apply]
    cases h : x s with
    | mk result state notices => cases result <;> simp
  · funext s
    simp [bind_apply]
  · funext s
    simp only [bind_apply]
    cases x s with
    | mk result state notices =>
      cases result with
      | error fault => rfl
      | ok a =>
        dsimp only
        cases f a state with
        | mk result state notices => cases result <;> simp

end Action

end Interleaving
