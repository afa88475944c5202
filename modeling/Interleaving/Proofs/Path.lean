import Mathlib.Tactic
import Mathlib.Data.List.Induction
import Interleaving.Client

/-!
# Paths of a client

A client that is explored depth-first may be told to run any thread that may run, and is given
either truth value whenever it draws one. What it can be told, answer after answer, are the paths
of a tree; an exploration goes through this tree.

## Main definitions

* `Setting` — a client, its start, and how it is explored.
* `Setting.offers` — the answers that there are after a path.
* `Setting.Follows`, `Setting.Complete` — the paths, and those that go on no further.
* `Setting.Tame` — the client asks for threads and truth values only, and not for ever.
-/

namespace Interleaving

/-- The operation of thread `i` stands at position `i`. -/
def Snapshot.Dense (choices : Snapshot) : Prop :=
  ∀ (i : Nat) (p : Pending), choices[i]? = some p → p.thread = i

/-- Whether an answer decides which thread runs. -/
def Answer.isRun : Answer → Bool
  | .run _ _ => true
  | _ => false

/-- The number of decisions on a path. -/
def decisions (path : List Answer) : Nat := path.countP Answer.isRun

@[simp] theorem decisions_nil : decisions [] = 0 := rfl

@[simp] theorem decisions_append (p q : List Answer) :
    decisions (p ++ q) = decisions p + decisions q := List.countP_append

@[simp] theorem decisions_run (t : ThreadId) (k : Step) (p : List Answer) :
    decisions (.run t k :: p) = decisions p + 1 := by
  exact List.countP_cons_of_pos rfl

@[simp] theorem decisions_bool (b : Bool) (p : List Answer) :
    decisions (.bool b :: p) = decisions p := by
  exact List.countP_cons_of_neg (by simp [Answer.isRun])

@[simp] theorem decisions_map_bool (bs : List Bool) : decisions (bs.map Answer.bool) = 0 := by
  simp [decisions, List.countP_eq_zero, Answer.isRun]

/-- A client from its start, explored depth-first. -/
structure Setting (σ : Type) where
  client : Client σ
  start : σ
  /-- Which operations an iteration may run: the enabled ones, and of the others at most yields. -/
  may : Pending → Bool
  may_of_enabled : ∀ p : Pending, p.enabled → may p
  runnable_of_may : ∀ p : Pending, may p → p.runnable
  sleepSets : Bool
  /-- Whether schedules are analysed. If not, every enabled thread is explored. -/
  reduction : Bool
  /-- The number of decisions after which an iteration is cut short. -/
  stepLimit : Option Nat := none

namespace Setting

/-- A client of which exactly the enabled operations may run. -/
def ofEnabled {σ : Type} (client : Client σ) (start : σ) (sleepSets reduction : Bool) :
    Setting σ where
  client := client
  start := start
  may := Pending.enabled
  may_of_enabled := fun _ h => h
  runnable_of_may := fun p h => by simp [Pending.runnable, h]
  sleepSets := sleepSets
  reduction := reduction

variable {σ : Type} (S : Setting σ)

/-- The state that a path leads to. -/
def after (path : List Answer) : σ := path.foldl (fun s a => S.client.resume a s) S.start

/-- What the client asks for after a path. -/
def request (path : List Answer) : Request := S.client.request (S.after path)

/-- The answers that the client can get after a path. -/
def offers (path : List Answer) : List Answer :=
  match S.request path with
  | .next choices _ =>
    (choices.unstick.filter S.may).map fun p => .run p.thread (decisions path + 1)
  | .drawBool => [.bool false, .bool true]
  | _ => []

/-- The paths: every answer is one of those there are. -/
inductive Follows : List Answer → Prop
  | nil : Follows []
  | snoc {path : List Answer} {a : Answer} :
      Follows path → a ∈ S.offers path → Follows (path ++ [a])

/-- A path on which the client is done or cannot go on. -/
def Complete (path : List Answer) : Prop := S.Follows path ∧ S.offers path = []

/-- Along its paths the client asks for threads and truth values only, shows every thread at its
own position, draws no value before a thread runs, and makes at most `n` requests that are
answered. -/
structure Tame (n : Nat) : Prop where
  dense : ∀ {path : List Answer} {choices : Snapshot} {current : ThreadId},
    S.Follows path → S.request path = .next choices current → choices.Dense
  drawn : ∀ {path : List Answer}, S.Follows path → S.request path = .drawBool → path ≠ []
  plain : ∀ {path : List Answer}, S.Follows path →
    S.request path = .finish ∨ S.request path = .drawBool ∨
      ∃ choices current, S.request path = .next choices current
  bounded : ∀ {path : List Answer}, S.Follows path → path.length ≤ n

@[simp] theorem after_nil : S.after [] = S.start := rfl

@[simp] theorem after_snoc (p : List Answer) (a : Answer) :
    S.after (p ++ [a]) = S.client.resume a (S.after p) := by
  simp [after]

variable {S}

theorem follows_snoc {p : List Answer} {a : Answer} :
    S.Follows (p ++ [a]) ↔ S.Follows p ∧ a ∈ S.offers p := by
  refine ⟨fun h => ?_, fun h => .snoc h.1 h.2⟩
  generalize hq : p ++ [a] = q at h
  cases h with
  | nil => simp at hq
  | snoc h ha =>
    obtain ⟨rfl, hab⟩ := List.append_inj' hq rfl
    obtain rfl : a = _ := by simpa using hab
    exact ⟨h, ha⟩

/-- The beginning of a path is a path. -/
theorem Follows.of_append {p q : List Answer} (h : S.Follows (p ++ q)) : S.Follows p := by
  induction q using List.reverseRecOn with
  | nil => simpa using h
  | append_singleton q a ih =>
    rw [← List.append_assoc] at h
    exact ih (follows_snoc.1 h).1

/-- Where a path goes on, it takes one of the answers there are. -/
theorem Follows.mem_offers {p q : List Answer} {a : Answer} (h : S.Follows (p ++ a :: q)) :
    a ∈ S.offers p := by
  have h' : S.Follows ((p ++ [a]) ++ q) := by simpa using h
  exact (follows_snoc.1 h'.of_append).2

theorem run_mem_offers {p : List Answer} {t : ThreadId} {k : Step} :
    .run t k ∈ S.offers p ↔ ∃ choices current, S.request p = .next choices current ∧
      k = decisions p + 1 ∧ ∃ q ∈ choices.unstick, S.may q ∧ q.thread = t := by
  cases hr : S.request p <;> simp [offers, hr]
  grind

theorem bool_mem_offers {p : List Answer} {b : Bool} :
    .bool b ∈ S.offers p ↔ S.request p = .drawBool := by
  cases hr : S.request p <;> simp [offers, hr]

/-- The path that follows a complete one is the complete one itself. -/
theorem Complete.eq_of_append {p q : List Answer} (hp : S.Complete p)
    (h : S.Follows (p ++ q)) : q = [] := by
  cases q with
  | nil => rfl
  | cons a q => simpa [hp.2] using h.mem_offers

/-- A path that another one begins with goes on with one of the answers there are, or not at
all. -/
theorem Follows.eq_or_snoc_isPrefix {p q : List Answer} (h : S.Follows q) (hp : p <+: q) :
    q = p ∨ ∃ a ∈ S.offers p, p ++ [a] <+: q := by
  obtain ⟨rest, rfl⟩ := hp
  cases rest with
  | nil => exact .inl (List.append_nil p)
  | cons a rest => exact .inr ⟨a, h.mem_offers, rest, by simp⟩

variable (S)

/-- The paths of at most `n` answers. -/
def pathsUpTo : Nat → List (List Answer)
  | 0 => [[]]
  | n + 1 => [] :: (pathsUpTo n).flatMap fun p => (S.offers p).map fun a => p ++ [a]

variable {S}

theorem Follows.mem_pathsUpTo {p : List Answer} (h : S.Follows p) :
    ∀ {n : Nat}, p.length ≤ n → p ∈ S.pathsUpTo n := by
  induction h with
  | nil => intro n _; cases n <;> simp [pathsUpTo]
  | @snoc p a h ha ih =>
    intro n hn
    cases n with
    | zero => simp at hn
    | succ n =>
      have hp : p ∈ S.pathsUpTo n := ih (by simpa using hn)
      simp only [pathsUpTo, List.mem_cons, List.mem_flatMap, List.mem_map]
      exact .inr ⟨p, hp, a, ha, rfl⟩

end Setting

end Interleaving
