import Interleaving.Actors.Campaign
import Interleaving.Proofs.Path

/-!
# Runs of actors

A run of some actors is a list of moves: which actor makes the next step, the instruction that it
runs, and the truth value it draws if it tosses a coin. An exploration tells a run to the machine
answer by answer.

## Main definitions

* `Ordinary` — scripts that leave the scheduler's choices alone.
* `Move`, `Machine.Executes`, `Machine.Maximal` — moves and runs.
* `told` — a run as it is told to the machine.
* `setting` — the actors, explored depth-first.

## Main statements

* `Machine.Can.advanced` — what a move leaves.
* `follows_told`, `exists_executes_of_follows` — runs are the paths of the machine.
* `Ordinary.tame` — ordinary scripts make a tame client.
-/

namespace Interleaving

namespace Actors

mutual

/-- An instruction passes a test, and so do those of the actors that it creates. -/
def Instruction.every (f : Instruction → Bool) : Instruction → Bool
  | .create script => f (.create script) && Script.every f script
  | i => f i

/-- All instructions of a script pass a test, and so do those of the actors that it creates. -/
def Script.every (f : Instruction → Bool) : Script → Bool
  | [] => true
  | i :: rest => i.every f && Script.every f rest

end

theorem Script.every_iff {f : Instruction → Bool} {script : Script} :
    Script.every f script ↔ ∀ i ∈ script, i.every f := by
  induction script with
  | nil => simp [Script.every]
  | cons i rest ih => simp [Script.every, ih]

theorem Instruction.of_every {f : Instruction → Bool} {i : Instruction} (h : i.every f) : f i := by
  cases i <;> simp [Instruction.every] at h ⊢
  case create => exact h.1
  all_goals exact h

mutual

theorem Instruction.every_mono {f g : Instruction → Bool} (h : ∀ i, f i → g i) :
    ∀ i : Instruction, i.every f → i.every g
  | .create script, hi => by
    simp only [Instruction.every, Bool.and_eq_true] at hi ⊢
    exact ⟨h _ hi.1, Script.every_mono h script hi.2⟩
  | .send _, hi | .receive _, hi | .join _, hi | .yield, hi | .idle, hi | .quiesce, hi | .toss, hi
  | .roll _, hi | .forceToss _, hi | .forceRoll _, hi | .start, hi | .stop, hi
  | .raw _ _ _ _ _, hi => h _ hi

theorem Script.every_mono {f g : Instruction → Bool} (h : ∀ i, f i → g i) :
    ∀ script : Script, Script.every f script → Script.every g script
  | [], _ => rfl
  | i :: rest, hs => by
    simp only [Script.every, Bool.and_eq_true] at hs ⊢
    exact ⟨Instruction.every_mono h i hs.1, Script.every_mono h rest hs.2⟩

end

/-- The scripts of the actors that an instruction creates. -/
def Instruction.created : Instruction → List Script
  | .create script => [.start :: script]
  | _ => []

/-- All instructions of the scripts pass a test, nested ones included. -/
def Throughout (f : Instruction → Bool) (scripts : List Script) : Prop :=
  ∀ script ∈ scripts, ∀ i ∈ script, i.every f

theorem Throughout.mono {f g : Instruction → Bool} {scripts : List Script} (h : ∀ i, f i → g i)
    (hf : Throughout f scripts) : Throughout g scripts :=
  fun script hs i hi => i.every_mono h (hf script hs i hi)

/-- What is left of the scripts passes the test, too. -/
theorem Throughout.advance {f : Instruction → Bool} {scripts : List Script}
    (h : Throughout f scripts) (hstart : f .start) {t : ThreadId} {i : Instruction} {rest : Script}
    (ht : scripts[t]? = some (i :: rest)) : Throughout f (scripts.set t rest ++ i.created) := by
  have hnext : ∀ j ∈ i :: rest, j.every f := h _ (List.mem_of_getElem? ht)
  intro script hs j hj
  rcases List.mem_append.1 hs with hs | hs
  · rcases List.mem_or_eq_of_mem_set hs with hs | rfl
    · exact h script hs j hj
    · exact hnext j (List.mem_cons_of_mem i hj)
  · cases i with
    | create script' =>
      obtain rfl : script = .start :: script' := by simpa [Instruction.created] using hs
      have hcreate := hnext _ List.mem_cons_self
      simp only [Instruction.every, Bool.and_eq_true] at hcreate
      rcases List.mem_cons.1 hj with rfl | hj
      · simpa [Instruction.every] using hstart
      · exact Script.every_iff.1 hcreate.2 j hj
    | _ => simp [Instruction.created] at hs

/-- The instructions that do not wait for others to be idle, and draw truth values only, all of
which the scheduler chooses. -/
def Instruction.ordinary : Instruction → Bool
  | .send _ | .receive _ | .create _ | .join _ | .yield | .toss | .start | .stop => true
  | _ => false

/-- All instructions of the scripts are ordinary, those of created actors included. -/
abbrev Ordinary (scripts : List Script) : Prop := Throughout Instruction.ordinary scripts

/-- One step of an actor, with the value that it draws. -/
structure Move where
  thread : ThreadId
  instruction : Instruction
  toss : Option Bool := none

/-- The operation that a move shows to the scheduler, apart from whether it is enabled. -/
def Move.operation (x : Move) : Pending := Machine.pending { actors := [] } x.thread [x.instruction]

namespace Machine

/-- The actor of a move is about to run its instruction, which is enabled. -/
structure Can (m : Machine) (x : Move) : Prop where
  idle : m.demand = none
  next : ∃ rest, m.actors[x.thread]? = some (x.instruction :: rest) ∧
    (m.pending x.thread (x.instruction :: rest)).enabled
  toss : x.toss.isSome ↔ x.instruction = .toss

/-- Makes a move. -/
def move (m : Machine) (x : Move) : Machine :=
  match x.toss with
  | none => m.step x.thread (m.order.length + 1)
  | some b => (m.step x.thread (m.order.length + 1)).resume (.bool b)

/-- Makes some moves. -/
def moves (m : Machine) (xs : List Move) : Machine := xs.foldl move m

/-- A run: every move can be made. -/
def Executes (m : Machine) : List Move → Prop
  | [] => True
  | x :: xs => m.Can x ∧ (m.move x).Executes xs

/-- A run that goes on no further, as all actors are finished or waiting. -/
def Maximal (m : Machine) (xs : List Move) : Prop := m.Executes xs ∧ ∀ x, ¬ (m.moves xs).Can x

@[simp] theorem moves_nil (m : Machine) : m.moves [] = m := rfl

@[simp] theorem moves_cons (m : Machine) (x : Move) (xs : List Move) :
    m.moves (x :: xs) = (m.move x).moves xs := rfl

theorem moves_append (m : Machine) (xs ys : List Move) :
    m.moves (xs ++ ys) = (m.moves xs).moves ys := List.foldl_append

theorem executes_append {m : Machine} {xs ys : List Move} :
    m.Executes (xs ++ ys) ↔ m.Executes xs ∧ (m.moves xs).Executes ys := by
  induction xs generalizing m with
  | nil => simp [Executes]
  | cons x xs ih => simp [Executes, ih, and_assoc]

theorem executes_snoc {m : Machine} {xs : List Move} {x : Move} :
    m.Executes (xs ++ [x]) ↔ m.Executes xs ∧ (m.moves xs).Can x := by
  simp [executes_append, Executes]

/-! ## What a move changes -/

theorem order_effect (m : Machine) (t : ThreadId) (k : Step) (i : Instruction) :
    (m.effect t k i).order = m.order := by
  cases i <;> simp only [effect]
  split <;> rfl

theorem order_step (m : Machine) (t : ThreadId) (k : Step) :
    (m.step t k).order = m.order ++ [t] := by
  simp only [step]
  split
  · rw [order_effect]
  · rfl

@[simp] theorem order_move (m : Machine) (x : Move) : (m.move x).order = m.order ++ [x.thread] := by
  unfold move
  split <;> simp [resume, order_step]

theorem length_order_moves (m : Machine) (xs : List Move) :
    (m.moves xs).order.length = m.order.length + xs.length := by
  induction xs generalizing m with
  | nil => rfl
  | cons x xs ih => simp [ih]; omega

/-- The machine that runs ordinary scripts and forces nothing. -/
structure Orderly (m : Machine) : Prop where
  ordinary : Ordinary m.actors
  free : m.forces = []

/-- The number of messages that wait in an inbox. -/
def waiting (m : Machine) (inbox : Nat) : Nat := m.messages.countP (·.inbox == inbox)

theorem isSome_front? (m : Machine) (inbox : Nat) :
    (m.front? inbox).isSome = decide (0 < m.waiting inbox) := by
  rw [Bool.eq_iff_iff, decide_eq_true_iff]
  simp [front?, waiting]

/-- How many messages wait in an inbox after an instruction. -/
def waitingAfter (n inbox : Nat) : Instruction → Nat
  | .send i => if i = inbox then n + 1 else n
  | .receive i => if i = inbox then n - 1 else n
  | _ => n

theorem countP_eraseP_inbox (messages : List Message) (i j : Nat) :
    (messages.eraseP (·.inbox == i)).countP (·.inbox == j) =
      if i = j then messages.countP (·.inbox == j) - 1 else messages.countP (·.inbox == j) := by
  induction messages with
  | nil => simp
  | cons message messages ih =>
    by_cases hi : message.inbox = i
    · by_cases hij : i = j
      · simp [hi, hij]
      · simp [hi, hij]
    · rw [List.eraseP_cons_of_neg (by simpa using hi), List.countP_cons, ih, List.countP_cons]
      split
      · next hij =>
        have : message.inbox ≠ j := hij ▸ hi
        simp [this]
      · rfl

section Step

variable {m : Machine} {t : ThreadId} {i : Instruction} {rest : Script}

/-- What a step of an ordinary instruction leaves. -/
theorem step_eq (hi : i.ordinary) (ht : m.actors[t]? = some (i :: rest)) (k : Step) :
    (m.step t k).actors = m.actors.set t rest ++ i.created ∧ (m.step t k).forces = m.forces ∧
      (m.step t k).current = t ∧ (∀ j, (m.step t k).waiting j = waitingAfter (m.waiting j) j i) ∧
      (i = .toss ∧ (m.step t k).demand = some .toss ∨
        i ≠ .toss ∧ (m.step t k).demand = m.demand) := by
  simp only [step, ht]
  cases i with
  | send inbox =>
    simp [effect, waitingAfter, waiting, Instruction.created, List.countP_append, List.countP_cons]
    grind
  | receive inbox =>
    simp only [effect, Instruction.created, List.append_nil]
    cases hf : Machine.front? _ inbox with
    | none =>
      have hzero : m.waiting inbox = 0 := by
        have := m.isSome_front? inbox
        rw [show m.front? inbox = none from hf] at this
        simpa using this
      refine ⟨rfl, rfl, rfl, fun j => ?_, .inr ⟨by simp, rfl⟩⟩
      change m.waiting j = _
      simp only [waitingAfter]
      split
      · next hij => rw [← hij, hzero]
      · rfl
    | some message =>
      refine ⟨rfl, rfl, rfl, fun j => ?_, .inr ⟨by simp, rfl⟩⟩
      simp only [waiting, waitingAfter, countP_eraseP_inbox]
  | toss => simp [effect, waitingAfter, waiting, Instruction.created]
  | create | join | yield | start | stop =>
    simp [effect, waitingAfter, waiting, Instruction.created]
  | _ => simp [Instruction.ordinary] at hi

end Step

theorem Orderly.ordinary_next {m : Machine} (h : m.Orderly) {t : ThreadId} {i : Instruction}
    {rest : Script} (ht : m.actors[t]? = some (i :: rest)) : i.ordinary :=
  Instruction.of_every (h.ordinary _ (List.mem_of_getElem? ht) i List.mem_cons_self)

/-- What a move leaves. -/
structure Advanced (m : Machine) (x : Move) (rest : Script) (m' : Machine) : Prop where
  next : m.actors[x.thread]? = some (x.instruction :: rest)
  actors : m'.actors = m.actors.set x.thread rest ++ x.instruction.created
  waiting : ∀ j, m'.waiting j = waitingAfter (m.waiting j) j x.instruction
  demand : m'.demand = none
  orderly : m'.Orderly

theorem Advanced.length_actors {m m' : Machine} {x : Move} {rest : Script}
    (h : m.Advanced x rest m') :
    m'.actors.length = m.actors.length + x.instruction.created.length := by
  simp [h.actors]

/-- An actor that does not move keeps its script. -/
theorem Advanced.getElem?_of_ne {m m' : Machine} {x : Move} {rest : Script} {t : ThreadId}
    (h : m.Advanced x rest m') (ht : t < m.actors.length) (hne : x.thread ≠ t) :
    m'.actors[t]? = m.actors[t]? := by
  rw [h.actors, List.getElem?_append_left (by simpa using ht), List.getElem?_set_ne hne]

theorem Can.advanced {m : Machine} {x : Move} (h : m.Can x) (orderly : m.Orderly) :
    ∃ rest, m.Advanced x rest (m.move x) := by
  obtain ⟨rest, ht, -⟩ := h.next
  obtain ⟨hactors, hforces, -, hwaiting, hdemand⟩ :=
    step_eq (orderly.ordinary_next ht) ht (m.order.length + 1)
  have ordinary := orderly.ordinary.advance rfl ht
  have free := orderly.free
  refine ⟨rest, ?_⟩
  unfold move
  cases htoss : x.toss with
  | none =>
    have hne : x.instruction ≠ .toss := by
      rw [Ne, ← h.toss, htoss]
      simp
    refine ⟨ht, hactors, hwaiting, ?_, hactors ▸ ordinary, hforces.trans free⟩
    simpa [hne, h.idle] using hdemand
  | some b => exact ⟨ht, hactors, hwaiting, rfl, hactors ▸ ordinary, hforces.trans free⟩

theorem Executes.orderly {m : Machine} {xs : List Move} (h : m.Executes xs)
    (orderly : m.Orderly) : (m.moves xs).Orderly := by
  induction xs generalizing m with
  | nil => exact orderly
  | cons x xs ih =>
    obtain ⟨rest, hm⟩ := h.1.advanced orderly
    exact ih h.2 hm.orderly

/-- What is left of the scripts after a run passes the tests that the scripts pass. -/
theorem Executes.throughout {m : Machine} {xs : List Move} (h : m.Executes xs) (orderly : m.Orderly)
    {f : Instruction → Bool} (hstart : f .start) (hf : Throughout f m.actors) :
    Throughout f (m.moves xs).actors := by
  induction xs generalizing m with
  | nil => exact hf
  | cons x xs ih =>
    obtain ⟨rest, hm⟩ := h.1.advanced orderly
    exact ih h.2 hm.orderly (hm.actors ▸ hf.advance hstart hm.next)

theorem Executes.idle {m : Machine} {xs : List Move} (h : m.Executes xs) (orderly : m.Orderly)
    (hm : m.demand = none) : (m.moves xs).demand = none := by
  induction xs generalizing m with
  | nil => exact hm
  | cons x xs ih =>
    obtain ⟨rest, hadvanced⟩ := h.1.advanced orderly
    exact ih h.2 hadvanced.orderly hadvanced.demand

/-! ## What the machine asks for -/

theorem getElem?_snapshot (m : Machine) (t : ThreadId) :
    m.snapshot[t]? = m.actors[t]?.map (m.pending t) := by
  simp [snapshot, List.getElem?_zipIdx, Function.comp_def]

@[simp] theorem thread_pending (m : Machine) (t : ThreadId) (script : Script) :
    (m.pending t script).thread = t := by
  cases script with
  | nil => rfl
  | cons i rest => cases i <;> rfl

theorem dense_snapshot (m : Machine) : m.snapshot.Dense := by
  intro t p hp
  rw [getElem?_snapshot, Option.map_eq_some_iff] at hp
  obtain ⟨script, -, rfl⟩ := hp
  exact m.thread_pending t script

theorem mem_snapshot {m : Machine} {p : Pending} :
    p ∈ m.snapshot ↔
      ∃ script, m.actors[p.thread]? = some script ∧ p = m.pending p.thread script := by
  rw [List.mem_iff_getElem?]
  constructor
  · rintro ⟨t, ht⟩
    have hp := m.dense_snapshot t p ht
    rw [getElem?_snapshot, Option.map_eq_some_iff] at ht
    obtain ⟨script, hs, rfl⟩ := ht
    exact ⟨script, by rw [hp, hs], by rw [hp]⟩
  · rintro ⟨script, hs, hp⟩
    exact ⟨p.thread, by rw [getElem?_snapshot, hs, Option.map_some, ← hp]⟩

/-- Ordinary scripts never get stuck on a yield. -/
theorem Orderly.unstick_snapshot {m : Machine} (h : m.Orderly) :
    m.snapshot.unstick = m.snapshot := by
  have yields : ∀ p ∈ m.snapshot, p.op = .yield → p.enabled := by
    intro p hp hop
    obtain ⟨script, hs, hp⟩ := mem_snapshot.1 hp
    rw [hp] at hop ⊢
    cases script with
    | nil => simp [pending] at hop
    | cons i rest =>
      have hi := h.ordinary_next hs
      cases i <;> simp [pending, Instruction.ordinary] at hop hi ⊢
  have quiesces : ∀ p ∈ m.snapshot, p.op ≠ .quiesce := by
    intro p hp hop
    obtain ⟨script, hs, hp⟩ := mem_snapshot.1 hp
    rw [hp] at hop
    cases script with
    | nil => simp [pending] at hop
    | cons i rest =>
      have hi := h.ordinary_next hs
      cases i <;> simp [pending, Instruction.ordinary] at hop hi
  unfold Snapshot.unstick
  split
  · rfl
  · next hno =>
    have hy : m.snapshot.any (·.op == .yield) = false := by
      rw [List.any_eq_false]
      intro p hp hop
      exact hno (List.any_eq_true.2 ⟨p, hp, yields p hp (by simpa using hop)⟩)
    have hq : m.snapshot.any (·.op == .quiesce) = false := by
      rw [List.any_eq_false]
      intro p hp hop
      exact quiesces p hp (by simpa using hop)
    simp [hy, hq]

theorem Orderly.request_eq {m : Machine} (h : m.Orderly) (idle : m.demand = none)
    {t : ThreadId} {i : Instruction} {rest : Script} (ht : m.actors[t]? = some (i :: rest)) :
    m.request = .next m.snapshot m.current := by
  have hall : m.actors.all (·.isEmpty) = false := by
    rw [List.all_eq_false]
    exact ⟨i :: rest, List.mem_of_getElem? ht, by simp⟩
  simp [request, idle, hall, forced?, h.free]

theorem Orderly.request_cases {m : Machine} (h : m.Orderly) (idle : m.demand = none) :
    m.request = .finish ∨ m.request = .next m.snapshot m.current := by
  unfold request
  rw [idle]
  simp only
  split
  · exact .inl rfl
  · simp [forced?, h.free]

/-- In the middle of a toss a truth value is asked for. -/
theorem Orderly.request_toss {m : Machine} (h : m.Orderly) {t : ThreadId} {rest : Script}
    (ht : m.actors[t]? = some (.toss :: rest)) (k : Step) : (m.step t k).request = .drawBool := by
  have hdemand : (m.step t k).demand = some .toss := by
    obtain ⟨-, -, -, -, ⟨-, hd⟩ | ⟨hne, -⟩⟩ := step_eq (h.ordinary_next ht) ht k
    · exact hd
    · exact absurd rfl hne
  simp [request, hdemand]

end Machine

/-! ## Runs as paths -/

/-- What the machine is told to make a move. -/
def Move.answers (x : Move) (k : Step) : List Answer := .run x.thread k :: x.toss.toList.map .bool

/-- What the machine is told to make some moves after the first `k`. -/
def told (k : Nat) : List Move → List Answer
  | [] => []
  | x :: xs => x.answers (k + 1) ++ told (k + 1) xs

theorem told_append (k : Nat) (xs ys : List Move) :
    told k (xs ++ ys) = told k xs ++ told (k + xs.length) ys := by
  induction xs generalizing k with
  | nil => simp [told]
  | cons x xs ih => simp [told, ih, Nat.add_assoc, Nat.add_comm 1]

theorem told_snoc (xs : List Move) (x : Move) :
    told 0 (xs ++ [x]) = told 0 xs ++ x.answers (xs.length + 1) := by
  simp [told_append, told]

theorem decisions_told (k : Nat) (xs : List Move) : decisions (told k xs) = xs.length := by
  induction xs generalizing k with
  | nil => rfl
  | cons x xs ih =>
    have : decisions (x.toss.toList.map Answer.bool) = 0 := decisions_map_bool _
    simp [told, Move.answers, ih, this]

/-- The machine before the first step of its actors. -/
def load (scripts : List Script) : Machine := { actors := scripts }

theorem orderly_load {scripts : List Script} (ordinary : Ordinary scripts) :
    (load scripts).Orderly :=
  ⟨ordinary, rfl⟩

/-- The actors that run the scripts, explored depth-first. -/
def setting (scripts : List Script) (sleepSets reduction : Bool) : Setting Machine :=
  .ofEnabled Machine.client (load scripts) sleepSets reduction

section Setting

variable {scripts : List Script} {sleepSets reduction : Bool}

theorem foldl_told (m : Machine) (xs : List Move) :
    (told m.order.length xs).foldl (fun m a => Machine.client.resume a m) m = m.moves xs := by
  induction xs generalizing m with
  | nil => rfl
  | cons x xs ih =>
    have hmove : (x.answers (m.order.length + 1)).foldl (fun m a => Machine.client.resume a m) m =
        m.move x := by
      cases h : x.toss <;> simp [Move.answers, Machine.move, h, Machine.client, Machine.resume]
    rw [told, List.foldl_append, hmove, Machine.moves_cons, ← ih (m.move x)]
    simp

theorem after_told (xs : List Move) :
    (setting scripts sleepSets reduction).after (told 0 xs) = (load scripts).moves xs :=
  foldl_told (load scripts) xs

theorem request_told (xs : List Move) :
    (setting scripts sleepSets reduction).request (told 0 xs) =
      ((load scripts).moves xs).request := by
  rw [Setting.request, after_told]
  rfl

/-- In the middle of a toss the machine asks for a truth value. -/
theorem request_told_toss (ordinary : Ordinary scripts) {xs : List Move} {t : ThreadId}
    {rest : Script} (h : (load scripts).Executes xs)
    (ht : ((load scripts).moves xs).actors[t]? = some (.toss :: rest)) :
    (setting scripts sleepSets reduction).request (told 0 xs ++ [.run t (xs.length + 1)]) =
      .drawBool := by
  rw [Setting.request, Setting.after_snoc, after_told]
  exact (h.orderly (orderly_load ordinary)).request_toss ht (xs.length + 1)

/-- Where an actor can make a move, it may be told to. -/
theorem run_mem_offers_told (ordinary : Ordinary scripts) {xs : List Move}
    (h : (load scripts).Executes xs) {x : Move} (hx : ((load scripts).moves xs).Can x) :
    .run x.thread (xs.length + 1) ∈ (setting scripts sleepSets reduction).offers (told 0 xs) := by
  have orderly := h.orderly (orderly_load ordinary)
  obtain ⟨rest, ht, henabled⟩ := hx.next
  have hr : (setting scripts sleepSets reduction).request (told 0 xs) = _ :=
    (request_told xs).trans (orderly.request_eq hx.idle ht)
  refine Setting.run_mem_offers.2 ⟨_, _, hr, by rw [decisions_told], ?_⟩
  rw [orderly.unstick_snapshot]
  refine ⟨_, Machine.mem_snapshot.2 ⟨x.instruction :: rest, ?_, ?_⟩, henabled, ?_⟩
  · rw [Machine.thread_pending, ht]
  · rw [Machine.thread_pending]
  · rw [Machine.thread_pending]

/-- A run is told along a path. -/
theorem follows_told (ordinary : Ordinary scripts) {xs : List Move}
    (h : (load scripts).Executes xs) :
    (setting scripts sleepSets reduction).Follows (told 0 xs) := by
  induction xs using List.reverseRecOn with
  | nil => exact .nil
  | append_singleton xs x ih =>
    obtain ⟨hxs, hx⟩ := Machine.executes_snoc.1 h
    have hrun := (ih hxs).snoc (run_mem_offers_told ordinary hxs hx)
    rw [told_snoc, Move.answers]
    cases htoss : x.toss with
    | none => exact hrun
    | some b =>
      obtain ⟨rest, ht, -⟩ := hx.next
      rw [hx.toss.1 (by simp [htoss])] at ht
      have hbool := hrun.snoc
        (Setting.bool_mem_offers (b := b).2 (request_told_toss ordinary hxs ht))
      simpa using hbool

/-- A path tells a run, or it breaks off in the middle of a toss after one. -/
theorem exists_executes_of_follows (ordinary : Ordinary scripts) {p : List Answer}
    (h : (setting scripts sleepSets reduction).Follows p) :
    ∃ xs, (load scripts).Executes xs ∧ (p = told 0 xs ∨ ∃ t rest,
      ((load scripts).moves xs).actors[t]? = some (.toss :: rest) ∧
        p = told 0 xs ++ [.run t (xs.length + 1)]) := by
  induction h with
  | nil => exact ⟨[], trivial, .inl rfl⟩
  | @snoc p a _ ha ih =>
    obtain ⟨xs, hxs, rfl | ⟨t, rest, ht, rfl⟩⟩ := ih
    · have orderly := hxs.orderly (orderly_load ordinary)
      have idle := hxs.idle (orderly_load ordinary) rfl
      rcases orderly.request_cases idle with hr | hr
      · simp [Setting.offers, request_told, hr] at ha
      · simp only [Setting.offers, request_told, hr, orderly.unstick_snapshot, List.mem_map,
          List.mem_filter] at ha
        obtain ⟨q, ⟨hq, henabled⟩, rfl⟩ := ha
        obtain ⟨script, hs, hq⟩ := Machine.mem_snapshot.1 hq
        rw [decisions_told]
        cases script with
        | nil =>
          rw [hq] at henabled
          simp [setting, Setting.ofEnabled, Machine.pending] at henabled
        | cons i rest =>
          by_cases hi : i = .toss
          · exact ⟨xs, hxs, .inr ⟨q.thread, rest, hi ▸ hs, rfl⟩⟩
          · refine ⟨xs ++ [⟨q.thread, i, none⟩], Machine.executes_snoc.2 ⟨hxs, idle, ?_, ?_⟩,
              .inl ?_⟩
            · exact ⟨rest, hs, hq ▸ henabled⟩
            · simp [hi]
            · simp [told_snoc, Move.answers]
    · have hr : (setting scripts sleepSets reduction).request _ = .drawBool :=
        request_told_toss ordinary hxs ht
      simp only [Setting.offers, hr, List.mem_cons, List.not_mem_nil, or_false] at ha
      obtain ⟨b, rfl⟩ : ∃ b, a = .bool b := by
        rcases ha with rfl | rfl
        · exact ⟨_, rfl⟩
        · exact ⟨_, rfl⟩
      have idle := hxs.idle (orderly_load ordinary) rfl
      refine ⟨xs ++ [⟨t, .toss, some b⟩], Machine.executes_snoc.2 ⟨hxs, idle, ?_, by simp⟩,
        .inl ?_⟩
      · exact ⟨rest, ht, rfl⟩
      · simp [told_snoc, Move.answers]

/-! ## The number of moves -/

theorem work_append (script script' : Script) :
    Script.work (script ++ script') = Script.work script + Script.work script' := by
  induction script with
  | nil => simp [Script.work]
  | cons i rest ih => simp [Script.work, ih, Nat.add_assoc]

/-- A move does the work of its instruction. -/
theorem work_advance {actors : List Script} {t : ThreadId} {i : Instruction} {rest : Script}
    (h : actors[t]? = some (i :: rest)) :
    Script.work (actors.set t rest ++ i.created).flatten + 1 = Script.work actors.flatten := by
  have hset : Script.work (actors.set t rest).flatten + i.work = Script.work actors.flatten := by
    induction actors generalizing t with
    | nil => simp at h
    | cons script actors ih =>
      cases t with
      | zero =>
        obtain rfl : script = i :: rest := by simpa using h
        simp only [List.set_cons_zero, List.flatten_cons, work_append, Script.work]
        omega
      | succ t =>
        have := ih (t := t) (by simpa using h)
        simp only [List.set_cons_succ, List.flatten_cons, work_append]
        omega
  rw [List.flatten_append, work_append]
  cases i <;> simp [Instruction.created, Script.work, Instruction.work] at hset ⊢ <;> omega

/-- Every move does some of the work that is left. -/
theorem work_moves {m : Machine} (orderly : m.Orderly) {xs : List Move} (h : m.Executes xs) :
    Script.work (m.moves xs).actors.flatten + xs.length = Script.work m.actors.flatten := by
  induction xs generalizing m with
  | nil => rfl
  | cons x xs ih =>
    obtain ⟨rest, hm⟩ := h.1.advanced orderly
    have := ih hm.orderly h.2
    have hset := work_advance hm.next
    rw [← hm.actors] at hset
    simp only [Machine.moves_cons, List.length_cons]
    omega

theorem length_told_le (k : Nat) (xs : List Move) :
    (told k xs).length ≤ 2 * xs.length := by
  induction xs generalizing k with
  | nil => rfl
  | cons x xs ih =>
    have hx : (x.answers (k + 1)).length ≤ 2 := by
      cases h : x.toss <;> simp [Move.answers, h]
    have := ih (k + 1)
    simp only [told, List.length_append, List.length_cons]
    omega

/-- Actors with ordinary scripts are a tame client. -/
theorem Ordinary.tame (ordinary : Ordinary scripts) :
    (setting scripts sleepSets reduction).Tame (2 * Script.work scripts.flatten) where
  dense := by
    intro path choices current hp hr
    obtain ⟨xs, hxs, rfl | ⟨t, rest, ht, rfl⟩⟩ := exists_executes_of_follows ordinary hp
    · have orderly := hxs.orderly (orderly_load ordinary)
      rw [request_told] at hr
      rcases orderly.request_cases (hxs.idle (orderly_load ordinary) rfl) with h | h
      · simp [h] at hr
      · rw [h] at hr
        obtain ⟨rfl, -⟩ := Request.next.inj hr
        exact Machine.dense_snapshot _
    · simp [request_told_toss ordinary hxs ht] at hr
  drawn := by
    rintro path hp hr rfl
    have hidle := (orderly_load ordinary).request_cases rfl
    have hr' : (load scripts).request = .drawBool := hr
    rw [hr'] at hidle
    simp at hidle
  plain := by
    intro path hp
    obtain ⟨xs, hxs, rfl | ⟨t, rest, ht, rfl⟩⟩ := exists_executes_of_follows ordinary hp
    · rw [request_told]
      rcases (hxs.orderly (orderly_load ordinary)).request_cases
        (hxs.idle (orderly_load ordinary) rfl) with h | h
      · exact .inl h
      · exact .inr (.inr ⟨_, _, h⟩)
    · exact .inr (.inl (request_told_toss ordinary hxs ht))
  bounded := by
    intro path hp
    obtain ⟨xs, hxs, rfl | ⟨t, rest, ht, rfl⟩⟩ := exists_executes_of_follows ordinary hp
    · have hlen := work_moves (orderly_load ordinary) hxs
      have := length_told_le 0 xs
      simp only [load] at hlen
      omega
    · have hlen := work_moves (orderly_load ordinary) hxs
      have hset := work_advance ht
      have := length_told_le 0 xs
      simp only [load, List.length_append, List.length_singleton] at hlen hset ⊢
      omega

theorem lt_budget (scripts : List Script) :
    2 * Script.work scripts.flatten < (load scripts).budget := by
  simp [Machine.budget, load]

end Setting

end Actors

end Interleaving
