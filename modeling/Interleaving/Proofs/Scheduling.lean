import Interleaving.Proofs.Growth
import Interleaving.Proofs.Yields
import Interleaving.Scheduler.Draws

/-!
# The scheduler's calls in depth-first mode

What a call does to a schedule whose visited levels are `below` and `top`: which part of the
stack it changes, and what it answers.

## Main definitions

* `Setting.Governs` — a scheduler explores depth-first as a setting says.
* `Scheduler.on` — the scheduler with another stack of levels.

## Main statements

* `Setting.Governs.visit_fresh`, `Setting.Governs.visit_replay` — a level is added or replayed.
* `Scheduler.settle_thread`, `Scheduler.settle_selected` — a thread is selected, or was before.
* `Setting.Governs.drawBool_fresh`, `Scheduler.drawBool_replay` — a value is drawn.
-/

namespace Interleaving

open Interleaving.Action

/-- All recorded draws of a level as replayed. -/
def Level.settle (l : Level) : Level := { l with cursor := l.draws.length }

theorem Level.capture_eq_ok {snapshot : Snapshot} (h : snapshot.Dense) (step : Step) :
    Level.capture step snapshot = .ok { step, entries := snapshot.map Entry.capture } := by
  have hm : Level.misnumbered? snapshot = none := by
    simp only [Level.misnumbered?, List.find?_eq_none, Prod.forall, List.mem_zipIdx_iff_getElem?]
    intro p i hp
    simpa using h i p hp
  simp [Level.capture, hm]

theorem Pending.agrees_self (p : Pending) : p.agrees p := by simp [Pending.agrees]

/-- What was recorded is seen again where the operations are the same. -/
theorem Level.mismatch?_eq_none {l : Level} {snapshot : Snapshot} (step : Step)
    (h : l.pendings = snapshot) :
    l.mismatch? { step, entries := snapshot.map Entry.capture } = none := by
  subst h
  have hlen : l.entries.length = (l.pendings.map Entry.capture).length := by simp [pendings]
  simp only [Level.mismatch?, ne_eq, hlen, not_true_eq_false, if_false, Option.map_eq_none_iff,
    List.find?_eq_none, Prod.forall]
  intro a b hab
  obtain ⟨i, hi⟩ := List.mem_iff_getElem?.1 hab
  simp only [List.getElem?_zip_eq_some, pendings, List.getElem?_map, Option.map_eq_some_iff] at hi
  obtain ⟨ha, p, ⟨c, hc, rfl⟩, rfl⟩ := hi
  rw [ha] at hc
  obtain rfl : a = c := by simpa using hc
  simp [Pending.agrees_self]

namespace Schedule

variable {below rest : List Level} {top : Level} {randomized : Bool}

theorem top_mid : Schedule.top ⟨below ++ top :: rest, below.length + 1, randomized⟩ = .ok top := by
  simp [Schedule.top, top?, fromTop?]

theorem modifyTop_mid (f : Level → Level) :
    Schedule.modifyTop ⟨below ++ top :: rest, below.length + 1, randomized⟩ f =
      ⟨below ++ f top :: rest, below.length + 1, randomized⟩ := by
  have : (below ++ top :: rest).modify below.length f = below ++ f top :: rest := by
    induction below with
    | nil => rfl
    | cons l below ih => simpa [List.modify_succ_cons] using ih
  simp [Schedule.modifyTop, modifyLevel, this]

theorem onTop_mid {α : Type} {f : Level → Except Fault (α × Level)} {a : α} {l : Level}
    (h : f top = .ok (a, l)) :
    (onTop f).Yields ⟨below ++ top :: rest, below.length + 1, randomized⟩ a
      ⟨below ++ l :: rest, below.length + 1, randomized⟩ := by
  refine ⟨[], ?_⟩
  rw [onTop_apply, top_mid]
  simp only [h]
  rw [modifyTop_mid]

theorem push_fresh {snapshot : Snapshot} (h : snapshot.Dense) (G : List Level) :
    (push snapshot).Yields ⟨G, G.length, randomized⟩ true
      ⟨G ++ [{ step := G.length + 1, entries := snapshot.map Entry.capture }], G.length + 1,
        randomized⟩ := by
  apply Yields.of_eq
  rw [push_apply, Level.capture_eq_ok h]
  simp
  rfl

theorem push_replay {snapshot : Snapshot} (h : snapshot.Dense) (hl : top.pendings = snapshot) :
    (push snapshot).Yields ⟨below ++ top :: rest, below.length, randomized⟩ false
      ⟨below ++ top :: rest, below.length + 1, randomized⟩ := by
  apply Yields.of_eq
  rw [push_apply, Level.capture_eq_ok h]
  simp [Level.mismatch?_eq_none _ hl]
  rfl

theorem putToSleep_nil (l : Level) : l.putToSleep [] = l := by
  have : l.entries.mapIdx (fun _ e => e) = l.entries := by
    apply List.ext_getElem?
    simp
  simp [Level.putToSleep, this]

/-- The last level inherits sleep from those below. -/
theorem inheritSleep_snoc
    (h : ∀ l ∈ below.getLast?, ∃ t e, l.selected = some t ∧ l.entries[t]? = some e) :
    inheritSleep.Yields ⟨below ++ [top], below.length + 1, randomized⟩ ()
      ⟨below ++ [top.putToSleep (inherited below)], below.length + 1, randomized⟩ := by
  cases below using List.reverseRecOn with
  | nil =>
    rw [inherited_nil, putToSleep_nil]
    exact (yields_get _).bind (yields_pure () _)
  | append_singleton below l =>
    obtain ⟨t, e, ht, he⟩ := h l (by simp)
    have hb : Schedule.below? ⟨below ++ [l] ++ [top], (below ++ [l]).length + 1, randomized⟩ =
        some l := by
      simp [Schedule.below?, fromTop?]
    refine (yields_get _).bind ?_
    simp only [hb]
    refine (yields_lift (Level.selectedEntry_eq_ok ht he) _).bind ?_
    refine (yields_lift top_mid _).bind ?_
    refine (yields_notify _ _).bind ?_
    rw [modifyTop_mid, ← inherited_snoc ht he]
    exact yields_set _ _

end Schedule

/-! ## The scheduler -/

/-- The scheduler with the given levels, of which some were visited. -/
def Scheduler.on (s : Scheduler) (levels : List Level) (visited : Nat) : Scheduler :=
  { s with schedule := { s.schedule with levels, visited } }

/-- The scheduler explores depth-first as the setting says. -/
structure Setting.Governs {σ : Type} (S : Setting σ) (s : Scheduler) : Prop where
  plain : s.schedule.randomized = false
  generator : s.generator = none
  analysis : s.analysis.isSome = S.reduction
  sleepSets : s.sleepSets = S.sleepSets
  stepLimit : s.stepLimit = S.stepLimit
  replay : s.replay = []

namespace Scheduler

variable {s : Scheduler} {below rest : List Level} {top : Level}

@[simp] theorem on_schedule (levels : List Level) (visited : Nat) :
    (s.on levels visited).schedule = ⟨levels, visited, s.schedule.randomized⟩ := rfl

@[simp] theorem on_analysis (levels : List Level) (visited : Nat) :
    (s.on levels visited).analysis = s.analysis := rfl

@[simp] theorem on_generator (levels : List Level) (visited : Nat) :
    (s.on levels visited).generator = s.generator := rfl

@[simp] theorem on_replay (levels : List Level) (visited : Nat) :
    (s.on levels visited).replay = s.replay := rfl

@[simp] theorem on_replayed (levels : List Level) (visited : Nat) :
    (s.on levels visited).replayed = s.replayed := rfl

@[simp] theorem on_steps (levels : List Level) (visited : Nat) :
    (s.on levels visited).steps = visited := rfl

theorem onSchedule_yields {α : Type} {x : Action Schedule α} {levels levels' : List Level}
    {visited visited' : Nat} {a : α}
    (h : x.Yields ⟨levels, visited, s.schedule.randomized⟩ a
      ⟨levels', visited', s.schedule.randomized⟩) :
    (onSchedule x).Yields (s.on levels visited) a (s.on levels' visited') :=
  Yields.within (s := s.on levels visited) h

theorem top_mid {visited : Nat} (h : visited = below.length + 1) :
    (s.on (below ++ top :: rest) visited).schedule.top = .ok top := by
  subst h
  exact Schedule.top_mid

/-! ## Decisions -/

/-- At a level without selection the first thread that is awake is selected. -/
theorem settle_thread {current t : ThreadId} {e : Entry} (hn : top.selected = none)
    (ht : top.firstAwake current = .thread t) (he : top.entries[t]? = some e)
    (hr : e.runnable) :
    (settle current).Yields (s.on (below ++ top :: rest) (below.length + 1)) (.run t)
      (s.on (below ++ { top with selected := some t } :: rest) (below.length + 1)) := by
  have hc : (s.on (below ++ top :: rest) (below.length + 1)).schedule.choose current =
      .ok (.thread t) := by
    simp only [Schedule.choose, top_mid, bind, Except.bind, Level.choose, hn, ht]
    rfl
  have hs : top.select t = .ok { top with selected := some t } := by
    simp [Level.select, hn, Level.entry, he]
  refine (yields_get _).bind ((yields_lift hc _).bind ?_)
  refine (yields_lift (top_mid rfl) _).bind ?_
  simp only [hn, ne_eq, reduceCtorEq, not_false_eq_true, if_true]
  refine (onSchedule_yields (Schedule.onTop_mid (a := ()) (l := { top with selected := some t })
    ?_)).bind ?_
  · simp [hs]
  refine (yields_get _).bind ((yields_lift (top_mid rfl) _).bind ?_)
  refine (yields_lift (Level.entry_eq_ok.2 he) _).bind ?_
  simp only [hr, if_true]
  exact (yields_notify _ _).bind (yields_pure _ _)

/-- The thread that was selected at a level is run again. -/
theorem settle_selected {current t : ThreadId} {e : Entry} (hs : top.selected = some t)
    (he : top.entries[t]? = some e) (hr : e.runnable) :
    (settle current).Yields (s.on (below ++ top :: rest) (below.length + 1)) (.run t)
      (s.on (below ++ top :: rest) (below.length + 1)) := by
  have hc : (s.on (below ++ top :: rest) (below.length + 1)).schedule.choose current =
      .ok (.thread t) := by
    simp only [Schedule.choose, top_mid, bind, Except.bind, Level.choose, hs]
    rfl
  refine (yields_get _).bind ((yields_lift hc _).bind ?_)
  refine (yields_lift (top_mid rfl) _).bind ?_
  simp only [hs, ne_eq, not_true_eq_false, if_false]
  refine (yields_get _).bind ((yields_lift (top_mid rfl) _).bind ?_)
  refine (yields_lift (Level.entry_eq_ok.2 he) _).bind ?_
  simp only [hr, if_true]
  exact (yields_notify _ _).bind (yields_pure _ _)

theorem settle_nothing {current : ThreadId} (hn : top.selected = none)
    (h : top.firstAwake current = .nothing) :
    (settle current).Yields (s.on (below ++ top :: rest) (below.length + 1)) .deadlock
      (s.on (below ++ top :: rest) (below.length + 1)) := by
  have hc : (s.on (below ++ top :: rest) (below.length + 1)).schedule.choose current =
      .ok .nothing := by
    simp only [Schedule.choose, top_mid, bind, Except.bind, Level.choose, hn, h]
    rfl
  exact (yields_get _).bind ((yields_lift hc _).bind (yields_pure _ _))

theorem settle_allAsleep {current : ThreadId} (hn : top.selected = none)
    (h : top.firstAwake current = .allAsleep) :
    (settle current).Yields (s.on (below ++ top :: rest) (below.length + 1)) .allAsleep
      (s.on (below ++ top :: rest) (below.length + 1)) := by
  have hc : (s.on (below ++ top :: rest) (below.length + 1)).schedule.choose current =
      .ok .allAsleep := by
    simp only [Schedule.choose, top_mid, bind, Except.bind, Level.choose, hn, h]
    rfl
  exact (yields_get _).bind ((yields_lift hc _).bind ((yields_notify _ _).bind (yields_pure _ _)))

/-! ## Draws -/

theorem draw_mid {kind : DrawKind} {bound v : Nat} {l : Level} {g : Option Pcg}
    (hd : top.draw kind bound s.generator = .ok (v, l, g)) :
    (draw kind bound).Yields (s.on (below ++ top :: rest) (below.length + 1)) v
      (({ s with generator := g } : Scheduler).on (below ++ l :: rest) (below.length + 1)) := by
  refine (yields_get _).bind ((yields_lift (top_mid rfl) _).bind ((yields_lift hd _).bind ?_))
  simp only
  rw [on_schedule, Schedule.modifyTop_mid]
  exact (yields_set _ _).bind (yields_pure _ _)

/-- A recorded truth value is drawn again. -/
theorem drawBool_replay {b : Bool} (hd : top.draws[top.cursor]? = some (.ofBool b)) :
    drawBool.Yields (s.on (below ++ top :: rest) (below.length + 1)) b
      (s.on (below ++ { top with cursor := top.cursor + 1 } :: rest) (below.length + 1)) := by
  have hdraw : top.draw .bool 2 s.generator =
      .ok (b.toNat, { top with cursor := top.cursor + 1 }, s.generator) := by
    simp [Level.draw, hd, Draw.ofBool]
  have hb : b = (b.toNat == 1) := by cases b <;> rfl
  refine (draw_mid hdraw).bind ?_
  rw [← hb]
  exact yields_pure _ _

end Scheduler

namespace Setting.Governs

open Scheduler

variable {σ : Type} {S : Setting σ} {s : Scheduler} {below rest : List Level} {top : Level}

/-- A level just added is marked as the setting says. -/
theorem markTop_snoc (h : S.Governs s) (current : ThreadId) :
    (markTop none current).Yields (s.on (below ++ [top]) (below.length + 1)) ()
      (s.on (below ++ [if S.reduction then top.markFirst current else top.markEnabled])
        (below.length + 1)) := by
  refine (yields_get _).bind ((yields_lift (top_mid rfl) _).bind ?_)
  have hreplay : (s.on (below ++ [top]) (below.length + 1)).replay = [] := h.replay
  have hgen : (s.on (below ++ [top]) (below.length + 1)).generator = none := h.generator
  have modified (f : Level → Level) : (onSchedule (Action.modify (·.modifyTop f))).Yields
      (s.on (below ++ [top]) (below.length + 1)) () (s.on (below ++ [f top]) (below.length + 1)) :=
    onSchedule_yields ⟨[], by rw [modify_apply, Schedule.modifyTop_mid]⟩
  have han : (s.on (below ++ [top]) (below.length + 1)).analysis = s.analysis := rfl
  simp only [hreplay, hgen, han, List.getElem?_nil]
  cases ha : s.analysis with
  | none =>
    have : S.reduction = false := by rw [← h.analysis, ha]; rfl
    simpa [this] using modified Level.markEnabled
  | some analysis =>
    have : S.reduction = true := by rw [← h.analysis, ha]; rfl
    simpa [this] using modified (·.markFirst current)

/-- Past the end of the stack a level is added. -/
theorem visit_fresh (h : S.Governs s) {choices : Snapshot} (dense : choices.Dense)
    (current : ThreadId)
    (hb : ∀ l ∈ below.getLast?, ∃ t e, l.selected = some t ∧ l.entries[t]? = some e) :
    (visit none choices current).Yields (s.on below below.length) ()
      (s.on (below ++ [S.fresh below choices current]) (below.length + 1)) := by
  refine (onSchedule_yields (Schedule.push_fresh dense.unstick below)).bind ?_
  simp only [if_true]
  refine (yields_get _).bind ?_
  have hsleep (levels : List Level) (visited : Nat) :
      (s.on levels visited).sleepSets = S.sleepSets := h.sleepSets
  rw [hsleep]
  unfold fresh
  cases hs : S.sleepSets with
  | true =>
    simp only [if_true]
    refine (onSchedule_yields (Schedule.inheritSleep_snoc hb)).bind ?_
    exact h.markTop_snoc current
  | false =>
    simp only [Bool.false_eq_true, if_false]
    exact h.markTop_snoc current

/-- A level that is there is replayed if it shows the same operations; its draws come again. -/
theorem visit_replay {choices : Snapshot} (dense : choices.Dense) (current : ThreadId)
    (hl : top.pendings = choices.unstick) :
    (visit none choices current).Yields (s.on (below ++ top :: rest) below.length) ()
      (s.on (below ++ top.rewindDraws :: rest) (below.length + 1)) := by
  refine (onSchedule_yields (Schedule.push_replay dense.unstick hl)).bind ?_
  exact onSchedule_yields (Schedule.onTop_mid rfl)

/-- Past the recorded truth values false is drawn. -/
theorem drawBool_fresh (h : S.Governs s) (hd : top.cursor = top.draws.length) :
    drawBool.Yields (s.on (below ++ top :: rest) (below.length + 1)) false
      (s.on (below ++ top.record (.ofBool false) :: rest) (below.length + 1)) := by
  have hdraw : top.draw .bool 2 s.generator = .ok (0, top.record (.ofBool false), s.generator) := by
    have hnone : top.draws[top.cursor]? = none := by simp [hd]
    have hzero : Level.fresh .bool 2 none = (0, none) := rfl
    simp [Level.draw, hnone, h.generator, hzero, Draw.ofBool]
  have hb : (0 == 1) = false := by decide
  refine (draw_mid hdraw).bind ?_
  rw [hb]
  exact yields_pure _ _

end Setting.Governs

end Interleaving
