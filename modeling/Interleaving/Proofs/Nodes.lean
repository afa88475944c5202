import Interleaving.Proofs.ActorRuns
import Interleaving.Proofs.Exploring

/-!
# Levels along runs of actors

A stack of levels that stands along a path of the machine stands along a run of the actors, and
the level over it shows what each actor is about to do after the run.

## Main definitions

* `Node` — a level over those that stand along a run.

## Main statements

* `isPrefix_of_told` — what is told of a run tells the run.
* `exists_node` — every level is a node.
-/

namespace Interleaving

namespace Actors

open Machine

variable {scripts : List Script} {sleepSets reduction : Bool}

/-- Every iteration of a single list of scripts starts with the same machine. -/
theorem machine_single (scripts : List Script) (i : Nat) :
    (Campaign.mk [scripts] []).machine i = load scripts := by
  simp [Campaign.machine, Campaign.scripts, load]

/-- What is told of a run begins with what is told of another only if the run does. -/
theorem isPrefix_of_told {m : Machine} {pre xs : List Move} (hpre : m.Executes pre)
    (hxs : m.Executes xs) (k : Nat) (h : told k pre <+: told k xs) : pre <+: xs := by
  induction pre generalizing m xs k with
  | nil => exact List.nil_prefix
  | cons x pre ih =>
    cases xs with
    | nil => simp [told, Move.answers] at h
    | cons y xs =>
      simp only [told, Move.answers, List.cons_append, List.cons_prefix_cons, Answer.run.injEq,
        and_true] at h
      obtain ⟨hthread, h⟩ := h
      have hinstruction : x.instruction = y.instruction := by
        obtain ⟨_, hx, -⟩ := hpre.1.next
        obtain ⟨_, hy, -⟩ := hxs.1.next
        rw [hthread, hy] at hx
        simp at hx
        exact hx.1.symm
      have htoss : x.toss.isSome ↔ y.toss.isSome := by
        rw [hpre.1.toss, hxs.1.toss, hinstruction]
      have heq : x = y ∧ told (k + 1) pre <+: told (k + 1) xs := by
        cases hx : x.toss with
        | none =>
          cases hy : y.toss with
          | none =>
            refine ⟨?_, by simpa [hx, hy] using h⟩
            cases x; cases y; simp_all
          | some b => simp [hx, hy] at htoss
        | some b =>
          cases hy : y.toss with
          | none => simp [hx, hy] at htoss
          | some b' =>
            simp only [hx, hy, Option.toList_some, List.map_cons, List.map_nil, List.cons_append,
              List.nil_append, List.cons_prefix_cons, Answer.bool.injEq] at h
            refine ⟨?_, h.2⟩
            cases x; cases y; simp_all
      obtain ⟨rfl, hrest⟩ := heq
      exact List.cons_prefix_cons.2 ⟨rfl, ih hpre.2 hxs.2 (k + 1) hrest⟩

theorem exists_cons_of_run_isPrefix {k : Nat} {t : ThreadId} {p : List Answer} {xs : List Move}
    (h : .run t (k + 1) :: p <+: told k xs) :
    ∃ x w, xs = x :: w ∧ x.thread = t ∧ p <+: x.toss.toList.map .bool ++ told (k + 1) w := by
  cases xs with
  | nil => simp [told] at h
  | cons x w =>
    simp only [told, Move.answers, List.cons_append, List.cons_prefix_cons, Answer.run.injEq,
      and_true] at h
    exact ⟨x, w, rfl, h.1.symm, h.2⟩

/-- An actor that is enabled can make a move. -/
theorem exists_can {m : Machine} (idle : m.demand = none) {t : ThreadId} {script : Script}
    (ht : m.actors[t]? = some script) (henabled : (m.pending t script).enabled) :
    ∃ x rest, m.Can x ∧ x.thread = t ∧ script = x.instruction :: rest := by
  cases script with
  | nil => simp [pending] at henabled
  | cons i rest =>
    by_cases hi : i = .toss
    · exact ⟨⟨t, i, some false⟩, rest, ⟨idle, ⟨rest, ht, henabled⟩, by simp [hi]⟩, rfl, rfl⟩
    · exact ⟨⟨t, i, none⟩, rest, ⟨idle, ⟨rest, ht, henabled⟩, by simp [hi]⟩, rfl, rfl⟩

/-- The levels below stand along a run, and the level shows what the actors do next. -/
structure Node (scripts : List Script) (below : List Level) (l : Level) (pre : List Move) :
    Prop where
  executes : (load scripts).Executes pre
  course_eq : course below = told 0 pre
  shown : l.pendings = ((load scripts).moves pre).snapshot

theorem exists_executes_of_next (ordinary : Ordinary scripts) {p : List Answer} {choices : Snapshot}
    {current : ThreadId} (hp : (setting scripts sleepSets reduction).Follows p)
    (hr : (setting scripts sleepSets reduction).request p = .next choices current) :
    ∃ pre, (load scripts).Executes pre ∧ p = told 0 pre ∧
      choices.unstick = ((load scripts).moves pre).snapshot := by
  obtain ⟨pre, hpre, rfl | ⟨t, rest, ht, rfl⟩⟩ := exists_executes_of_follows ordinary hp
  · have orderly := hpre.orderly (orderly_load ordinary)
    rw [request_told] at hr
    rcases orderly.request_cases (hpre.idle (orderly_load ordinary) rfl) with h | h
    · simp [h] at hr
    · rw [h] at hr
      obtain ⟨rfl, -⟩ := Request.next.inj hr
      exact ⟨pre, hpre, rfl, orderly.unstick_snapshot⟩
  · simp [request_told_toss ordinary hpre ht] at hr

theorem exists_node (ordinary : Ordinary scripts) {below : List Level} {l : Level}
    (h : (setting scripts sleepSets reduction).Fits below l) : ∃ pre, Node scripts below l pre := by
  obtain ⟨choices, current, hr, hl⟩ := h.seen
  obtain ⟨pre, hpre, hcourse, hsnapshot⟩ := exists_executes_of_next ordinary h.follows_below hr
  exact ⟨pre, hpre, hcourse, hl.trans hsnapshot⟩

namespace Node

variable {below : List Level} {l : Level} {pre : List Move}

theorem entry (h : Node scripts below l pre) {t : Nat} {e : Entry} (he : l.entries[t]? = some e) :
    ∃ script, ((load scripts).moves pre).actors[t]? = some script ∧
      e.toPending = ((load scripts).moves pre).pending t script := by
  have := l.pendings_getElem? t
  rw [he, h.shown, getElem?_snapshot, Option.map_some, Option.map_eq_some_iff] at this
  obtain ⟨script, hs, hp⟩ := this
  exact ⟨script, hs, hp.symm⟩

/-- An actor that can move has an enabled entry. -/
theorem exists_entry (h : Node scripts below l pre) {x : Move}
    (hx : ((load scripts).moves pre).Can x) :
    ∃ e rest, l.entries[x.thread]? = some e ∧ e.enabled ∧
      e.toPending = ((load scripts).moves pre).pending x.thread (x.instruction :: rest) := by
  obtain ⟨rest, hnext, henabled⟩ := hx.next
  have := l.pendings_getElem? x.thread
  rw [h.shown, getElem?_snapshot, hnext, Option.map_some] at this
  obtain ⟨e, he, hp⟩ := Option.map_eq_some_iff.1 this.symm
  exact ⟨e, rest, he, hp ▸ henabled, hp⟩

theorem length_eq (h : Node scripts below l pre) (hs : ∀ m ∈ below, m.selected.isSome) :
    pre.length = below.length := by
  rw [← decisions_course hs, h.course_eq, decisions_told]

/-- A run that goes on from the course of the levels below goes on from theirs. -/
theorem isPrefix (h : Node scripts below l pre) {xs : List Move} (hxs : (load scripts).Executes xs)
    (hc : course below <+: told 0 xs) : ∃ w, xs = pre ++ w := by
  obtain ⟨w, hw⟩ := isPrefix_of_told h.executes hxs 0 (h.course_eq ▸ hc)
  exact ⟨w, hw.symm⟩

theorem exists_append (h : Node scripts below l pre) {xs : List Move}
    (hxs : (load scripts).Executes xs) (hc : course below <+: told 0 xs) :
    ∃ w, xs = pre ++ w ∧ xs.drop (decisions (course below)) = w := by
  obtain ⟨w, rfl⟩ := h.isPrefix hxs hc
  refine ⟨w, rfl, ?_⟩
  rw [h.course_eq, decisions_told, List.drop_left]

/-- The run along a level and those below it goes one move further. -/
theorem exists_snoc (h : Node scripts below l pre)
    (hfits : (setting scripts sleepSets reduction).Fits below l) {t : ThreadId}
    (ht : l.selected = some t) {pre' : List Move} (hpre' : (load scripts).Executes pre')
    (hc : course (below ++ [l]) = told 0 pre') :
    ∃ x, pre' = pre ++ [x] ∧ x.thread = t ∧ ((load scripts).moves pre).Can x := by
  obtain ⟨w, rfl⟩ := h.isPrefix hpre' (by rw [← hc]; simp)
  have hselected : ∀ m ∈ below ++ [l], m.selected.isSome := by
    intro m hm
    rcases List.mem_append.1 hm with hm | hm
    · exact hfits.below_selected m hm
    · simp [List.mem_singleton.1 hm, ht]
  have hlength : w.length = 1 := by
    have hall := decisions_course hselected
    rw [hc, decisions_told] at hall
    have := h.length_eq hfits.below_selected
    simp only [List.length_append, List.length_singleton] at hall
    omega
  obtain ⟨x, rfl⟩ := List.length_eq_one_iff.1 hlength
  refine ⟨x, rfl, ?_, (executes_snoc.1 hpre').2⟩
  rw [hfits.course_eq ht, h.course_eq, told_snoc, List.append_cancel_left_eq, move,
    Move.answers] at hc
  simp only [List.cons.injEq, Answer.run.injEq] at hc
  exact hc.1.1.symm

theorem isPrefix_told (h : Node scripts below l pre) (hs : ∀ m ∈ below, m.selected.isSome)
    {xs : List Move} (hxs : (load scripts).Executes xs) {p : List Answer}
    (hp : course below ++ p <+: told 0 xs) :
    ∃ w, xs = pre ++ w ∧ p <+: told below.length w := by
  obtain ⟨w, rfl⟩ := h.isPrefix hxs ((List.prefix_append _ _).trans hp)
  rw [told_append, h.course_eq, List.prefix_append_right_inj, Nat.zero_add, h.length_eq hs] at hp
  exact ⟨w, rfl, hp⟩

/-- A run along a level goes on with the thread that is selected there. -/
theorem exists_cons (h : Node scripts below l pre)
    (hfits : (setting scripts sleepSets reduction).Fits below l) {t : ThreadId}
    (ht : l.selected = some t) {w : List Move} (hw : (load scripts).Executes (pre ++ w))
    (hc : course (below ++ [l]) <+: told 0 (pre ++ w)) :
    ∃ x w', w = x :: w' ∧ x.thread = t := by
  rw [hfits.course_eq ht, Interleaving.move] at hc
  obtain ⟨w', heq, hp⟩ := h.isPrefix_told hfits.below_selected hw hc
  obtain rfl := List.append_cancel_left heq
  obtain ⟨x, w', rfl, hx, -⟩ := exists_cons_of_run_isPrefix hp
  exact ⟨x, w', rfl, hx⟩

end Node

end Actors

end Interleaving
