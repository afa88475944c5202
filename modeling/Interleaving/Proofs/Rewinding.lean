import Interleaving.Proofs.Scheduling
import Interleaving.Schedule.Rewind

/-!
# The next alternative of a level

When all that a level led to was explored, the level goes on to its next alternative. Its draws
are gone through like a binary number: the last false one becomes true, and what came after it is
dropped. If all are true, the selected thread is put to sleep and no thread is selected.

## Main definitions

* `Level.flipped`, `Level.retired` — the two ways to go on.

## Main statements

* `Level.advance_flip`, `Level.advance_retire` — when a level goes on in which way.
* `Level.exists_of_retired` — what a level is after its thread was put to sleep.
* `Setting.Fits.flipped`, `Setting.Fits.retired` — a level that goes on keeps fitting.
-/

namespace Interleaving

/-- What a level tells the client that selects a thread and draws the given values. -/
def move (t : ThreadId) (k : Step) (draws : List Draw) : List Answer :=
  .run t k :: (draws.map Draw.truth).map Answer.bool

@[simp] theorem move_nil (t : ThreadId) (k : Step) : move t k [] = [.run t k] := rfl

theorem move_append (t : ThreadId) (k : Step) (ds rest : List Draw) :
    move t k (ds ++ rest) = move t k ds ++ (rest.map Draw.truth).map Answer.bool := by
  simp [move]

theorem move_snoc (t : ThreadId) (k : Step) (ds : List Draw) (b : Bool) :
    move t k (ds ++ [.ofBool b]) = move t k ds ++ [.bool b] := by
  simp [move]

/-- The last false draw, if there is one, has only true ones behind it. -/
theorem Draw.last_false {draws : List Draw} (h : ∀ d ∈ draws, d = .ofBool d.truth) :
    (∀ d ∈ draws, d = .ofBool true) ∨ ∃ ds trues, draws = ds ++ .ofBool false :: trues ∧
      ∀ d ∈ trues, d = .ofBool true := by
  induction draws with
  | nil => exact .inl (by simp)
  | cons d draws ih =>
    rcases ih fun d hd => h d (List.mem_cons_of_mem _ hd) with ht | ⟨ds, trues, rfl, ht⟩
    · cases hd : d.truth with
      | true =>
        refine .inl fun c hc => ?_
        rcases List.mem_cons.1 hc with rfl | hc
        · rw [h c List.mem_cons_self, hd]
        · exact ht c hc
      | false => exact .inr ⟨[], draws, by rw [List.nil_append, ← hd, ← h d List.mem_cons_self], ht⟩
    · exact .inr ⟨d :: ds, trues, rfl, ht⟩

namespace Level

theorem answers_eq_move {l : Level} {t : ThreadId} (h : l.selected = some t) :
    l.answers = move t l.step l.draws := answers_of_selected h

theorem flipLast_of_true {trues rest : List Draw} (h : ∀ d ∈ trues, d = .ofBool true) :
    flipLast (trues ++ rest) = flipLast rest := by
  induction trues with
  | nil => rfl
  | cons d trues ih =>
    obtain rfl := h d List.mem_cons_self
    rw [List.cons_append, flipLast]
    simpa [Draw.ofBool] using ih fun d hd => h d (List.mem_cons_of_mem _ hd)

/-- The last false draw, before which there are `ds`, becomes true. -/
def flipped (l : Level) (ds : List Draw) : Level :=
  { l with draws := ds ++ [.ofBool true], cursor := 0 }

/-- The thread `t`, which was selected, is put to sleep. -/
def retired (l : Level) (t : ThreadId) : Level :=
  { l.modifyEntry t Entry.putToSleep with selected := none, draws := [], cursor := 0 }

theorem advance_flip {l : Level} {ds trues : List Draw} (settled : l.cursor = l.draws.length)
    (hd : l.draws = ds ++ .ofBool false :: trues) (ht : ∀ d ∈ trues, d = .ofBool true) :
    l.advance = (l.flipped ds, .ok true) := by
  have hflip : flipLast l.draws.reverse = (.ofBool true :: ds.reverse, .ok true) := by
    rw [hd, List.reverse_append, List.reverse_cons, List.append_assoc,
      flipLast_of_true (by simpa using ht)]
    simp [flipLast, Draw.ofBool]
  simp [advance, flipDraws, settled, hflip, flipped]

theorem advance_retire {l : Level} {t : ThreadId} {e : Entry}
    (settled : l.cursor = l.draws.length) (hd : ∀ d ∈ l.draws, d = .ofBool true)
    (hs : l.selected = some t) (he : l.entries[t]? = some e) :
    l.advance = (l.retired t, .ok (!(l.retired t).exhausted)) := by
  have hflip : flipLast l.draws.reverse = ([], .ok false) := by
    rw [← List.append_nil l.draws.reverse, flipLast_of_true (by simpa using hd)]
    rfl
  have hselection : selection { l with draws := [], cursor := 0 } = .ok t :=
    selection_eq_ok.2 hs
  have hentry : entry { l with draws := [], cursor := 0 } t = .ok e := entry_eq_ok.2 he
  have hretire : retire { l with draws := [], cursor := 0 } = .ok (l.retired t) := by
    simp only [retire, hselection, hentry, bind, Except.bind]
    rfl
  simp [advance, flipDraws, settled, hflip, hretire]

@[simp] theorem pendings_retired (l : Level) (t : ThreadId) :
    (l.retired t).pendings = l.pendings :=
  pendings_modifyEntry l t Entry.toPending_putToSleep

theorem getElem?_retired (l : Level) (t : ThreadId) (i : Nat) :
    (l.retired t).entries[i]? =
      l.entries[i]?.map fun e => if i = t then e.putToSleep else e :=
  getElem?_modifyEntry l t i Entry.putToSleep

/-- Only the thread that is put to sleep changes, and it keeps its operation and its mark. -/
theorem exists_of_retired {l : Level} {t : ThreadId} {i : Nat} {e : Entry}
    (h : (l.retired t).entries[i]? = some e) : ∃ f, l.entries[i]? = some f ∧
      e.toPending = f.toPending ∧ e.marked = f.marked ∧ (i ≠ t → e = f) := by
  rw [getElem?_retired, Option.map_eq_some_iff] at h
  obtain ⟨f, hf, rfl⟩ := h
  refine ⟨f, hf, ?_⟩
  split
  · next hi => exact ⟨rfl, rfl, fun hne => absurd hi hne⟩
  · exact ⟨rfl, rfl, fun _ => rfl⟩

/-- Where all that is enabled is marked, it stays so. -/
theorem marked_retired {l : Level} (h : ∀ e ∈ l.entries, e.enabled → e.marked) (t : ThreadId) :
    ∀ e ∈ (l.retired t).entries, e.enabled → e.marked := by
  intro e he henabled
  obtain ⟨i, hi⟩ := List.mem_iff_getElem?.1 he
  obtain ⟨f, hf, hpending, hmarked, -⟩ := exists_of_retired hi
  rw [hmarked]
  exact h f (List.mem_of_getElem? hf) (hpending ▸ henabled)

end Level

namespace Setting.Fits

variable {σ : Type} {S : Setting σ} {below : List Level} {l : Level} {t : ThreadId}

theorem course_eq (h : S.Fits below l) (hs : l.selected = some t) :
    course (below ++ [l]) = course below ++ move t (below.length + 1) l.draws := by
  rw [course_append, course_singleton, Level.answers_eq_move hs, h.step_eq]

/-- Some draws of a level are drawn, one after the other. -/
theorem request_draw (h : S.Fits below l) (hs : l.selected = some t) {ds rest : List Draw}
    {d : Draw} (hd : l.draws = ds ++ d :: rest) :
    S.request (course below ++ move t (below.length + 1) ds) = .drawBool := by
  have hf := h.follows
  rw [h.course_eq hs, hd, move_append, ← List.append_assoc, List.map_cons, List.map_cons] at hf
  exact bool_mem_offers.1 hf.mem_offers

theorem follows_draw (h : S.Fits below l) (hs : l.selected = some t) {ds rest : List Draw}
    (hd : l.draws = ds ++ rest) :
    S.Follows (course below ++ move t (below.length + 1) ds) := by
  have hf := h.follows
  rw [h.course_eq hs, hd, move_append, ← List.append_assoc] at hf
  exact hf.of_append

theorem flipped (h : S.Fits below l) (hs : l.selected = some t) {ds trues : List Draw}
    (hd : l.draws = ds ++ .ofBool false :: trues) :
    S.Fits below (l.flipped ds).settle where
  below_selected := h.below_selected
  within := h.within
  step_eq := h.step_eq
  seen := h.seen
  follows := by
    have hanswers : (l.flipped ds).settle.answers =
        move t (below.length + 1) ds ++ [.bool true] := by
      rw [← move_snoc, ← h.step_eq]
      exact Level.answers_eq_move (l := (l.flipped ds).settle) hs
    rw [course_append, course_singleton, hanswers, ← List.append_assoc]
    exact .snoc (h.follows_draw hs hd) (bool_mem_offers.2 (h.request_draw hs hd))
  marked := h.marked
  draws := by
    intro d hmem
    rcases List.mem_append.1 hmem with hmem | hmem
    · exact h.draws d (hd ▸ List.mem_append_left _ hmem)
    · rw [List.mem_singleton.1 hmem, Draw.truth_ofBool]
  settled := rfl
  awake := h.awake
  undrawn := fun hn => absurd (hn.symm.trans hs) (by simp)

theorem retired (h : S.Fits below l) (t : ThreadId) : S.Fits below (l.retired t) where
  below_selected := h.below_selected
  within := h.within
  step_eq := h.step_eq
  seen := by
    obtain ⟨choices, current, hr, hl⟩ := h.seen
    exact ⟨choices, current, hr, by rw [Level.pendings_retired, hl]⟩
  follows := by
    rw [course_append, course_singleton, Level.answers_of_none rfl, List.append_nil]
    exact h.follows_below
  marked := by
    intro e he hm
    obtain ⟨i, hi⟩ := List.mem_iff_getElem?.1 he
    obtain ⟨f, hf, hpending, hmarked, -⟩ := Level.exists_of_retired hi
    rw [hpending]
    exact h.marked f (List.mem_of_getElem? hf) (hmarked ▸ hm)
  draws := by simp [Level.retired]
  settled := rfl
  awake := by simp [Level.retired]
  undrawn := fun _ => rfl

end Setting.Fits

end Interleaving
