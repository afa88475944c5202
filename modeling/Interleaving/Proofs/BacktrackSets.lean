import Interleaving.Proofs.Conflicts

/-!
# Which threads are enough to explore

At a level some threads are marked, and of every run that begins with one of them a matching one
was made and its races were answered by a marked candidate. Then in every maximal run from the
level one of the marked actors could come first. Were it not so, each of them would be held back by
an earlier send to the inbox of its first move. Take the first of those sends in the run, and run
an actor that it holds back before it: the two sends race, and no candidate for this race can be
marked.

## Main definitions

* `Answered` — a candidate is marked for each race of a run at a step.
* `HeldBack` — an actor whose first move comes after another send to its inbox.

## Main statements

* `exists_marked_initial` — one of the marked actors could come first.
-/

namespace Interleaving

namespace Actors

open Machine

/-- The thread is marked where the entries are those of the level. -/
def Marked (entries : List Entry) (t : ThreadId) : Prop := ∃ e, entries[t]? = some e ∧ e.marked

/-- For every race of a run with step `a` as the earlier one, a candidate is marked. -/
def Answered (entries : List Entry) (xs : List Move) (a : Nat) : Prop :=
  ∀ b p q, (trace xs).Races a b p q → ∃ t, Marked entries t ∧
    (trace xs).Candidate (Bystander entries p.thread q.thread) a b q.thread t

/-- The first move `x` of an actor in a run comes after another send to its inbox. -/
structure HeldBack (w : List Move) (t : ThreadId) (inbox : Nat) (u : List Move) (x : Move)
    (v : List Move) : Prop where
  eq : w = u ++ x :: v
  thread : x.thread = t
  first : ∀ y ∈ u, y.thread ≠ t
  send : x.instruction = .send inbox
  before : ∃ y ∈ u, y.instruction = .send inbox

/-- The first of the items that have a property. -/
theorem exists_first {α : Type} {Q : α → Prop} {xs : List α} (h : ∃ x ∈ xs, Q x) :
    ∃ u x v, xs = u ++ x :: v ∧ Q x ∧ ∀ y ∈ u, ¬ Q y := by
  classical
  obtain ⟨x, hx, hQ⟩ := h
  obtain ⟨y, u, v, hu, hy, heq, -⟩ := List.exists_of_eraseP (p := fun x => decide (Q x)) hx
    (by simpa using hQ)
  exact ⟨u, y, v, heq, by simpa using hy, by simpa using hu⟩

/-- Two lists that are split at the first item with a property are split at the same place. -/
theorem eq_of_append_cons {α : Type} {Q : α → Prop} {as bs as' bs' : List α} {x x' : α}
    (h : as ++ x :: bs = as' ++ x' :: bs') (hx : Q x) (hx' : Q x') (ha : ∀ y ∈ as, ¬ Q y)
    (ha' : ∀ y ∈ as', ¬ Q y) : as = as' ∧ x = x' := by
  rcases List.append_eq_append_iff.1 h with ⟨c, rfl, hc⟩ | ⟨c, rfl, hc⟩
  · cases c with
    | nil => exact ⟨(List.append_nil _).symm, (List.cons.inj hc).1⟩
    | cons c cs =>
      obtain ⟨rfl, -⟩ := List.cons.inj hc
      exact absurd hx (ha' x (by simp))
  · cases c with
    | nil => exact ⟨List.append_nil _, (List.cons.inj hc).1.symm⟩
    | cons c cs =>
      obtain ⟨rfl, -⟩ := List.cons.inj hc
      exact absurd hx' (ha x' (by simp))

section Held

variable {w z u v : List Move} {t : ThreadId} {inbox : Nat} {x : Move}

/-- An actor of free scripts that moves but could not come first is held back. -/
theorem exists_heldBack (free : ∀ y ∈ w, y.instruction.free) (hmem : ∃ y ∈ w, y.thread = t)
    (h : ¬ Initial t w) : ∃ inbox u x v, HeldBack w t inbox u x v := by
  obtain ⟨u, x, v, rfl, rfl, hu⟩ := exists_first hmem
  by_contra hno
  refine h ⟨u, x, v, rfl, rfl, fun y hy => ?_⟩
  refine Move.independent_of_free (free y (by simp [hy])) (free x (by simp)) (hu y hy) ?_
  intro i hyi hxi
  exact hno ⟨i, u, x, v, rfl, rfl, hu, hxi, y, hy, hyi⟩

/-- In a run in which the actor makes the same moves, its first move is the same. -/
theorem HeldBack.first_eq (h : HeldBack w t inbox u x v) (hmoves : movesOf t z = movesOf t w)
    {g g' : List Move} {y : Move} (hz : z = g ++ y :: g') (hy : y.thread = t)
    (hg : ∀ y ∈ g, y.thread ≠ t) : y = x := by
  rw [hz, h.eq, movesOf_first hy hg, movesOf_first h.thread h.first] at hmoves
  exact (List.cons.inj hmoves).1

/-- In a run in which the inbox gets the same sends, the actor is held back, too. -/
theorem HeldBack.exists_before (h : HeldBack w t inbox u x v)
    (hsends : sendsTo inbox z = sendsTo inbox w) {g g' : List Move} (hz : z = g ++ x :: g') :
    ∃ y ∈ g, y.instruction = .send inbox := by
  by_contra hno
  push Not at hno
  rw [hz, h.eq, sendsTo_first h.send hno, sendsTo_append] at hsends
  obtain ⟨y, hy, hyi⟩ := h.before
  cases hfirst : sendsTo inbox u with
  | nil =>
    have := mem_sendsTo.2 ⟨hy, hyi⟩
    simp [hfirst] at this
  | cons y' rest =>
    rw [hfirst] at hsends
    obtain ⟨rfl, -⟩ := List.cons.inj hsends
    have hmem : x ∈ sendsTo inbox u := by simp [hfirst]
    exact h.first x (mem_sendsTo.1 hmem).1 h.thread

/-- If no send to the inbox stands before some move, that move comes before the first one of the
actor. -/
theorem HeldBack.exists_append (h : HeldBack w t inbox u x v) {p r : List Move} {e : Move}
    (hw : w = p ++ e :: r) (hp : ∀ y ∈ p, y.instruction ≠ .send inbox) : ∃ c, u = p ++ e :: c := by
  obtain ⟨y, hy, hyi⟩ := h.before
  rcases List.append_eq_append_iff.1 (hw.symm.trans h.eq) with ⟨c, rfl, hc⟩ | ⟨c, rfl, -⟩
  · cases c with
    | nil => exact absurd hyi (hp y (by simpa using hy))
    | cons c cs =>
      obtain ⟨rfl, -⟩ := List.cons.inj hc
      exact ⟨cs, rfl⟩
  · exact absurd hyi (hp y (List.mem_append_left _ hy))

/-- In a matching run the first send to an inbox is the same. -/
theorem Matching.exists_first_send {p r : List Move} {e : Move} (h : Matching z (p ++ e :: r))
    (he : e.instruction = .send inbox) (hp : ∀ y ∈ p, y.instruction ≠ .send inbox) :
    ∃ z₀ z₁, z = z₀ ++ e :: z₁ ∧ ∀ y ∈ z₀, y.instruction ≠ .send inbox := by
  have hsends := h.sends inbox
  have hmem : e ∈ sendsTo inbox z := by
    rw [hsends]
    exact mem_sendsTo.2 ⟨by simp, he⟩
  obtain ⟨z₀, e', z₁, rfl, he', hz₀⟩ := exists_first (Q := fun y => y.instruction = .send inbox)
    ⟨e, (mem_sendsTo.1 hmem).1, he⟩
  rw [sendsTo_first he' hz₀, sendsTo_first he hp] at hsends
  obtain rfl : e' = e := (List.cons.inj hsends).1
  exact ⟨z₀, z₁, rfl, hz₀⟩

end Held

/-! ## The candidates of a race -/

section Candidates

variable {pre z z₀ z₁ : List Move} {x e : Move} {t : ThreadId} {k : Nat}

/-- The first move of an actor behind `x`. -/
theorem exists_of_firstAfter (h : (trace (pre ++ x :: z)).FirstAfter (pre.length + 1) t k) :
    ∃ g y g', z = g ++ y :: g' ∧ y.thread = t ∧ (∀ y ∈ g, y.thread ≠ t) ∧
      k = pre.length + 2 + g.length := by
  obtain ⟨hlt, hran, hfirst⟩ := h
  obtain ⟨j, rfl⟩ : ∃ j, k = pre.length + 1 + j + 1 := ⟨k - (pre.length + 2), by omega⟩
  obtain ⟨y, hy, hthread⟩ := ran_trace.1 hran
  rw [getElem?_behind] at hy
  obtain ⟨hj, rfl⟩ := List.getElem?_eq_some_iff.1 hy
  refine ⟨z.take j, z[j], z.drop (j + 1), ?_, hthread, fun y hy ht => ?_, by simp; omega⟩
  · rw [List.getElem_cons_drop, List.take_append_drop]
  · obtain ⟨i, hi⟩ := List.mem_iff_getElem?.1 hy
    rw [List.getElem?_take] at hi
    split at hi
    · refine hfirst (pre.length + 1 + i + 1) (by omega) (by omega) (ran_trace.2 ⟨y, ?_, ht⟩)
      rwa [getElem?_behind]
    · simp at hi

theorem firstAfter_of_split {g g' : List Move} {y : Move} (hz : z = g ++ y :: g')
    (hg : ∀ y' ∈ g, y'.thread ≠ y.thread) :
    (trace (pre ++ x :: z)).FirstAfter (pre.length + 1) y.thread (pre.length + 2 + g.length) := by
  have hran (j : Nat) (c : ThreadId) : (trace (pre ++ x :: z)).Ran c (pre.length + 2 + j) ↔
      ∃ y, z[j]? = some y ∧ y.thread = c := by
    rw [show pre.length + 2 + j = pre.length + 1 + j + 1 by omega, ran_trace]
    simp only [getElem?_behind]
  refine ⟨by omega, (hran _ _).2 ⟨y, by simp [hz], rfl⟩, fun i hai hik h => ?_⟩
  obtain ⟨j, rfl⟩ : ∃ j, i = pre.length + 2 + j := ⟨i - (pre.length + 2), by omega⟩
  obtain ⟨y', hy', hthread⟩ := (hran _ _).1 h
  rw [hz, List.getElem?_append_left (by omega)] at hy'
  exact hg y' (List.mem_of_getElem? hy') hthread

/-- Steps whose moves are tied are linked. -/
theorem linked_behind (free : ∀ y ∈ pre ++ x :: z, y.instruction.free) {i j : Nat} {y y' : Move}
    (hy : z[i]? = some y) (hy' : z[j]? = some y') (hij : i < j) (htied : y.tied y') :
    (trace (pre ++ x :: z)).Linked (pre.length + 2 + i) (pre.length + 2 + j) := by
  have hlinked := (linked_trace free (i := pre.length + 1 + i) (j := pre.length + 1 + j)
    (by rw [getElem?_behind, hy]) (by rw [getElem?_behind, hy'])).2 ⟨by omega, htied⟩
  rwa [show pre.length + 2 + i = pre.length + 1 + i + 1 by omega,
    show pre.length + 2 + j = pre.length + 1 + j + 1 by omega]

theorem linked_front (free : ∀ y ∈ pre ++ x :: z, y.instruction.free) {j : Nat} {y : Move}
    (hy : z[j]? = some y) (htied : x.tied y) :
    (trace (pre ++ x :: z)).Linked (pre.length + 1) (pre.length + 2 + j) := by
  have hlinked := (linked_trace free (i := pre.length) (j := pre.length + 1 + j)
    (by simp) (by rw [getElem?_behind, hy])).2 ⟨by omega, htied⟩
  rwa [show pre.length + 2 + j = pre.length + 1 + j + 1 by omega]

/-- An actor that is held back by sends behind `e` does not reverse the race of `x` and `e`. -/
theorem not_reverses {inbox : Nat} {p r w u v : List Move} {y : Move} {j : Nat}
    {B : ThreadId → Prop} (free : ∀ y ∈ pre ++ x :: (z₀ ++ e :: z₁), y.instruction.free)
    (he : e.instruction = .send inbox) (hz : ∀ y ∈ z₀, y.instruction ≠ .send inbox)
    (hp : ∀ y ∈ p, y.instruction ≠ .send inbox)
    (hmatch : Matching (z₀ ++ e :: z₁) (p ++ e :: r))
    (hmoves : ∀ c, c ≠ x.thread → movesOf c (p ++ e :: r) = movesOf c w)
    (hsends : ∀ j, j ≠ inbox → sendsTo j (p ++ e :: r) = sendsTo j w)
    (hB : ∀ y ∈ z₀, y.thread ≠ x.thread → y.thread ≠ e.thread → B y.thread)
    (held : HeldBack w t j u y v) (hpj : ∀ y ∈ p, y.instruction ≠ .send j) (ht : t ≠ x.thread) :
    ¬ (trace (pre ++ x :: (z₀ ++ e :: z₁))).Reverses B (pre.length + 1)
      (pre.length + 2 + z₀.length) t k := by
  intro h
  obtain ⟨g, y', g', hsplit, hthread, hg, rfl⟩ := exists_of_firstAfter h.first
  have hlt := h.lt
  -- the first move of the actor stands before `e`
  obtain ⟨c, rfl⟩ : ∃ c, z₀ = g ++ y' :: c := by
    rcases List.append_eq_append_iff.1 hsplit with ⟨c, rfl, -⟩ | ⟨c, rfl, hc⟩
    · simp at hlt
    · cases c with
      | nil => simp at hlt
      | cons c cs =>
        obtain ⟨rfl, -⟩ := List.cons.inj hc
        exact ⟨cs, rfl⟩
  obtain rfl : y' = y := held.first_eq ((hmatch.moves t).trans (hmoves t ht)) hsplit hthread hg
  have hne : j ≠ inbox := by
    rintro rfl
    exact hz y' (by simp) held.send
  obtain ⟨y₁, hy₁, hsend⟩ := held.exists_before ((hmatch.sends j).trans (hsends j hne)) hsplit
  -- so it is held back by a send of another actor
  have hmem : y₁ ∈ g ++ y' :: c := List.mem_append_left _ hy₁
  obtain ⟨i, hi⟩ := List.mem_iff_getElem?.1 hy₁
  have hig := (List.getElem?_eq_some_iff.1 hi).1
  have hiz : ((g ++ y' :: c) ++ e :: z₁)[i]? = some y₁ := by
    rw [hsplit, List.getElem?_append_left hig, hi]
  have hyz : ((g ++ y' :: c) ++ e :: z₁)[g.length]? = some y' := by
    rw [hsplit]
    simp
  have hlinked := linked_behind free hiz hyz hig (Move.tied_of_sends hsend held.send)
  by_cases hx : y₁.thread = x.thread
  · refine h.unreached (.tail (.single ?_) hlinked)
    exact linked_front free hiz (Move.tied_of_thread hx.symm)
  by_cases hs : y₁.thread = e.thread
  · have hsame : movesOf e.thread (g ++ y' :: c) = movesOf e.thread p := by
      have hall := hmatch.moves e.thread
      rw [movesOf_append _ (g ++ y' :: c), movesOf_append _ p, movesOf_cons_self,
        movesOf_cons_self] at hall
      refine (eq_of_append_cons (Q := fun y => y.instruction = .send inbox) hall he he ?_ ?_).1
      · exact fun y hy => hz y (mem_movesOf.1 hy).1
      · exact fun y hy => hp y (mem_movesOf.1 hy).1
    have hy₁p : y₁ ∈ movesOf e.thread p := hsame ▸ mem_movesOf.2 ⟨hmem, hs⟩
    exact hpj y₁ (mem_movesOf.1 hy₁p).1 hsend
  · obtain ⟨g₁, y₂, g₂, rfl, hthread₂, hg₁⟩ := exists_first
      (Q := fun y => y.thread = y₁.thread) ⟨y₁, hy₁, rfl⟩
    have hsplit₂ : (g₁ ++ y₂ :: g₂ ++ y' :: c) ++ e :: z₁ = g₁ ++ y₂ :: (g₂ ++ y' :: g') := by
      rw [hsplit]
      simp
    have hfirst := @firstAfter_of_split pre _ x _ _ _ hsplit₂ (by rwa [hthread₂])
    rw [hthread₂] at hfirst
    have hle : g₁.length ≤ i := by
      by_contra hlt'
      rw [List.getElem?_append_left (by omega)] at hi
      exact hg₁ y₁ (List.mem_of_getElem? hi) rfl
    refine h.alone y₁.thread _ (hB y₁ hmem hx hs) hfirst (by simp) ?_
    rcases Nat.eq_or_lt_of_le hle with heq | hlt'
    · rw [heq]
      exact .single hlinked
    · refine .tail (.single (linked_behind free ?_ hiz hlt' (Move.tied_of_thread hthread₂))) hlinked
      rw [hsplit₂]
      simp

end Candidates

section Initial

variable {scripts : List Script} {below : List Level} {l : Level} {pre w : List Move}

/-- An actor that is enabled at a level moves in every maximal run from there. -/
theorem exists_mem_of_enabled (free : Free scripts) (hnode : Node scripts below l pre)
    (hmax : (load scripts).Maximal (pre ++ w)) {t : Nat} {e : Entry} (he : l.entries[t]? = some e)
    (henabled : e.enabled) : ∃ y ∈ w, y.thread = t := by
  obtain ⟨script, hscript, hshown⟩ := hnode.entry he
  have unhindered := (unhindered_load free).moves hnode.executes
  have hleft := (unhindered.maximal_iff.1 (maximal_append.1 hmax).2).2 t
  cases script with
  | nil =>
    rw [hshown] at henabled
    simp [pending] at henabled
  | cons i rest =>
    cases hmoves : movesOf t w with
    | nil => simp [hmoves, left, hscript] at hleft
    | cons y ys =>
      have hy : y ∈ movesOf t w := by simp [hmoves]
      exact ⟨y, mem_movesOf.1 hy⟩

/-- An actor that moves in a maximal run from a level could run there. -/
theorem exists_runnable (free : Free scripts) (hnode : Node scripts below l pre)
    (hmax : (load scripts).Maximal (pre ++ w)) {y : Move} (hy : y ∈ w) :
    ∃ e, l.entries[y.thread]? = some e ∧ e.runnable := by
  have unhindered := (unhindered_load free).moves hnode.executes
  have hleft := (unhindered.maximal_iff.1 (maximal_append.1 hmax).2).2 y.thread
  obtain ⟨i, rest, hi⟩ : ∃ i rest, ((load scripts).moves pre).left y.thread = i :: rest := by
    cases h : ((load scripts).moves pre).left y.thread with
    | nil =>
      rw [h, List.map_eq_nil_iff] at hleft
      have := mem_movesOf.2 ⟨hy, rfl⟩
      simp [hleft] at this
    | cons i rest => exact ⟨i, rest, rfl⟩
  obtain ⟨e, -, he, henabled, -⟩ := hnode.exists_entry
    (unhindered.can_iff (x := ⟨y.thread, i, none⟩).2 ⟨rfl, rest, hi⟩)
  exact ⟨e, he, by simp [Pending.runnable, henabled]⟩

/-- One of the marked actors could come first in a maximal run from a level, if of all maximal runs
that begin with a marked actor an equivalent one was answered. -/
theorem exists_marked_initial (free : Free scripts) (hnode : Node scripts below l pre)
    (hmarked : ∃ t, Marked l.entries t) (henabled : ∀ e ∈ l.entries, e.marked → e.enabled)
    (hcover : ∀ x v, Marked l.entries x.thread → (load scripts).Maximal (pre ++ x :: v) →
      ∃ z, (load scripts).Equivalent (pre ++ x :: v) (pre ++ x :: z) ∧
        Answered l.entries (pre ++ x :: z) (pre.length + 1))
    (hmax : (load scripts).Maximal (pre ++ w)) : ∃ t, Marked l.entries t ∧ Initial t w := by
  by_contra hno
  push Not at hno
  have unhindered := unhindered_load free
  have hfree : ∀ y ∈ w, y.instruction.free := fun y hy =>
    unhindered.free_of_mem hmax.1 y (List.mem_append_right _ hy)
  have hheld : ∀ t, Marked l.entries t → ∃ inbox u x v, HeldBack w t inbox u x v := by
    intro t ht
    obtain ⟨e, he, hm⟩ := ht
    refine exists_heldBack hfree ?_ (hno t ⟨e, he, hm⟩)
    exact exists_mem_of_enabled free hnode hmax he (henabled e (List.mem_of_getElem? he) hm)
  -- `e` is the first send to an inbox that a marked actor is to send to first
  obtain ⟨p, e, r, hw, ⟨q, inbox, u, x, v, hq, held, he⟩, hfirst⟩ := @exists_first _
    (fun y => ∃ t inbox u x v, Marked l.entries t ∧ HeldBack w t inbox u x v ∧
      y.instruction = .send inbox) w <| by
    obtain ⟨t, ht⟩ := hmarked
    obtain ⟨inbox, u, x, v, held⟩ := hheld t ht
    exact ⟨x, by rw [held.eq]; simp, t, inbox, u, x, v, ht, held, held.send⟩
  have hp {t : ThreadId} {inbox : Nat} {u v : List Move} {x : Move} (ht : Marked l.entries t)
      (held : HeldBack w t inbox u x v) : ∀ y ∈ p, y.instruction ≠ .send inbox :=
    fun y hy hyi => hfirst y hy ⟨t, inbox, u, x, v, ht, held, hyi⟩
  obtain rfl := held.thread
  obtain ⟨c, rfl⟩ := held.exists_append hw (hp hq held)
  -- the run in which `x` comes first was made up to equivalence
  have hmax' := unhindered.maximal_front held.first (held.eq ▸ hmax)
  obtain ⟨z, hequiv, hanswered⟩ := hcover x _ hq hmax'
  have hmax'' := hequiv.maximal unhindered.tidy hmax'
  have hmatch : Matching z (p ++ e :: (c ++ v)) := by
    refine @Matching.of_append _ _ (pre ++ [x]) ?_
    simpa using hequiv.matching.symm
  obtain ⟨z₀, z₁, rfl, hz₀⟩ := hmatch.exists_first_send he (hp hq held)
  -- the two sends race
  have hcone := hmatch.thread_ne_of_mem_cone (x := x) he (hp hq held) (fun y hy htied => ?_)
    (held.first e (by simp)).symm hz₀
  · obtain ⟨t, ht, hcandidate⟩ := hanswered _ _ _
      (races_of_cone (unhindered.free_of_mem hmax''.1) held.send he hz₀ hcone)
    rw [Move.thread_operation, Move.thread_operation] at hcandidate
    obtain ⟨j, u', y, v', held'⟩ := hheld t ht
    rcases hcandidate with rfl | ⟨k, hk⟩
    · -- the actor of `e` is not held back by anything before `e`
      obtain ⟨c', rfl⟩ := held'.exists_append hw (hp ht held')
      exact held'.first e (by simp) rfl
    · obtain ⟨-, -, -, htx, -⟩ := hk.sought
      refine not_reverses (unhindered.free_of_mem hmax''.1) he hz₀ (hp hq held) hmatch
        (fun c' hc' => ?_) (fun j hj => ?_) (fun y hy hyx hye => ?_) held' (hp ht held') htx hk
      · rw [held.eq, movesOf_of_ne (Ne.symm hc')]
        simp
      · have hne : x.instruction ≠ .send j := by
          rw [held.send]
          simpa using hj.symm
        rw [held.eq, sendsTo_of_ne hne]
        simp
      · obtain ⟨f, hf, hrunnable⟩ := exists_runnable free hnode hmax'' (y := y) (by simp [hy])
        exact ⟨f, hf, hrunnable, hyx, hye⟩
  · rcases Move.tied_iff.1 htied with hthread | ⟨i, hxi, hyi⟩
    · exact held.first y (by simp [hy]) hthread.symm
    · obtain rfl : i = inbox := by simpa [held.send] using hxi.symm
      exact hp hq held y hy hyi

end Initial

end Actors

end Interleaving
