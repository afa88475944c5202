import Interleaving.Proofs.Passed

/-!
# Marks added to a stack

The analysis of a schedule adds marks to threads that may run. Nothing else of the stack changes,
so all that is said of its course and of its sleep stays true.

## Main definitions

* `Setting.Marks` — one stack has more marks than another.

## Main statements

* `Setting.Marks.stands`, `Setting.Marks.passed` — what is kept when marks are added.
-/

namespace Interleaving

namespace Setting

variable {σ : Type} (S : Setting σ)

/-- The second level has more marks than the first, on threads that may run, and is else the
same. -/
structure MoreMarked (l l' : Level) : Prop where
  rest : l' = { l with entries := l'.entries }
  entries : ∀ i : Nat, l'.entries[i]? = l.entries[i]? ∨
    ∃ e : Entry, l.entries[i]? = some e ∧ S.may e.toPending ∧ l'.entries[i]? = some e.mark

/-- Level by level, the second stack has more marks than the first. -/
inductive Marks : List Level → List Level → Prop
  | nil : Marks [] []
  | snoc {G G' : List Level} {l l' : Level} :
      Marks G G' → S.MoreMarked l l' → Marks (G ++ [l]) (G' ++ [l'])

variable {S}

namespace MoreMarked

variable {l l' : Level}

theorem refl (l : Level) : S.MoreMarked l l := ⟨rfl, fun _ => .inl rfl⟩

theorem selected (h : S.MoreMarked l l') : l'.selected = l.selected := by rw [h.rest]

theorem draws (h : S.MoreMarked l l') : l'.draws = l.draws := by rw [h.rest]

theorem answers (h : S.MoreMarked l l') : l'.answers = l.answers := by
  rw [h.rest]
  rfl

/-- An entry keeps its operation and its sleep, and stays awake if it was. -/
theorem getElem? (h : S.MoreMarked l l') {i : Nat} {e : Entry} (he : l.entries[i]? = some e) :
    ∃ e', l'.entries[i]? = some e' ∧ e'.toPending = e.toPending ∧ e'.asleep = e.asleep ∧
      (e.awake → e'.awake) ∧ (e'.marked → e.marked ∨ S.may e.toPending) := by
  rcases h.entries i with hi | ⟨f, hf, hmay, hi⟩
  · exact ⟨e, hi.trans he, rfl, rfl, id, .inl⟩
  · obtain rfl : e = f := by simpa [he] using hf
    refine ⟨e.mark, hi, rfl, rfl, fun ha => ?_, fun _ => .inr hmay⟩
    simp only [Entry.awake, Bool.and_eq_true] at ha
    simpa [Entry.awake, Entry.mark] using ha.2

theorem of_getElem? (h : S.MoreMarked l l') {i : Nat} {e' : Entry}
    (he' : l'.entries[i]? = some e') :
    ∃ e, l.entries[i]? = some e ∧ e'.toPending = e.toPending ∧ e'.asleep = e.asleep ∧
      (e'.marked → e.marked ∨ S.may e.toPending) := by
  rcases h.entries i with hi | ⟨e, he, hmay, hi⟩
  · exact ⟨e', hi ▸ he', rfl, rfl, .inl⟩
  · obtain rfl : e.mark = e' := by simpa [hi] using he'
    exact ⟨e, he, rfl, rfl, fun _ => .inr hmay⟩

theorem pendings (h : S.MoreMarked l l') : l'.pendings = l.pendings := by
  apply List.ext_getElem?
  intro i
  rw [Level.pendings_getElem?, Level.pendings_getElem?]
  rcases h.entries i with hi | ⟨e, he, -, hi⟩
  · rw [hi]
  · simp [he, hi]

theorem length_entries (h : S.MoreMarked l l') : l'.entries.length = l.entries.length := by
  have := congrArg List.length h.pendings
  simpa [Level.pendings] using this

theorem dense (h : S.MoreMarked l l') (hl : l.Dense) : l'.Dense := by
  rw [Level.dense_iff] at hl ⊢
  rwa [h.pendings]

theorem exists_awake (h : S.MoreMarked l l') (ha : ∃ e ∈ l.entries, e.awake) :
    ∃ e ∈ l'.entries, e.awake := by
  obtain ⟨e, he, ha⟩ := ha
  obtain ⟨i, hi⟩ := List.mem_iff_getElem?.1 he
  obtain ⟨e', he', -, -, hawake, -⟩ := h.getElem? hi
  exact ⟨e', List.mem_of_getElem? he', hawake ha⟩

theorem trans {l'' : Level} (h : S.MoreMarked l l') (h' : S.MoreMarked l' l'') :
    S.MoreMarked l l'' := by
  refine ⟨?_, fun i => ?_⟩
  · rw [h'.rest, h.rest]
  · rcases h'.entries i with hi' | ⟨e', he', hmay', hi'⟩
    · rw [hi']
      exact h.entries i
    · rcases h.entries i with hi | ⟨e, he, hmay, hi⟩
      · exact .inr ⟨e', hi ▸ he', hmay', hi'⟩
      · obtain rfl : e.mark = e' := by simpa [hi] using he'
        exact .inr ⟨e, he, hmay, hi'⟩

/-- A level inherits the same sleep to the next one. -/
theorem sleepers (h : S.MoreMarked l l') {e e' : Entry} (he : e'.toPending = e.toPending) :
    Schedule.sleepers l' e' = Schedule.sleepers l e := by
  have key (l : Level) (e : Entry) : Schedule.sleepers l e =
      (((l.entries.map fun e => (e.toPending, e.asleep)).zipIdx.filter fun (k, _) =>
        k.2 && !k.1.dependent e.toPending).map (·.2)) := by
    rw [List.zipIdx_map, List.filter_map, List.map_map]
    rfl
  have hmap : (l'.entries.map fun e => (e.toPending, e.asleep)) =
      l.entries.map fun e => (e.toPending, e.asleep) := by
    apply List.ext_getElem?
    intro i
    rw [List.getElem?_map, List.getElem?_map]
    rcases h.entries i with hi | ⟨e, he, -, hi⟩
    · rw [hi]
    · simp [he, hi, Entry.mark]
  rw [key, key, hmap, he]

theorem passedAt (h : S.MoreMarked l l') {below below' : List Level} {p : List Answer}
    (hc : course below' = course below) (hl : below'.length = below.length)
    (hp : PassedAt below l p) : PassedAt below' l' p := by
  cases hp with
  | @asleep t e hsome he ha hp =>
    obtain ⟨e', he', -, hasleep, -⟩ := h.getElem? he
    refine .asleep ?_ he' (hasleep.trans ha) (by rwa [hc, hl])
    rw [h.selected]
    exact hsome.imp_right h.exists_awake
  | drawn ht hd hp =>
    exact .drawn (h.selected.trans ht) (h.draws.trans hd) (by rwa [hc, hl])

end MoreMarked

namespace Marks

variable {G G' : List Level}

theorem refl (G : List Level) : S.Marks G G := by
  induction G using List.reverseRecOn with
  | nil => exact .nil
  | append_singleton G l ih => exact .snoc ih (.refl l)

theorem length_eq (h : S.Marks G G') : G'.length = G.length := by
  induction h with
  | nil => rfl
  | snoc _ _ ih => simp [ih]

theorem getElem? (h : S.Marks G G') {i : Nat} {l : Level} (hl : G[i]? = some l) :
    ∃ l', G'[i]? = some l' ∧ S.MoreMarked l l' := by
  induction h with
  | nil => simp at hl
  | @snoc G G' m m' h hm ih =>
    rcases Nat.lt_or_ge i G.length with hlt | hge
    · rw [List.getElem?_append_left hlt] at hl
      obtain ⟨l', hl', hmarked⟩ := ih hl
      exact ⟨l', by rwa [List.getElem?_append_left (h.length_eq ▸ hlt)], hmarked⟩
    · obtain rfl : i = G.length := by
        have := (List.getElem?_eq_some_iff.1 hl).1
        simp at this
        omega
      obtain rfl : m = l := by simpa using hl
      exact ⟨m', by simp [← h.length_eq], hm⟩

theorem of_getElem? (hlength : G'.length = G.length)
    (h : ∀ (i : Nat) (l l' : Level), G[i]? = some l → G'[i]? = some l' → S.MoreMarked l l') :
    S.Marks G G' := by
  induction G using List.reverseRecOn generalizing G' with
  | nil =>
    obtain rfl := List.length_eq_zero_iff.1 hlength
    exact .nil
  | append_singleton G l ih =>
    cases G' using List.reverseRecOn with
    | nil => simp at hlength
    | append_singleton G' l' =>
      have hlen : G'.length = G.length := by simpa using hlength
      refine .snoc (ih hlen fun i m m' hm hm' => ?_) (h G.length l l' (by simp) (by simp [← hlen]))
      have hlt := (List.getElem?_eq_some_iff.1 hm).1
      refine h i m m' ?_ ?_
      · rwa [List.getElem?_append_left hlt]
      · rwa [List.getElem?_append_left (hlen ▸ hlt)]

theorem trans {G'' : List Level} (h : S.Marks G G') (h' : S.Marks G' G'') : S.Marks G G'' := by
  refine .of_getElem? (h'.length_eq.trans h.length_eq) fun i l l'' hl hl'' => ?_
  obtain ⟨m, hm, hmarked⟩ := h.getElem? hl
  obtain ⟨m', hm', hmarked'⟩ := h'.getElem? hm
  obtain rfl : m' = l'' := by simpa [hm'] using hl''
  exact hmarked.trans hmarked'

/-- A mark is added at one level. -/
theorem modify {i : Nat} {f : Level → Level}
    (h : ∀ l, G[i]? = some l → S.MoreMarked l (f l)) : S.Marks G (G.modify i f) := by
  refine .of_getElem? (by simp) fun j l l' hl hl' => ?_
  rw [List.getElem?_modify, hl] at hl'
  by_cases hij : i = j
  · subst hij
    simp only [if_true, Option.map_eq_map, Option.map_some, Option.some.injEq] at hl'
    exact hl' ▸ h l hl
  · simp only [hij, if_false, Option.map_eq_map, Option.map_some, Option.some.injEq] at hl'
    exact hl' ▸ .refl l

/-- A level of the stack with more marks is one of the other stack, with more marks. -/
theorem exists_split (h : S.Marks G G') {below' above' : List Level} {l' : Level}
    (hG' : G' = below' ++ l' :: above') : ∃ below l above, G = below ++ l :: above ∧
      S.Marks below below' ∧ S.MoreMarked l l' := by
  induction h generalizing above' with
  | nil => simp at hG'
  | @snoc G₀ G₀' m m' h hm ih =>
    cases above' using List.reverseRecOn with
    | nil =>
      obtain ⟨rfl, hl⟩ := List.append_inj' hG' rfl
      obtain rfl : m' = l' := by simpa using hl
      exact ⟨G₀, m, [], rfl, h, hm⟩
    | append_singleton above' x =>
      rw [← List.cons_append, ← List.append_assoc] at hG'
      obtain ⟨rfl, -⟩ := List.append_inj' hG' rfl
      obtain ⟨below, l, above, rfl, hbelow, hl⟩ := ih rfl
      exact ⟨below, l, above ++ [m], by simp, hbelow, hl⟩

theorem course_eq (h : S.Marks G G') : course G' = course G := by
  induction h with
  | nil => rfl
  | snoc _ hl ih => simp [ih, hl.answers]

theorem selected (h : S.Marks G G') (hs : ∀ l ∈ G, l.selected.isSome) :
    ∀ l ∈ G', l.selected.isSome := by
  induction h with
  | nil => simp
  | snoc _ hl ih =>
    simp only [List.mem_append, List.mem_singleton, or_imp, forall_and, forall_eq] at hs ⊢
    exact ⟨ih hs.1, hl.selected ▸ hs.2⟩

/-- What was passed stays passed. -/
theorem passed (h : S.Marks G G') {p : List Answer} (hp : Passed G p) : Passed G' p := by
  induction h with
  | nil => exact hp
  | snoc h hl ih =>
    exact passed_snoc.2 ((passed_snoc.1 hp).imp ih (hl.passedAt h.course_eq h.length_eq))

/-- A stack stands however it is marked. -/
theorem stands (h : S.Marks G G') (hG : S.Stands G) : S.Stands G' := by
  induction h with
  | nil => exact hG
  | @snoc G G' l l' h hl ih =>
    obtain ⟨hb, hfits⟩ := upward_snoc.1 hG
    have hcourse : course (G' ++ [l']) = course (G ++ [l]) := by
      simp [h.course_eq, hl.answers]
    refine upward_snoc.2
      ⟨ih hb, h.selected hfits.below_selected, ?_, ?_, ?_, ?_, ?_, ?_, ?_, ?_, ?_⟩
    · rw [h.length_eq]
      exact hfits.within
    · rw [h.length_eq, ← hfits.step_eq, hl.rest]
    · rw [h.course_eq, hl.pendings]
      exact hfits.seen
    · rw [hcourse]
      exact hfits.follows
    · intro e' he' hm
      obtain ⟨i, hi⟩ := List.mem_iff_getElem?.1 he'
      obtain ⟨e, he, hpending, -, hmarked⟩ := hl.of_getElem? hi
      rw [hpending]
      exact (hmarked hm).elim (hfits.marked e (List.mem_of_getElem? he)) id
    · rw [hl.draws]
      exact hfits.draws
    · rw [hl.rest]
      exact hfits.settled
    · intro t ht
      rw [hl.selected] at ht
      obtain ⟨e, he, ha⟩ := hfits.awake t ht
      obtain ⟨e', he', -, -, hawake, -⟩ := hl.getElem? he
      exact ⟨e', he', hawake ha⟩
    · rw [hl.selected, hl.draws]
      exact hfits.undrawn

/-- The same sleep is inherited. -/
theorem inherited_eq (h : S.Marks G G') (hG : S.Stands G) (hs : ∀ l ∈ G, l.selected.isSome) :
    inherited G' = inherited G := by
  cases h with
  | nil => rfl
  | @snoc G G' l l' h hl =>
    obtain ⟨t, ht⟩ := Option.isSome_iff_exists.1 (hs l (by simp))
    obtain ⟨e, he, -⟩ := (upward_snoc.1 hG).2.awake t ht
    obtain ⟨e', he', hpending, -⟩ := hl.getElem? he
    rw [inherited_snoc ht he, inherited_snoc (hl.selected.trans ht) he', hl.sleepers hpending]

end Marks

end Setting

end Interleaving
