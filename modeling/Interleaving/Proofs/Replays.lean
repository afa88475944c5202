import Interleaving.Proofs.Soundness

/-!
# Levels to be replayed

In depth-first mode a schedule is left with an alternative at its last level when an iteration ends.
The next iteration visits the levels below, then this one, whose alternative it takes, and goes on
from there. When the schedule goes back, a level with draws that were not replayed stays.

## Main definitions

* `Level.Poised` — a level with an alternative for the next iteration.
* `Level.Resumed`, `Level.Took` — what a level is when its alternative is taken.
* `Schedule.Retouched` — only the level visited last may differ.
* `Schedule.Nears` — an iteration on its way to a level and past it.

## Main statements

* `Level.poised_of_advance` — a level that goes on has an alternative.
* `Schedule.Nears.retouched`, `Schedule.Nears.push` — how an iteration gets on.
* `Schedule.getElem?_of_cursor_ne` — what was not replayed is kept.
-/

namespace Interleaving

open Interleaving.Action

/-! ## Levels -/

namespace Level

variable {l l' : Level}

/-- The next iteration takes an alternative at the level: a thread that is awake if none is
selected, or else the truth value drawn last, which became true. -/
structure Poised (l : Level) : Prop where
  cursor : l.cursor = 0
  alternative : l.selected = none ∧ l.draws = [] ∧ (∃ e ∈ l.entries, e.awake) ∨
    l.selected.isSome ∧ ∃ ds, l.draws = ds ++ [.ofBool true]

/-- The thread that an iteration runs at the level. It is the one selected before, or one that was
awake. -/
def Runs (l : Level) (t : ThreadId) : Prop :=
  l.selected = some t ∨ l.selected = none ∧ ∃ e ∈ l.entries, e.awake ∧ e.thread = t

/-- The level `l` as an iteration has replayed it so far. Fresh values are drawn only after all that
are recorded. -/
structure Resumed (l l' : Level) : Prop where
  runs : ∃ t, l'.selected = some t ∧ l.Runs t
  cursor_le : l'.cursor ≤ l'.draws.length
  draws : l.draws <+: l'.draws
  unfinished : l'.cursor < l.draws.length → l'.draws = l.draws

/-- The level `l` after its alternative was taken: the thread runs, and all values that are recorded
were drawn again. -/
structure Took (l l' : Level) : Prop where
  runs : ∃ t, l'.selected = some t ∧ l.Runs t
  draws : l.draws <+: l'.draws.take l'.cursor

theorem Poised.awake (h : l.Poised) (hnone : l.selected = none) : ∃ e ∈ l.entries, e.awake := by
  rcases h.alternative with ⟨-, -, hawake⟩ | ⟨hsome, -⟩
  · exact hawake
  · simp [hnone] at hsome

theorem Poised.rewindDraws_eq (h : l.Poised) : l.rewindDraws = l := by
  have := h.cursor
  cases l
  simp_all [rewindDraws]

theorem Poised.cursor_ne (h : l.Poised) (hsome : l.selected.isSome) :
    l.cursor ≠ l.draws.length := by
  rcases h.alternative with ⟨hnone, -⟩ | ⟨-, ds, hds⟩
  · simp [hnone] at hsome
  · simp [h.cursor, hds]

/-- The level is visited, and its thread is selected. -/
theorem Poised.resumed (h : l.Poised) {t : ThreadId} (ht : l.Runs t) :
    l.Resumed { l with selected := some t } where
  runs := ⟨t, rfl, ht⟩
  cursor_le := by simp [h.cursor]
  draws := List.prefix_refl _
  unfinished := fun _ => rfl

theorem Resumed.took (h : l.Resumed l') (hle : l.draws.length ≤ l'.cursor) : l.Took l' :=
  ⟨h.runs, List.prefix_take_iff.2 ⟨h.draws, hle⟩⟩

theorem Resumed.draw (h : l.Resumed l') {kind : DrawKind} {bound v : Nat} {g g' : Option Pcg}
    {l'' : Level} (hdraw : l'.draw kind bound g = .ok (v, l'', g')) : l.Resumed l'' := by
  unfold Level.draw at hdraw
  split at hdraw
  · simp at hdraw
  · split at hdraw
    · next d hd =>
      split at hdraw
      · obtain ⟨-, rfl, -⟩ : d.value = v ∧ { l' with cursor := l'.cursor + 1 } = l'' ∧ g = g' := by
          simpa using hdraw
        have hlt := (List.getElem?_eq_some_iff.1 hd).1
        exact ⟨h.runs, hlt, h.draws, fun hcursor => h.unfinished (Nat.lt_of_succ_lt hcursor)⟩
      · simp at hdraw
    · next hend =>
      obtain ⟨-, rfl, -⟩ : _ = v ∧ l'.record ⟨kind, _⟩ = l'' ∧ _ = g' := by simpa using hdraw
      have hall : l'.draws.length ≤ l'.cursor := List.getElem?_eq_none_iff.1 hend
      have := h.draws.length_le
      refine ⟨h.runs, ?_, h.draws.trans (List.prefix_append _ _), fun hcursor => ?_⟩
      · simpa [record] using h.cursor_le
      · simp only [record] at hcursor
        omega

/-- Where a step to the next combination is made, the last value becomes true; where there is none,
nothing is left. -/
theorem of_flipLast : ∀ {draws kept : List Draw} {flipped : Bool},
    flipLast draws = (kept, .ok flipped) →
      if flipped then ∃ rest, kept = .ofBool true :: rest else kept = []
  | [], kept, flipped, h => by
    obtain ⟨rfl, rfl⟩ : [] = kept ∧ false = flipped := by simpa [flipLast] using h
    simp
  | d :: rest, kept, flipped, h => by
    unfold flipLast at h
    split at h
    · simp at h
    · next hkind =>
      split at h
      · obtain ⟨rfl, rfl⟩ : { d with value := 1 } :: rest = kept ∧ true = flipped := by
          simpa using h
        have hbool : d.kind = .bool := by simpa using hkind
        exact ⟨rest, by simp [Draw.ofBool, hbool]⟩
      · exact of_flipLast h

/-- A level goes on only if all its draws were replayed. -/
theorem advance_of_cursor_ne (h : l.cursor ≠ l.draws.length) :
    l.advance = (l, .error (.drawsLeft l.cursor l.draws.length)) := by
  simp [advance, flipDraws, h]

/-- A level that goes on has an alternative. -/
theorem poised_of_advance (hsome : l.selected.isSome) (h : l.advance = (l', .ok true)) :
    l'.Poised := by
  unfold advance at h
  split at h
  · next m hflip =>
    split at h
    · next l₀ hretire =>
      obtain ⟨rfl, hleft⟩ : l₀ = l' ∧ l₀.exhausted = false := by simpa using h
      have hawake : ∃ e ∈ l₀.entries, e.awake := by
        have hnot : ¬ l₀.exhausted := by simp [hleft]
        simpa [exhausted_iff] using hnot
      have hdraws : m.draws = [] ∧ m.cursor = 0 := by
        unfold flipDraws at hflip
        split at hflip
        · simp at hflip
        · obtain ⟨rfl, hlast⟩ := Prod.mk.inj hflip
          have := of_flipLast (Prod.ext rfl hlast)
          simpa using this
      obtain ⟨t, -, rfl⟩ := exists_of_retire hretire
      exact ⟨hdraws.2, .inl ⟨rfl, hdraws.1, hawake⟩⟩
    · simp at h
  · unfold flipDraws at h
    split at h
    · simp at h
    · obtain ⟨rfl, hlast⟩ := Prod.mk.inj h
      obtain ⟨rest, hrest⟩ : ∃ rest, (flipLast l.draws.reverse).1 = .ofBool true :: rest := by
        simpa using of_flipLast (Prod.ext rfl hlast)
      exact ⟨rfl, .inr ⟨hsome, rest.reverse, by simp [hrest]⟩⟩

end Level

/-! ## Schedules -/

namespace Schedule

variable {s t u : Schedule} {n : Nat} {l : Level}

/-- The second schedule differs from the first one at most in the level visited last. -/
structure Retouched (s t : Schedule) : Prop where
  visited : t.visited = s.visited
  randomized : t.randomized = s.randomized
  length : t.levels.length = s.levels.length
  getElem? : ∀ k, k + 1 ≠ s.visited → t.levels[k]? = s.levels[k]?

theorem Retouched.refl (s : Schedule) : s.Retouched s := ⟨rfl, rfl, rfl, fun _ _ => rfl⟩

theorem Retouched.trans (h : s.Retouched t) (h' : t.Retouched u) : s.Retouched u where
  visited := h'.visited.trans h.visited
  randomized := h'.randomized.trans h.randomized
  length := h'.length.trans h.length
  getElem? k hk := (h'.getElem? k (h.visited ▸ hk)).trans (h.getElem? k hk)

theorem retouched_modifyTop (s : Schedule) (f : Level → Level) : s.Retouched (s.modifyTop f) := by
  cases hvisited : s.visited with
  | zero => simpa [modifyTop, hvisited, modifyLevel] using Retouched.refl s
  | succ position =>
    rw [modifyTop, hvisited]
    refine ⟨rfl, rfl, List.length_modify .., fun k hk => ?_⟩
    exact List.getElem?_modify_ne f s.levels (by omega)

theorem onTop_retouches {α : Type} (f : Level → Except Fault (α × Level)) :
    (onTop f).Ensures s fun _ t => s.Retouched t := by
  refine (yields_get s).bind_ensures (bind_lift_ensures fun _ _ => bind_lift_ensures fun _ _ => ?_)
  exact (yields_set _ _).bind_ensures (ensures_pure (s.retouched_modifyTop _))

theorem inheritSleep_retouches : inheritSleep.Ensures s fun _ t => s.Retouched t := by
  refine (yields_get s).bind_ensures ?_
  split
  · exact ensures_pure (.refl s)
  · refine bind_lift_ensures fun _ _ => bind_lift_ensures fun _ _ => ?_
    exact (yields_notify _ _).bind_ensures ((yields_set _ _).ensures (s.retouched_modifyTop _))

/-- An iteration on its way to the level `l` at position `n`, of which it is to take the
alternative, or past it. -/
inductive Nears (n : Nat) (l : Level) (s : Schedule) : Prop
  | ahead : s.visited ≤ n → s.levels.length = n + 1 → s.levels[n]? = some l → Nears n l s
  | there {l' : Level} : n < s.visited → s.levels[n]? = some l' → l.Resumed l' → Nears n l s

/-- Other levels do not matter. -/
theorem Nears.retouched (h : s.Nears n l) (hst : s.Retouched t) (hn : n + 1 ≠ s.visited) :
    t.Nears n l := by
  cases h with
  | ahead hv hlength hl =>
    exact .ahead (hst.visited ▸ hv) (hst.length.trans hlength) ((hst.getElem? n hn).trans hl)
  | there hv hl hresumed =>
    exact .there (hst.visited ▸ hv) ((hst.getElem? n hn).trans hl) hresumed

/-- The next level is another one, or it is the level with the alternative, which is replayed. -/
theorem Nears.push (h : s.Nears n l) (snapshot : Snapshot) :
    (push snapshot).Ensures s fun added t => t.randomized = s.randomized ∧
      (t.Nears n l ∧ n + 1 ≠ t.visited ∨
        added = false ∧ t.visited = n + 1 ∧ t.levels[n]? = some l) := by
  cases h with
  | ahead hv hlength hl =>
    refine push_ensures (fun hnone _ => ?_) fun _ _ => ⟨rfl, ?_⟩
    · have := List.getElem?_eq_none_iff.1 hnone
      omega
    · rcases Nat.eq_or_lt_of_le hv with hv | hv
      · exact .inr ⟨rfl, congrArg (· + 1) hv, hl⟩
      · refine .inl ⟨.ahead hv hlength hl, ?_⟩
        change n + 1 ≠ s.visited + 1
        omega
  | @there l' hv hl hresumed =>
    have hne : n + 1 ≠ s.visited + 1 := by omega
    refine push_ensures (fun _ _ => ⟨rfl, .inl ⟨.there (Nat.lt_succ_of_lt hv) ?_ hresumed, hne⟩⟩)
      fun _ _ => ⟨rfl, .inl ⟨.there (Nat.lt_succ_of_lt hv) hl hresumed, hne⟩⟩
    rwa [List.getElem?_append_left (List.getElem?_eq_some_iff.1 hl).1]

/-! ### Going back -/

/-- In depth-first mode the schedule goes back over its levels. -/
theorem rewind_drops (h : s.randomized = false) :
    rewind.Ensures s fun _ t => t.randomized = false ∧ t.visited = 0 ∧
      dropExplored (dropUnselected s.levels.reverse) = (t.levels.reverse, .ok ()) := by
  rintro _ t ⟨notices, ht⟩
  unfold rewind at ht
  rw [if_neg (by simp [h])] at ht
  split at ht
  · next kept hkept =>
    obtain ⟨-, rfl, -⟩ := Outcome.mk.inj ht
    exact ⟨h, rfl, by simpa using hkept⟩
  · simp at ht

/-- A level with draws that were not replayed is kept with all below it, and only under another one
that has an alternative. -/
theorem dropExplored_of_cursor_ne {m : Level} (hm : m.cursor ≠ m.draws.length)
    {below kept : List Level} : ∀ {above : List Level},
      dropExplored (above ++ m :: below) = (kept, .ok ()) →
        ∃ rest, kept = rest ++ m :: below ∧ rest ≠ [] ∧ rest.length ≤ above.length
  | [], h => by
    rw [List.nil_append, dropExplored, Level.advance_of_cursor_ne hm] at h
    simp at h
  | a :: above, h => by
    rw [List.cons_append, dropExplored] at h
    split at h
    · obtain ⟨rest, hkept, hne, hlength⟩ := dropExplored_of_cursor_ne hm h
      exact ⟨rest, hkept, hne, hlength.trans (Nat.le_succ _)⟩
    · next a' _ =>
      exact ⟨a' :: above, by simpa using (congrArg Prod.fst h).symm, by simp, le_rfl⟩
    · simp at h

theorem length_le_of_dropExplored {levels kept : List Level}
    (h : dropExplored levels = (kept, .ok ())) : kept.length ≤ levels.length := by
  rcases of_dropExplored h with rfl | ⟨dropped, l, l', rest, rfl, rfl, -⟩
  · exact Nat.zero_le _
  · simp

/-- The last level is dropped where it has no selection. -/
theorem dropUnselected_of_none {levels : List Level} {m : Level} (hm : levels.getLast? = some m)
    (hnone : m.selected = none) :
    dropUnselected levels.reverse = levels.dropLast.reverse := by
  conv_lhs => rw [← List.dropLast_append_getLast? m hm]
  simp [dropUnselected, hnone]

/-- Only the first level may be dropped because it has no selection. -/
theorem exists_dropUnselected_append {m : Level} (hm : m.selected.isSome)
    (above below : List Level) :
    ∃ above', dropUnselected (above ++ m :: below) = above' ++ m :: below ∧
      above'.length ≤ above.length := by
  cases above with
  | nil =>
    refine ⟨[], ?_, le_rfl⟩
    have : m.selected ≠ none := Option.isSome_iff_ne_none.1 hm
    simp [dropUnselected, this]
  | cons a above =>
    by_cases ha : a.selected.isNone
    · exact ⟨above, by simp [dropUnselected, ha], Nat.le_succ _⟩
    · exact ⟨a :: above, by simp [dropUnselected, ha], le_rfl⟩

/-- Going back, the schedule keeps a level with draws that were not replayed. -/
theorem getElem?_of_cursor_ne {levels kept : List Level} {m : Level} (hm : levels[n]? = some m)
    (hcursor : m.cursor ≠ m.draws.length) (hsome : m.selected.isSome)
    (h : dropExplored (dropUnselected levels.reverse) = (kept.reverse, .ok ())) :
    kept[n]? = some m ∧ n + 1 < kept.length ∧ kept.length ≤ levels.length := by
  obtain ⟨below, above, rfl, rfl⟩ : ∃ below above, levels = below ++ m :: above ∧
      below.length = n := by
    obtain ⟨hn, rfl⟩ := List.getElem?_eq_some_iff.1 hm
    refine ⟨levels.take n, levels.drop (n + 1), ?_, List.length_take_of_le hn.le⟩
    rw [List.getElem_cons_drop, List.take_append_drop]
  obtain ⟨above', habove, hlength⟩ :=
    exists_dropUnselected_append hsome above.reverse below.reverse
  have hreverse : (below ++ m :: above).reverse = above.reverse ++ m :: below.reverse := by simp
  rw [hreverse, habove] at h
  obtain ⟨rest, hrest, hne, hle⟩ := dropExplored_of_cursor_ne hcursor h
  obtain rfl : kept = below ++ m :: rest.reverse := by
    rw [← List.reverse_reverse kept, hrest]
    simp
  have hpos := List.length_pos_iff.2 hne
  rw [List.length_reverse] at hlength
  refine ⟨by simp, ?_, ?_⟩ <;>
    simp only [List.length_append, List.length_cons, List.length_reverse] <;> omega

/-- Where all levels but the last are decided, those that are left have a selection. -/
theorem Decided.dropUnselected (h : s.Decided) :
    ∀ l ∈ dropUnselected s.levels.reverse, l.selected.isSome := by
  rcases List.eq_nil_or_concat s.levels with hnil | ⟨below, last, hlevels⟩
  · simp [hnil, Schedule.dropUnselected]
  · have hbelow : ∀ l ∈ below, l.selected.isSome := by
      intro l hl
      obtain ⟨k, hk⟩ := List.mem_iff_getElem?.1 hl
      have hlt := (List.getElem?_eq_some_iff.1 hk).1
      refine h k l ?_ (by simpa [size, hlevels] using hlt)
      rw [hlevels, List.concat_eq_append, List.getElem?_append_left hlt, hk]
    intro l hl
    cases hlast : last.selected with
    | none => exact hbelow l (by simpa [hlevels, Schedule.dropUnselected, hlast] using hl)
    | some t =>
      have : l = last ∨ l ∈ below := by
        simpa [hlevels, Schedule.dropUnselected, hlast] using hl
      rcases this with rfl | hl
      · simp [hlast]
      · exact hbelow l hl

end Schedule

end Interleaving
