import Interleaving.Proofs.Consistency

/-!
# Why a thread is asleep

A thread is put to sleep where it was selected when an iteration ended, and a new level takes over
the sleep of the level below it. So every sleep has a cause: some iteration ended with the thread
selected, under the selections that are there now, and from that level up it stays asleep because
nothing was selected that its operations depend on.

## Main definitions

* `Level.outline` — what the causes of sleep depend on.
* `PutToSleep`, `StaysAsleep`, `Justified` — how a thread comes to be asleep at a level.
* `Explained` — every sleep at the levels has such a cause.
* `Trims`, `Retires` — what the calls do to the levels.

## Main statements

* `Explained.snoc`, `Explained.inheritSleep`, `Explained.select`, `Explained.trims`,
  `Explained.retire` — every change of the levels leaves every sleep with a cause.
* `Justified.exists_ended` — a cause, told as a level and those above it.
-/

namespace Interleaving

open Interleaving.Action

/-! ## Outlines -/

namespace Level

/-- The operations of a level, which of them are asleep, and the selection. -/
def outline (l : Level) : List (Pending × Bool) × Option ThreadId :=
  (l.entries.map fun e => (e.toPending, e.asleep), l.selected)

variable {l l' : Level}

theorem outline_eq (hselected : l'.selected = l.selected)
    (hentries : ∀ i : Nat, (l'.entries[i]?).map (fun e => (e.toPending, e.asleep)) =
      (l.entries[i]?).map fun e => (e.toPending, e.asleep)) : l'.outline = l.outline := by
  refine Prod.ext (List.ext_getElem? fun i => ?_) hselected
  simpa [outline] using hentries i

theorem selected_of_outline (h : l'.outline = l.outline) : l'.selected = l.selected :=
  congrArg Prod.snd h

theorem exists_of_outline (h : l'.outline = l.outline) {i : Nat} {e : Entry}
    (he : l.entries[i]? = some e) :
    ∃ e', l'.entries[i]? = some e' ∧ e'.toPending = e.toPending ∧ e'.asleep = e.asleep := by
  have hi := congrArg (·[i]?) (congrArg Prod.fst h)
  simp only [outline, List.getElem?_map, he, Option.map_some, Option.map_eq_some_iff,
    Prod.mk.injEq] at hi
  exact hi

theorem Remarked.outline_eq (h : l.Remarked l') : l'.outline = l.outline := by
  refine Level.outline_eq h.selected fun i => ?_
  rcases h.entries i with hi | ⟨e, he, hi⟩
  · rw [hi]
  · simp [he, hi, Entry.mark]

/-- The second level shows the operations of the first and has its selection. What is asleep at the
first one is asleep at the second. -/
structure Sleepier (l l' : Level) : Prop where
  selected : l'.selected = l.selected
  entries : ∀ (i : Nat) (e : Entry), l.entries[i]? = some e →
    ∃ e', l'.entries[i]? = some e' ∧ e'.toPending = e.toPending ∧ (e.asleep → e'.asleep)

theorem Sleepier.refl (l : Level) : l.Sleepier l := ⟨rfl, fun _ e he => ⟨e, he, rfl, id⟩⟩

theorem sleepier_of_outline (h : l'.outline = l.outline) : l.Sleepier l' := by
  refine ⟨selected_of_outline h, fun i e he => ?_⟩
  obtain ⟨e', he', hpending, hasleep⟩ := exists_of_outline h he
  exact ⟨e', he', hpending, fun h => hasleep.trans h⟩

theorem sleepier_putToSleep (l : Level) (positions : List Nat) :
    l.Sleepier (l.putToSleep positions) := by
  refine ⟨rfl, fun i e he => ?_⟩
  rw [getElem?_putToSleep, he]
  by_cases hi : i ∈ positions
  · exact ⟨e.putToSleep, by simp [hi], rfl, fun _ => rfl⟩
  · exact ⟨e, by simp [hi], rfl, id⟩

end Level

/-! ## Causes of sleep -/

/-- The thread `t` is asleep at level `i`. -/
def Dozes (G : List Level) (i : Nat) (t : ThreadId) : Prop :=
  ∃ l e, G[i]? = some l ∧ l.entries[t]? = some e ∧ e.asleep

/-- The thread `t` was awake and selected at level `j` of the levels `U`. It is asleep there in `V`,
where that level is the last one, and nothing is selected any more. -/
structure PutToSleep (U V : List Level) (j : Nat) (t : ThreadId) : Prop where
  selected : ∃ l e, U[j]? = some l ∧ l.selected = some t ∧ l.entries[t]? = some e ∧
    e.asleep = false
  asleep : ∃ l e, V[j]? = some l ∧ l.selected = none ∧ l.entries[t]? = some e ∧ e.asleep
  last : V.length = j + 1

/-- The thread `t` is asleep at level `k`, where another one is selected whose operation its own
does not depend on. -/
def StaysAsleep (G : List Level) (k : Nat) (t : ThreadId) : Prop :=
  ∃ l e u executed, G[k]? = some l ∧ l.entries[t]? = some e ∧ e.asleep ∧ l.selected = some u ∧
    u ≠ t ∧ l.entries[u]? = some executed ∧ e.toPending.dependent executed.toPending = false

/-- The selection at level `k`, if there is one. -/
def selectionAt (G : List Level) (k : Nat) : Option ThreadId := G[k]?.bind (·.selected)

/-- How the thread `t` comes to be asleep at a level: it was put to sleep there when an iteration
ended, under the same selections, or it is asleep at the level below and stays so. `Ended U V` says
that an iteration ended with the levels `U` and left the levels `V`. -/
inductive Justified (Ended : List Level → List Level → Prop) (G : List Level) (t : ThreadId) :
    Nat → Prop
  | ended {j : Nat} {U V : List Level} : Ended U V → PutToSleep U V j t →
      (∀ k < j, selectionAt G k = selectionAt U k) → Justified Ended G t j
  | inherited {i : Nat} : Justified Ended G t i → StaysAsleep G i t → Justified Ended G t (i + 1)

/-- Every sleep at the levels has a cause. -/
def Explained (Ended : List Level → List Level → Prop) (G : List Level) : Prop :=
  ∀ i t, Dozes G i t → Justified Ended G t i

/-- Below level `i` the second levels are as the first ones, with more sleep perhaps. -/
def SleepierBelow (i : Nat) (G G' : List Level) : Prop :=
  ∀ k < i, ∃ l l', G[k]? = some l ∧ G'[k]? = some l' ∧ l.Sleepier l'

/-- The second levels are the beginning of the first ones, perhaps with other marks and draws. -/
def Trims (G G' : List Level) : Prop := G'.map Level.outline <+: G.map Level.outline

/-- The second levels are the first ones up to some level, where the thread that was selected is put
to sleep. -/
def Retires (G G' : List Level) : Prop :=
  ∃ p l u l', G[p]? = some l ∧ l.selected = some u ∧ l'.selected = none ∧
    l'.entries = (l.modifyEntry u Entry.putToSleep).entries ∧ G' = G.take p ++ [l']

namespace Trims

variable {G G' G'' : List Level}

theorem refl (G : List Level) : Trims G G := List.prefix_rfl

theorem trans (h : Trims G G') (h' : Trims G' G'') : Trims G G'' := List.IsPrefix.trans h' h

theorem take (G : List Level) (n : Nat) : Trims G (G.take n) := (List.take_prefix n G).map _

theorem nil (G : List Level) : Trims G [] := List.nil_prefix

theorem of_eq (h : G'.map Level.outline = G.map Level.outline) : Trims G G' := by
  rw [Trims, h]

theorem set {p : Nat} {l l' : Level} (hl : G[p]? = some l) (h : l'.outline = l.outline) :
    Trims G (G.set p l') := by
  obtain ⟨hp, rfl⟩ := List.getElem?_eq_some_iff.1 hl
  have hsame : G.map Level.outline = (G.map Level.outline).set p l'.outline := by
    rw [h, ← List.map_set, List.set_getElem_self]
  exact of_eq (by rw [List.map_set, ← hsame])

theorem takeSnoc {p : Nat} {l l' : Level} (hl : G[p]? = some l) (h : l'.outline = l.outline) :
    Trims G (G.take p ++ [l']) := by
  have hsame : (G.take (p + 1)).map Level.outline = (G.take p ++ [l']).map Level.outline := by
    rw [List.take_add_one, hl, List.map_append, List.map_append, Option.toList_some,
      List.map_singleton, List.map_singleton, h]
  exact (take G (p + 1)).trans (of_eq hsame.symm)

theorem exists_level (h : Trims G G') {k : Nat} {l' : Level} (hl' : G'[k]? = some l') :
    ∃ l, G[k]? = some l ∧ l'.outline = l.outline := by
  obtain ⟨hk, rfl⟩ := List.getElem?_eq_some_iff.1 hl'
  have hout := List.prefix_iff_getElem?.1 h k (by simpa using hk)
  rw [List.getElem?_map, List.getElem_map, Option.map_eq_some_iff] at hout
  obtain ⟨l, hl, hout⟩ := hout
  exact ⟨l, hl, hout.symm⟩

end Trims

section Causes

variable {Ended Ended' : List Level → List Level → Prop} {G G' : List Level} {i k : Nat}
  {t : ThreadId}

theorem Dozes.lt_length (h : Dozes G i t) : i < G.length := by
  obtain ⟨l, -, hl, -⟩ := h
  exact (List.getElem?_eq_some_iff.1 hl).1

theorem sleepierBelow_of_eq (hi : i ≤ G.length) (h : ∀ k < i, G'[k]? = G[k]?) :
    SleepierBelow i G G' := by
  intro k hk
  have hl := List.getElem?_eq_getElem (hk.trans_le hi)
  exact ⟨_, _, hl, (h k hk).trans hl, .refl _⟩

theorem SleepierBelow.selectionAt (h : SleepierBelow i G G') (hk : k < i) :
    selectionAt G' k = selectionAt G k := by
  obtain ⟨l, l', hl, hl', hsleepier⟩ := h k hk
  simp [Interleaving.selectionAt, hl, hl', hsleepier.selected]

theorem SleepierBelow.staysAsleep (h : SleepierBelow i G G') (hk : k < i)
    (hstays : StaysAsleep G k t) : StaysAsleep G' k t := by
  obtain ⟨l, e, u, executed, hl, he, hasleep, hu, hne, hexecuted, hindependent⟩ := hstays
  obtain ⟨m, l', hm, hl', hsleepier⟩ := h k hk
  obtain rfl : l = m := by simpa [hl] using hm
  obtain ⟨e', he', hpending, hkept⟩ := hsleepier.entries t e he
  obtain ⟨f, hf, hf', -⟩ := hsleepier.entries u executed hexecuted
  refine ⟨l', e', u, f, hl', he', hkept hasleep, hsleepier.selected.trans hu, hne, hf, ?_⟩
  rwa [hpending, hf']

/-- A cause stays one whatever changes at the level and above. -/
theorem Justified.mono (h : Justified Ended G t i) (hbelow : SleepierBelow i G G') :
    Justified Ended G' t i := by
  induction h with
  | ended hended hput hselections =>
    exact .ended hended hput fun k hk => (hbelow.selectionAt hk).trans (hselections k hk)
  | @inherited i _ hstays ih =>
    exact .inherited (ih fun k hk => hbelow k (Nat.lt_succ_of_lt hk))
      (hbelow.staysAsleep (Nat.lt_succ_self i) hstays)

theorem Justified.imp (h : Justified Ended G t i) (hEnded : ∀ U V, Ended U V → Ended' U V) :
    Justified Ended' G t i := by
  induction h with
  | ended hended hput hselections => exact .ended (hEnded _ _ hended) hput hselections
  | inherited _ hstays ih => exact .inherited ih hstays

/-- A thread that is asleep was put to sleep at some level up to there, and stays asleep from that
level on. -/
theorem Justified.exists_ended (h : Justified Ended G t i) : ∃ j ≤ i,
    (∃ U V, Ended U V ∧ PutToSleep U V j t ∧ ∀ k < j, selectionAt G k = selectionAt U k) ∧
      ∀ k, j ≤ k → k < i → StaysAsleep G k t := by
  induction h with
  | @ended j U V hended hput hselections =>
    exact ⟨j, le_rfl, ⟨U, V, hended, hput, hselections⟩, fun k hle hlt => absurd hle (by omega)⟩
  | @inherited i _ hstays ih =>
    obtain ⟨j, hj, hended, hchain⟩ := ih
    refine ⟨j, Nat.le_succ_of_le hj, hended, fun k hle hlt => ?_⟩
    rcases Nat.lt_succ_iff_lt_or_eq.1 hlt with hlt | rfl
    · exact hchain k hle hlt
    · exact hstays

namespace Explained

theorem nil : Explained Ended [] := by
  rintro i t ⟨l, -, hl, -⟩
  simp at hl

theorem imp (h : Explained Ended G) (hEnded : ∀ U V, Ended U V → Ended' U V) :
    Explained Ended' G :=
  fun i t hdozes => (h i t hdozes).imp hEnded

/-- No sleep is new, and what lies below it is as before. -/
theorem of_old (h : Explained Ended G)
    (hold : ∀ i t, Dozes G' i t → Dozes G i t ∧ SleepierBelow i G G') : Explained Ended G' :=
  fun i t hdozes => (h i t (hold i t hdozes).1).mono (hold i t hdozes).2

theorem trims (h : Explained Ended G) (htrims : Trims G G') : Explained Ended G' := by
  refine h.of_old fun i t hdozes => ⟨?_, fun k hk => ?_⟩
  · obtain ⟨l', e', hl', he', hasleep⟩ := hdozes
    obtain ⟨l, hl, hout⟩ := htrims.exists_level hl'
    obtain ⟨e, he, -, hsame⟩ := Level.exists_of_outline hout.symm he'
    exact ⟨l, e, hl, he, hsame.trans hasleep⟩
  · have hl' := List.getElem?_eq_getElem (hk.trans hdozes.lt_length)
    obtain ⟨l, hl, hout⟩ := htrims.exists_level hl'
    exact ⟨l, _, hl, hl', Level.sleepier_of_outline hout⟩

/-- A level is added where nothing is asleep. -/
theorem snoc (h : Explained Ended G) {l : Level} (hl : ∀ e ∈ l.entries, e.asleep = false) :
    Explained Ended (G ++ [l]) := by
  refine h.of_old fun i t hdozes => ?_
  obtain ⟨m, e, hm, he, hasleep⟩ := hdozes
  rcases of_getElem?_snoc hm with hm | ⟨-, rfl⟩
  · have hi := (List.getElem?_eq_some_iff.1 hm).1
    refine ⟨⟨m, e, hm, he, hasleep⟩, sleepierBelow_of_eq hi.le fun k hk => ?_⟩
    exact List.getElem?_append_left (hk.trans hi)
  · simp [hl e (List.mem_of_getElem? he)] at hasleep

/-- A level is changed, and every thread that is asleep there has a cause. -/
theorem set (h : Explained Ended G) {p : Nat} {l l' : Level} (hl : G[p]? = some l)
    (hsleepier : l.Sleepier l' ∨ p + 1 = G.length)
    (hnew : ∀ t e, l'.entries[t]? = some e → e.asleep → Justified Ended (G.set p l') t p) :
    Explained Ended (G.set p l') := by
  have hlt := (List.getElem?_eq_some_iff.1 hl).1
  intro i t hdozes
  have hi := hdozes.lt_length
  rw [List.length_set] at hi
  obtain ⟨m, e, hm, he, hasleep⟩ := hdozes
  by_cases hp : p = i
  · subst hp
    obtain rfl : l' = m := by simpa [hlt] using hm
    exact hnew t e he hasleep
  · rw [List.getElem?_set_ne hp] at hm
    refine (h i t ⟨m, e, hm, he, hasleep⟩).mono fun k hk => ?_
    have hk' := List.getElem?_eq_getElem (hk.trans hi)
    by_cases hkp : p = k
    · subst hkp
      rcases hsleepier with hsleepier | hlast
      · exact ⟨l, l', hl, by simp [hlt], hsleepier⟩
      · omega
    · exact ⟨_, _, hk', (List.getElem?_set_ne hkp).trans hk', .refl _⟩

/-- A thread is selected at the last level. -/
theorem select (h : Explained Ended G) {p : Nat} {l : Level} (hl : G[p]? = some l)
    (hlast : p + 1 = G.length) (u : ThreadId) :
    Explained Ended (G.set p { l with selected := some u }) := by
  refine h.set hl (.inr hlast) fun t e he hasleep => ?_
  refine (h p t ⟨l, e, hl, he, hasleep⟩).mono (sleepierBelow_of_eq (by omega) fun k hk => ?_)
  exact List.getElem?_set_ne (by omega)

/-- A level takes over the sleep of the one below it. -/
theorem inheritSleep (h : Explained Ended G) {p : Nat} {below top : Level} {u : ThreadId}
    {executed : Entry} (hbelow : G[p]? = some below) (hu : below.selected = some u)
    (hexecuted : below.entries[u]? = some executed) (hawake : executed.asleep = false)
    (htop : G[p + 1]? = some top) :
    Explained Ended (G.set (p + 1) (top.putToSleep (Schedule.sleepers below executed))) := by
  have hp := (List.getElem?_eq_some_iff.1 htop).1
  have hold : SleepierBelow (p + 1) G
      (G.set (p + 1) (top.putToSleep (Schedule.sleepers below executed))) :=
    sleepierBelow_of_eq hp.le fun k hk => List.getElem?_set_ne (by omega)
  refine h.set htop (.inl (top.sleepier_putToSleep _)) fun t e he hasleep => ?_
  rw [Level.getElem?_putToSleep, Option.map_eq_some_iff] at he
  obtain ⟨f, hf, rfl⟩ := he
  by_cases ht : t ∈ Schedule.sleepers below executed
  · obtain ⟨g, hg, hdozes, hindependent⟩ := mem_sleepers.1 ht
    have hne : u ≠ t := by
      rintro rfl
      obtain rfl : executed = g := by simpa [hexecuted] using hg
      simp [hawake] at hdozes
    have hstays : StaysAsleep G p t :=
      ⟨below, g, u, executed, hbelow, hg, hdozes, hu, hne, hexecuted, hindependent⟩
    refine .inherited ((h p t ⟨below, g, hbelow, hg, hdozes⟩).mono fun k hk =>
      hold k (Nat.lt_succ_of_lt hk)) (hold.staysAsleep (Nat.lt_succ_self p) hstays)
  · rw [if_neg ht] at hasleep
    exact (h (p + 1) t ⟨top, f, htop, hf, hasleep⟩).mono hold

/-- An iteration ends with the levels `U`. Of what the analysis left of them, those up to some level
are kept, and the thread that was selected there, which was awake, is put to sleep. -/
theorem retire (h : Explained Ended G) {U : List Level} (htrims : Trims U G)
    (hawake : ∀ (p : Nat) (l : Level) (u : ThreadId), G[p]? = some l → l.selected = some u →
      ∃ e, l.entries[u]? = some e ∧ e.asleep = false)
    (hretires : Retires G G') (hended : Ended U G') : Explained Ended G' := by
  obtain ⟨p, l, u, l', hl, hu, hselected, hentries, rfl⟩ := hretires
  have hp := (List.getElem?_eq_some_iff.1 hl).1
  have hlength : (G.take p).length = p := List.length_take_of_le hp.le
  have hkept {k : Nat} (hk : k < p) : (G.take p ++ [l'])[k]? = G[k]? := by
    rw [List.getElem?_append_left (by omega), List.getElem?_take_of_lt hk]
  have hlast : (G.take p ++ [l'])[p]? = some l' := by
    rw [List.getElem?_append_right hlength.le, hlength, Nat.sub_self, List.getElem?_cons_zero]
  have hold {i : Nat} (hi : i ≤ p) : SleepierBelow i G (G.take p ++ [l']) :=
    sleepierBelow_of_eq (by omega) fun k hk => hkept (by omega)
  intro i t hdozes
  obtain ⟨m, e, hm, he, hasleep⟩ := hdozes
  rcases of_getElem?_snoc hm with hm | ⟨rfl, rfl⟩
  · have hi := (List.getElem?_eq_some_iff.1 hm).1
    rw [hlength] at hi
    rw [List.getElem?_take_of_lt hi] at hm
    exact (h i t ⟨m, e, hm, he, hasleep⟩).mono (hold hi.le)
  · simp only [hlength] at hasleep ⊢
    rw [hentries, Level.getElem?_modifyEntry] at he
    by_cases ht : t = u
    · subst ht
      obtain ⟨l₀, hl₀, hout⟩ := htrims.exists_level hl
      obtain ⟨f, hf, hawake⟩ := hawake p l t hl hu
      obtain ⟨f₀, hf₀, -, hsame⟩ := Level.exists_of_outline hout.symm hf
      have hselected₀ : l₀.selected = some t := (Level.selected_of_outline hout).symm.trans hu
      have hput : PutToSleep U (G.take p ++ [m]) p t := by
        refine ⟨⟨l₀, f₀, hl₀, hselected₀, hf₀, hsame.trans hawake⟩,
          ⟨m, e, hlast, hselected, ?_, hasleep⟩, ?_⟩
        · rwa [hentries, Level.getElem?_modifyEntry]
        · rw [List.length_append, hlength, List.length_singleton]
      refine .ended hended hput fun k hk => ?_
      have hl₁ := List.getElem?_eq_getElem (hk.trans hp)
      obtain ⟨l₁, hl₁', hout₁⟩ := htrims.exists_level hl₁
      simpa [selectionAt, hkept hk, hl₁, hl₁'] using Level.selected_of_outline hout₁
    · simp only [if_neg ht, Option.map_id'] at he
      exact (h p t ⟨l, e, hl, he, hasleep⟩).mono (hold le_rfl)

end Explained

end Causes

end Interleaving
