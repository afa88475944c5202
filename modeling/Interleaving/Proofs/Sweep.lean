import Interleaving.Proofs.Iteration
import Interleaving.Proofs.Marks
import Interleaving.Scheduler.Iteration

/-!
# What an exploration achieves

An exploration goes through a tree of paths, alternative by alternative. A goal says what is to be
achieved below a path, and what is to be achieved at a level by the alternatives that were taken
there. If a goal is kept by each thing that an exploration does to its stack of levels, then it is
achieved for the whole tree when the stack has run empty. Besides, no path is gone twice.

## Main definitions

* `Goal`, `Goal.Kept`, `Goal.Lawful` — what is to be achieved, and that the exploration keeps it.
* `Goal.Sound` — a stack of levels beside whose course the goal is achieved.

## Main statements

* `Goal.Kept.growth` — an iteration keeps a stack sound.
* `Goal.Kept.dropExplored` — so does going back to the next alternative.
-/

namespace Interleaving

open Relation

/-- What is kept of an iteration: the path that the client went, and how it ended. -/
abbrev Record := List Answer × Ending

/-- What an exploration is to achieve with its iterations. -/
structure Goal where
  /-- With these iterations, the paths that go on from a path are done with. At the end of the
  path the threads at the given positions are asleep. -/
  Done : List Record → List Answer → List Nat → Prop
  /-- With these iterations, the alternatives at a level are done with whose threads are asleep.
  The level stands at the end of a path, where the threads at the given positions were asleep
  before. -/
  Swept : List Record → List Answer → List Nat → List Entry → Prop

namespace Goal

/-- What goes on from the course of a stack is done with. -/
def Clears (g : Goal) (rs : List Record) (G : List Level) : Prop :=
  g.Done rs (course G) (inherited G)

/-- What goes on from a level through threads that are asleep is done with. -/
def Sweeps (g : Goal) (rs : List Record) (below : List Level) (l : Level) : Prop :=
  g.Swept rs (course below) (inherited below) l.entries

/-- What goes on from a level through draws that were false before is done with. -/
def Draws (g : Goal) (rs : List Record) (below : List Level) (l : Level) : Prop :=
  ∀ t ds rest, l.selected = some t → l.draws = ds ++ .ofBool true :: rest →
    g.Done rs (course below ++ move t (below.length + 1) (ds ++ [.ofBool false]))
      (inherited (below ++ [l]))

/-- What an exploration does to its stack keeps the goal, apart from the analysis of a schedule. -/
structure Kept (g : Goal) {σ : Type} (S : Setting σ) : Prop where
  mono : ∀ {rs rs' : List Record} {p : List Answer} {z : List Nat}, rs ⊆ rs' → g.Done rs p z →
    g.Done rs' p z
  /-- A level is added where no iteration was before. -/
  fresh : ∀ {rs : List Record} {below : List Level} {choices : Snapshot} {current : ThreadId},
    S.Stands below → (∀ l ∈ below, l.selected.isSome) → Upward (g.Sweeps rs) below →
    S.request (course below) = .next choices current → (∀ r ∈ rs, ¬ course below <+: r.1) →
    g.Sweeps rs below (S.fresh below choices current)
  /-- Nothing goes on from where an iteration ended. -/
  leaf : ∀ {rs : List Record} {H G : List Level} {ending : Ending}, S.Stands G →
    S.Ends H G ending → Upward (g.Sweeps rs) G → g.Clears (rs ++ [(course H, ending)]) H
  /-- Both values of a draw were taken. -/
  draw : ∀ {rs : List Record} {p : List Answer} {z : List Nat}, S.Follows p →
    S.request p = .drawBool → g.Done rs (p ++ [.bool false]) z → g.Done rs (p ++ [.bool true]) z →
    g.Done rs p z
  /-- The thread selected at a level is put to sleep. -/
  retire : ∀ {rs : List Record} {below : List Level} {l : Level} {t : ThreadId} {e : Entry},
    S.Fits below l → l.selected = some t → l.entries[t]? = some e → g.Sweeps rs below l →
    g.Done rs (course below ++ [.run t (below.length + 1)]) (Schedule.sleepers l e) →
    g.Sweeps rs below (l.retired t)
  /-- All that is marked at a level is asleep. -/
  exhaust : ∀ {rs : List Record} {below : List Level} {l : Level}, S.Fits below l →
    (∃ e ∈ l.entries, e.marked) → l.exhausted → g.Sweeps rs below l → g.Clears rs below

/-- The analysis of a schedule ends well, and keeps the goal, too. -/
structure Lawful (g : Goal) {σ : Type} (S : Setting σ) : Prop extends g.Kept S where
  /-- An iteration comes to an end and is analysed. -/
  analyse : ∀ {rs : List Record} {s : Scheduler} {H G : List Level} {ending : Ending},
    S.Governs s → S.Stands G → S.Ends H G ending → Upward (g.Sweeps rs) G →
    ∃ s' G', Scheduler.analyse.Yields (s.on G G.length) () (s'.on G' G'.length) ∧ S.Governs s' ∧
      S.Marks G G' ∧ Upward (g.Sweeps (rs ++ [(course H, ending)])) G'

/-- The stack stands, and what was to be achieved beside its course is. -/
structure Sound (g : Goal) {σ : Type} (S : Setting σ) (rs : List Record) (G : List Level) :
    Prop where
  stands : S.Stands G
  swept : Upward (g.Sweeps rs) G
  drawn : Upward (g.Draws rs) G
  passed : ∀ r ∈ rs, Passed G r.1

theorem draws_nil {g : Goal} {rs : List Record} {below : List Level} {l : Level}
    (h : l.draws = []) : g.Draws rs below l := by
  intro t ds rest _ hd
  simp [h] at hd

theorem Draws.mono {g : Goal} {σ : Type} {S : Setting σ} (kept : g.Kept S)
    {rs rs' : List Record} (h : rs ⊆ rs') {below : List Level} {l : Level}
    (hl : g.Draws rs below l) : g.Draws rs' below l :=
  fun t ds rest ht hd => kept.mono h (hl t ds rest ht hd)

namespace Kept

variable {g : Goal} {σ : Type} {S : Setting σ} {rs : List Record} {n : Nat}

/-- One growth of the stack keeps it sound. -/
theorem growth (kept : g.Kept S) (tame : S.Tame n) {G G' : List Level} (step : Growth S G G')
    (h : g.Sound S rs G) : g.Sound S rs G' := by
  have stands := step.stands tame h.stands
  have passed : ∀ r ∈ rs, Passed G' r.1 := fun r hr => step.passed (h.passed r hr)
  cases step with
  | push selected _ request =>
    refine ⟨stands, upward_snoc.2 ⟨h.swept, ?_⟩, upward_snoc.2 ⟨h.drawn, draws_nil (by simp)⟩,
      passed⟩
    exact kept.fresh h.stands selected h.swept request
      fun r hr => h.stands.not_course_isPrefix selected (h.passed r hr)
  | @select below l start t unselected first =>
    obtain ⟨hswept, hl⟩ := upward_snoc.1 h.swept
    obtain ⟨hdrawn, -⟩ := upward_snoc.1 h.drawn
    have hdraws := (upward_snoc.1 h.stands).2.undrawn unselected
    exact ⟨stands, upward_snoc.2 ⟨hswept, hl⟩, upward_snoc.2 ⟨hdrawn, draws_nil hdraws⟩, passed⟩
  | @draw below l t selected request =>
    obtain ⟨hswept, hl⟩ := upward_snoc.1 h.swept
    obtain ⟨hdrawn, hdl⟩ := upward_snoc.1 h.drawn
    refine ⟨stands, upward_snoc.2 ⟨hswept, hl⟩, upward_snoc.2 ⟨hdrawn, ?_⟩, passed⟩
    intro u ds rest hu hd
    -- the new draw is false, so the true one stands before it
    cases rest using List.reverseRecOn with
    | nil =>
      obtain ⟨-, hlast⟩ := List.append_inj' hd rfl
      simp [Draw.ofBool] at hlast
    | append_singleton rest d =>
      rw [Level.record, ← List.cons_append, ← List.append_assoc] at hd
      obtain ⟨hd, -⟩ := List.append_inj' hd rfl
      have hin : inherited (below ++ [l.record (.ofBool false)]) = inherited (below ++ [l]) := by
        simp only [inherited, List.getLast?_append, List.getLast?_singleton, Option.some_or]
        rfl
      rw [hin]
      exact hdl u ds rest hu hd

theorem growths (kept : g.Kept S) (tame : S.Tame n) {G G' : List Level}
    (steps : ReflTransGen (Growth S) G G') (h : g.Sound S rs G) : g.Sound S rs G' := by
  induction steps with
  | refl => exact h
  | tail _ step ih => exact kept.growth tame step ih

end Kept

/-! ## The next alternative -/

/-- A stack of selected levels that are done with: what goes on from its course is, too. -/
structure Cleared (g : Goal) {σ : Type} (S : Setting σ) (rs : List Record) (H : List Level) :
    Prop where
  stands : S.Stands H
  selected : ∀ l ∈ H, l.selected.isSome
  swept : Upward (g.Sweeps rs) H
  drawn : Upward (g.Draws rs) H
  clears : g.Clears rs H
  behind : ∀ r ∈ rs, Passed H r.1 ∨ course H <+: r.1

namespace Cleared

variable {g : Goal} {σ : Type} {S : Setting σ} {rs : List Record} {below : List Level} {l : Level}
  {t : ThreadId}

/-- Where the last draws are true, what goes on from the draws before them is done with. -/
theorem done_of_true (kept : g.Kept S) (h : g.Cleared S rs (below ++ [l]))
    (ht : l.selected = some t) {ds trues : List Draw} (hd : l.draws = ds ++ trues)
    (htrue : ∀ d ∈ trues, d = .ofBool true) :
    g.Done rs (course below ++ move t (below.length + 1) ds) (inherited (below ++ [l])) := by
  have hfits := (upward_snoc.1 h.stands).2
  induction trues generalizing ds with
  | nil =>
    rw [List.append_nil] at hd
    rw [← hd, ← hfits.course_eq ht]
    exact h.clears
  | cons d trues ih =>
    obtain rfl := htrue d List.mem_cons_self
    have hT := @ih (ds ++ [.ofBool true]) (by simpa using hd)
      fun d hmem => htrue d (List.mem_cons_of_mem _ hmem)
    have hF := (upward_snoc.1 h.drawn).2 t ds trues ht hd
    rw [move_snoc, ← List.append_assoc] at hT hF
    exact kept.draw (hfits.follows_draw ht hd) (hfits.request_draw ht hd) hF hT

/-- The last false draw of the last level becomes true. -/
theorem flipped (kept : g.Kept S) (h : g.Cleared S rs (below ++ [l]))
    (ht : l.selected = some t) {ds trues : List Draw} (hd : l.draws = ds ++ .ofBool false :: trues)
    (htrue : ∀ d ∈ trues, d = .ofBool true) :
    g.Sound S rs (below ++ [(l.flipped ds).settle]) := by
  obtain ⟨hstands, hfits⟩ := upward_snoc.1 h.stands
  obtain ⟨hswept, hl⟩ := upward_snoc.1 h.swept
  obtain ⟨hdrawn, hdl⟩ := upward_snoc.1 h.drawn
  have hd' : l.draws = (ds ++ [.ofBool false]) ++ trues := by simpa using hd
  refine ⟨upward_snoc.2 ⟨hstands, hfits.flipped ht hd⟩, upward_snoc.2 ⟨hswept, hl⟩,
    upward_snoc.2 ⟨hdrawn, ?_⟩, fun r hr => passed_snoc.2 ?_⟩
  · intro u ds' rest hu hds
    obtain rfl : t = u := Option.some.inj (ht.symm.trans hu)
    have hin : inherited (below ++ [(l.flipped ds).settle]) = inherited (below ++ [l]) := by
      simp only [inherited, List.getLast?_append, List.getLast?_singleton, Option.some_or]
      rfl
    rw [hin]
    cases rest using List.reverseRecOn with
    | nil =>
      obtain ⟨rfl, -⟩ := List.append_inj' hds rfl
      exact h.done_of_true kept ht hd' htrue
    | append_singleton rest d =>
      rw [← List.cons_append, ← List.append_assoc] at hds
      obtain ⟨rfl, -⟩ := List.append_inj' hds rfl
      exact hdl t ds' (rest ++ .ofBool false :: trues) ht (by simpa using hd)
  -- what went through the false draw is passed now
  · have through (hp : course below ++ move t (below.length + 1) (ds ++ [.ofBool false]) <+: r.1) :
        PassedAt below (l.flipped ds).settle r.1 := .drawn ht rfl hp
    rcases h.behind r hr with hp | hp
    · refine (passed_snoc.1 hp).imp_right fun hp => ?_
      cases hp with
      | asleep _ he ha hp => exact .asleep (.inl (by simp [Level.flipped, ht])) he ha hp
      | @drawn u ds' rest hu hds hp =>
        obtain rfl : t = u := Option.some.inj (ht.symm.trans hu)
        rw [hd] at hds
        rcases List.append_eq_append_iff.1 hds with ⟨cs, rfl, hcs⟩ | ⟨cs, rfl, hcs⟩
        · cases cs with
          | nil => simp [Draw.ofBool] at hcs
          | cons c cs =>
            obtain ⟨rfl, -⟩ := List.cons.inj hcs
            refine through (List.IsPrefix.trans ?_ hp)
            simp [move]
        · cases cs with
          | nil => simp [Draw.ofBool] at hcs
          | cons c cs =>
            obtain ⟨rfl, -⟩ := List.cons.inj hcs
            have hnew : (l.flipped (ds' ++ .ofBool true :: cs)).settle.draws =
                ds' ++ .ofBool true :: (cs ++ [.ofBool true]) := by
              simp [Level.flipped, Level.settle]
            exact .drawn ht hnew hp
    · refine .inr (through (List.IsPrefix.trans ?_ hp))
      rw [hfits.course_eq ht, hd']
      simp [move]

/-- With all draws true, the thread selected at the last level is put to sleep. -/
theorem sweeps_retired (kept : g.Kept S) (h : g.Cleared S rs (below ++ [l]))
    (ht : l.selected = some t) (htrue : ∀ d ∈ l.draws, d = .ofBool true) :
    g.Sweeps rs below (l.retired t) := by
  have hfits := (upward_snoc.1 h.stands).2
  obtain ⟨e, he, -⟩ := hfits.awake t ht
  have hdone := h.done_of_true kept ht (List.nil_append l.draws).symm htrue
  rw [inherited_snoc ht he] at hdone
  exact kept.retire hfits ht he (upward_snoc.1 h.swept).2 hdone

theorem passedAt_retired (h : g.Cleared S rs (below ++ [l])) (ht : l.selected = some t)
    (hawake : ∃ e ∈ (l.retired t).entries, e.awake) {p : List Answer}
    (hp : PassedAt below l p ∨ course (below ++ [l]) <+: p) : PassedAt below (l.retired t) p := by
  have hfits := (upward_snoc.1 h.stands).2
  obtain ⟨e, he, -⟩ := hfits.awake t ht
  have through (hp : course below ++ [.run t (below.length + 1)] <+: p) :
      PassedAt below (l.retired t) p := by
    refine .asleep (.inr hawake) (e := e.putToSleep) ?_ rfl hp
    rw [Level.getElem?_retired, he, Option.map_some, if_pos rfl]
  rcases hp with hp | hp
  · cases hp with
    | @asleep u f _ hf ha hp =>
      have hu : (l.retired t).entries[u]? = some (if u = t then f.putToSleep else f) := by
        rw [Level.getElem?_retired, hf, Option.map_some]
      refine .asleep (.inr hawake) hu ?_ hp
      split
      · rfl
      · exact ha
    | @drawn u ds rest hu hd hp =>
      obtain rfl : t = u := Option.some.inj (ht.symm.trans hu)
      refine through (List.IsPrefix.trans ?_ hp)
      simp [move]
  · refine through (List.IsPrefix.trans ?_ hp)
    rw [hfits.course_eq ht]
    simp [move]

theorem retired (kept : g.Kept S) (h : g.Cleared S rs (below ++ [l]))
    (ht : l.selected = some t) (htrue : ∀ d ∈ l.draws, d = .ofBool true)
    (hawake : ∃ e ∈ (l.retired t).entries, e.awake) : g.Sound S rs (below ++ [l.retired t]) := by
  obtain ⟨hstands, hfits⟩ := upward_snoc.1 h.stands
  refine ⟨upward_snoc.2 ⟨hstands, hfits.retired t⟩,
    upward_snoc.2 ⟨(upward_snoc.1 h.swept).1, h.sweeps_retired kept ht htrue⟩,
    upward_snoc.2 ⟨(upward_snoc.1 h.drawn).1, draws_nil rfl⟩, fun r hr => passed_snoc.2 ?_⟩
  rcases h.behind r hr with hp | hp
  · exact (passed_snoc.1 hp).imp_right fun hp => h.passedAt_retired ht hawake (.inl hp)
  · exact .inr (h.passedAt_retired ht hawake (.inr hp))

/-- If nothing is left to explore then, the last level is dropped. -/
theorem dropped (kept : g.Kept S) (h : g.Cleared S rs (below ++ [l]))
    (ht : l.selected = some t) (htrue : ∀ d ∈ l.draws, d = .ofBool true)
    (hex : (l.retired t).exhausted) : g.Cleared S rs below := by
  obtain ⟨hstands, hfits⟩ := upward_snoc.1 h.stands
  obtain ⟨e, he, hawake⟩ := hfits.awake t ht
  have hmarked : ∃ e ∈ (l.retired t).entries, e.marked := by
    refine ⟨e.putToSleep, List.mem_iff_getElem?.2 ⟨t, ?_⟩, ?_⟩
    · rw [Level.getElem?_retired, he, Option.map_some, if_pos rfl]
    · simp only [Entry.awake, Bool.and_eq_true] at hawake
      exact hawake.1
  refine ⟨hstands, hfits.below_selected, (upward_snoc.1 h.swept).1, (upward_snoc.1 h.drawn).1,
    kept.exhaust (hfits.retired t) hmarked hex (h.sweeps_retired kept ht htrue),
    fun r hr => ?_⟩
  rcases h.behind r hr with hp | hp
  · exact (passed_snoc.1 hp).imp_right PassedAt.course_below
  · refine .inr (List.IsPrefix.trans ?_ hp)
    simp

end Cleared

variable {g : Goal} {σ : Type} {S : Setting σ} {rs : List Record}

/-- Going back from a stack that is done with, an exploration comes to a sound stack with an
alternative left at its last level, or everything is done with. -/
theorem Kept.dropExplored (kept : g.Kept S) {H : List Level} (h : g.Cleared S rs H) :
    ∃ L, Schedule.dropExplored H.reverse = (L.reverse, .ok ()) ∧
      (L = [] ∧ g.Clears rs [] ∨ L ≠ [] ∧ g.Sound S rs (L.map Level.settle) ∧
        ∀ l ∈ L, l.selected = none → ∃ e ∈ l.entries, e.awake) := by
  induction H using List.reverseRecOn with
  | nil => exact ⟨[], rfl, .inl ⟨rfl, h.clears⟩⟩
  | append_singleton below l ih =>
    obtain ⟨hstands, hfits⟩ := upward_snoc.1 h.stands
    obtain ⟨t, ht⟩ := Option.isSome_iff_exists.1 (h.selected l (by simp))
    obtain ⟨e, he, -⟩ := hfits.awake t ht
    have hsettle : below.map Level.settle = below := Setting.Stands.map_settle hstands
    have hselected : ∀ m ∈ below, m.selected = none → ∃ e ∈ m.entries, e.awake := by
      intro m hm hn
      have := hfits.below_selected m hm
      simp [hn] at this
    rw [List.reverse_append, List.reverse_singleton, List.singleton_append, Schedule.dropExplored]
    rcases Draw.last_false hfits.draws with htrue | ⟨ds, trues, hd, htrue⟩
    · rw [Level.advance_retire hfits.settled htrue ht he]
      cases hex : (l.retired t).exhausted with
      | true => exact ih (h.dropped kept ht htrue hex)
      | false =>
        have hawake : ∃ e ∈ (l.retired t).entries, e.awake := by
          by_contra hno
          push Not at hno
          rw [Level.exhausted_iff.2 (by simpa using hno)] at hex
          contradiction
        refine ⟨below ++ [l.retired t], by simp, .inr ⟨by simp, ?_, ?_⟩⟩
        · rw [List.map_append, hsettle]
          exact h.retired kept ht htrue hawake
        · intro m hm hn
          rcases List.mem_append.1 hm with hm | hm
          · exact hselected m hm hn
          · rwa [List.mem_singleton.1 hm]
    · rw [Level.advance_flip hfits.settled hd htrue]
      refine ⟨below ++ [l.flipped ds], by simp, .inr ⟨by simp, ?_, ?_⟩⟩
      · rw [List.map_append, hsettle]
        exact h.flipped kept ht hd htrue
      · intro m hm hn
        rcases List.mem_append.1 hm with hm | hm
        · exact hselected m hm hn
        · rw [List.mem_singleton.1 hm] at hn
          simp [Level.flipped, ht] at hn

end Goal

end Interleaving
