import Interleaving.Proofs.Replays
import Interleaving.Proofs.SleepHistory

/-!
# What comes of an alternative

In depth-first mode an iteration is prepared so that it takes an alternative at the last level: a
thread that was not explored there, or a truth value that was flipped. A program may not behave as
before and still agree with all that is recorded, so that no call fails: it may stop before it gets
to this level, or draw fewer values there. A thread that the iteration does not get to is
overlooked. A truth value that it does not draw stays to be replayed.

## Main definitions

* `Scheduler.Iterates` — the states within an iteration, whatever is called.
* `Schedule.Fate` — what an iteration makes of an alternative.

## Main statements

* `Scheduler.perform_nears` — no call but the end of the iteration loses the alternative.
* `Scheduler.prepare_poised` — an iteration is prepared so that there is an alternative.
* `Scheduler.Reachable.alternative_fate` — the alternative is taken, overlooked or withheld.
-/

namespace Interleaving

open Interleaving.Action

/-! ## The calls of an iteration -/

namespace Scheduler

variable {c : Config} {s t : Scheduler} {n : Nat} {l : Level}

/-- The scheduler goes through the schedules in order. -/
structure DepthFirst (s : Scheduler) : Prop where
  generator : s.generator = none
  randomized : s.schedule.randomized = false

theorem Steady.depthFirst (h : s.Steady c) (mode : c.mode = .depthFirst) : s.DepthFirst where
  generator := by
    rw [← Option.not_isSome_iff_eq_none, h.generator, mode]
    simp
  randomized := by
    rw [h.randomized, mode]
    rfl

/-- Of the schedule only the level visited last is changed. -/
structure Retouched (s t : Scheduler) : Prop where
  schedule : s.schedule.Retouched t.schedule
  generator : t.generator.isSome = s.generator.isSome

theorem Retouched.refl (s : Scheduler) : s.Retouched s := ⟨.refl _, rfl⟩

theorem Retouched.trans {u : Scheduler} (h : s.Retouched t) (h' : t.Retouched u) :
    s.Retouched u :=
  ⟨h.schedule.trans h'.schedule, h'.generator.trans h.generator⟩

theorem DepthFirst.retouched (hs : s.DepthFirst) (h : s.Retouched t) : t.DepthFirst where
  generator := by simpa [hs.generator] using h.generator
  randomized := h.schedule.randomized.trans hs.randomized

theorem onSchedule_retouches {α : Type} {x : Action Schedule α}
    (h : x.Ensures s.schedule fun _ t => s.schedule.Retouched t) :
    (onSchedule x).Ensures s fun _ t => s.Retouched t :=
  Ensures.within (h.mono fun _ _ ht => ⟨ht, rfl⟩)

theorem modifyTop_retouches (f : Level → Level) :
    (onSchedule (Action.modify (·.modifyTop f))).Ensures s fun _ t => s.Retouched t :=
  onSchedule_retouches ((yields_modify _ _).ensures (s.schedule.retouched_modifyTop f))

theorem follow_retouches (d : Directive) : (follow d).Ensures s fun _ t => s.Retouched t := by
  refine ((modifyTop_retouches _).mono fun _ t ht => ?_).bind
  refine ((onSchedule_retouches (Schedule.onTop_retouches _)).mono fun _ u hu => ?_).bind
  have hsu := ht.trans hu
  exact (yields_modify _ _).ensures ⟨hsu.schedule, hsu.generator⟩

theorem markTop_retouches (forced : Option ThreadId) (current : ThreadId) :
    (markTop forced current).Ensures s fun _ t => s.Retouched t := by
  refine (yields_get s).bind_ensures (bind_lift_ensures fun top _ => ?_)
  split
  · exact modifyTop_retouches _
  · exact follow_retouches _
  · exact onSchedule_retouches (Schedule.onTop_retouches _)
  · next hgenerator =>
    exact (yields_set _ _).ensures ⟨s.schedule.retouched_modifyTop _, by simp [hgenerator]⟩
  · exact modifyTop_retouches _

/-- The level visited next is another one, or it is the level with the alternative. -/
theorem visit_nears (hs : s.DepthFirst) (h : s.schedule.Nears n l) (poised : l.Poised)
    (forced : Option ThreadId) (choices : Snapshot) (current : ThreadId) :
    (visit forced choices current).Ensures s fun _ t => t.DepthFirst ∧
      (t.schedule.Nears n l ∧ n + 1 ≠ t.schedule.visited ∨
        t.schedule.visited = n + 1 ∧ t.schedule.levels[n]? = some l) := by
  refine (Ensures.within ((h.push choices.unstick).mono fun added pushed hpushed => ?_)).bind
  obtain ⟨hrandomized, hcases⟩ := hpushed
  have hs' : DepthFirst { s with schedule := pushed } :=
    ⟨hs.generator, hrandomized.trans hs.randomized⟩
  rcases hcases with ⟨hnears, hne⟩ | ⟨rfl, hvisited, hl⟩
  · have elsewhere {t : Scheduler} (ht : Retouched { s with schedule := pushed } t) :
        t.DepthFirst ∧ (t.schedule.Nears n l ∧ n + 1 ≠ t.schedule.visited ∨
          t.schedule.visited = n + 1 ∧ t.schedule.levels[n]? = some l) := by
      refine ⟨hs'.retouched ht, .inl ⟨hnears.retouched ht.schedule hne, ?_⟩⟩
      rw [ht.schedule.visited]
      exact hne
    cases added with
    | true =>
      refine (yields_get _).bind_ensures ?_
      split
      · refine ((onSchedule_retouches Schedule.inheritSleep_retouches).mono fun _ u hu => ?_).bind
        exact (markTop_retouches forced current).mono fun _ _ hv => elsewhere (hu.trans hv)
      · exact (markTop_retouches forced current).mono fun _ _ hv => elsewhere hv
    | false =>
      exact (onSchedule_retouches (Schedule.onTop_retouches _)).mono fun _ _ hv => elsewhere hv
  · rw [if_neg (by simp)]
    refine Ensures.within
      (Schedule.onTop_ensures fun position top _ top' hposition hlevel htop' => ?_)
    obtain rfl : position = n := Nat.succ.inj (hposition.symm.trans hvisited)
    obtain rfl : l = top := Option.some.inj (hl.symm.trans hlevel)
    obtain rfl : l.rewindDraws = top' := congrArg Prod.snd (Except.ok.inj htop')
    have hlt := (List.getElem?_eq_some_iff.1 hl).1
    exact ⟨⟨hs.generator, hs'.randomized⟩, .inr ⟨hvisited, by simp [hlt, poised.rewindDraws_eq]⟩⟩

/-- At the level with the alternative a thread is selected, if there is none yet. -/
theorem settle_nears (hs : s.DepthFirst) (poised : l.Poised) (current : ThreadId)
    (h : s.schedule.Nears n l ∧ n + 1 ≠ s.schedule.visited ∨
      s.schedule.visited = n + 1 ∧ s.schedule.levels[n]? = some l) :
    (settle current).Ensures s fun _ t => t.DepthFirst ∧ t.schedule.Nears n l := by
  rcases h with ⟨hnears, hne⟩ | ⟨hvisited, hl⟩
  · refine settle_ensures current ⟨hs, hnears⟩ fun t => ?_
    exact (onSchedule_retouches (Schedule.onTop_retouches _)).mono fun _ _ ht =>
      ⟨hs.retouched ht, hnears.retouched ht.schedule hne⟩
  · have hlt : n < s.schedule.visited := hvisited ▸ Nat.lt_succ_self n
    have htop {top : Level} (htop : s.schedule.top? = some top) : top = l := by
      obtain ⟨position, hposition, hlevel⟩ := Schedule.top?_eq_some.1 htop
      obtain rfl : position = n := Nat.succ.inj (hposition.symm.trans hvisited)
      exact Option.some.inj (hlevel.symm.trans hl)
    refine settle_cases current (fun top h hawake => ⟨hs, ?_⟩) fun top e h hnone he hawake => ?_
    · obtain rfl := htop h
      cases hselected : top.selected with
      | none =>
        obtain ⟨e, he, ha⟩ := poised.awake hselected
        exact absurd ha (hawake hselected e he)
      | some t =>
        have hresumed := poised.resumed (.inl hselected)
        rw [← hselected] at hresumed
        exact .there hlt hl hresumed
    · obtain rfl := htop h
      refine Ensures.within (Schedule.select_ensures fun position top' hposition hlevel _ _ => ?_)
      obtain rfl : position = n := Nat.succ.inj (hposition.symm.trans hvisited)
      obtain rfl : top = top' := Option.some.inj (hl.symm.trans hlevel)
      refine ⟨⟨hs.generator, hs.randomized⟩, .there hlt ?_
        (poised.resumed (.inr ⟨hnone, e, he, hawake, rfl⟩))⟩
      simp [(List.getElem?_eq_some_iff.1 hl).1]

theorem next_nears (hs : s.DepthFirst) (h : s.schedule.Nears n l) (poised : l.Poised)
    (choices : Snapshot) (current : ThreadId) :
    (next choices current).Ensures s fun _ t => t.DepthFirst ∧ t.schedule.Nears n l :=
  ((visit_nears hs h poised none choices current).mono fun _ _ ht =>
    settle_nears ht.1 poised current ht.2).bind

theorem draw_nears (hs : s.DepthFirst) (h : s.schedule.Nears n l) (kind : DrawKind) (bound : Nat) :
    (draw kind bound).Ensures s fun _ t => t.DepthFirst ∧ t.schedule.Nears n l := by
  refine (yields_get s).bind_ensures
    (bind_lift_ensures fun top htop => bind_lift_ensures fun r hr => ?_)
  obtain ⟨v, drawn, g⟩ := r
  have hg : g = none := by
    have : g.isSome = s.generator.isSome := by
      rcases Level.cases_of_draw hr with ⟨-, -, rfl⟩ | ⟨-, rfl⟩
      · rfl
      · exact Level.isSome_fresh kind bound s.generator
    simpa [hs.generator] using this
  refine (yields_set _ _).bind_ensures (ensures_pure ⟨⟨hg, ?_⟩, ?_⟩)
  · exact (s.schedule.randomized_modifyTop _).trans hs.randomized
  obtain ⟨position, hposition, hlevel⟩ := Schedule.top?_eq_some.1 (Schedule.top_eq_ok.1 htop)
  by_cases hn : position = n
  · subst hn
    cases h with
    | ahead hv => omega
    | there hv hl hresumed =>
      obtain rfl := Option.some.inj (hl.symm.trans hlevel)
      change Schedule.Nears position l (s.schedule.modifyTop fun _ => drawn)
      rw [Schedule.modifyTop_eq_set hposition hlevel]
      refine .there hv ?_ (hresumed.draw hr)
      simp [(List.getElem?_eq_some_iff.1 hl).1]
  · exact h.retouched (s.schedule.retouched_modifyTop _) (by omega)

/-- Nothing is forced in depth-first mode. -/
theorem abandon_fails (hs : s.DepthFirst) (draws : Bool) : (abandon draws).Fails s s := by
  refine (yields_get s).bind_fails ?_
  rw [if_neg (by simp [randomized, hs.generator])]
  exact ⟨_, [], rfl⟩

/-- No call but the end of the iteration loses the alternative. -/
theorem perform_nears (hs : s.DepthFirst) (h : s.schedule.Nears n l) (poised : l.Poised)
    {call : Call} (hcall : call.ends = false) :
    (perform call).Ensures s fun _ t => t.DepthFirst ∧ t.schedule.Nears n l := by
  cases call with
  | next choices current => exact Ensures.bind_pure (next_nears hs h poised choices current)
  | force t choices current =>
    exact (((abandon_fails hs false).bind _).bind _).ensures _
  | drawBool => exact Ensures.bind_pure (Ensures.bind_pure (draw_nears hs h .bool 2))
  | drawInt bound => exact Ensures.bind_pure (draw_nears hs h .int bound)
  | forceDraw d => exact (((abandon_fails hs true).bind _).bind _).ensures _
  | prepare => simp [Call.ends] at hcall
  | reset => simp [Call.ends] at hcall
  | sent => exact ensures_pure ⟨hs, h⟩
  | created => exact ensures_pure ⟨hs, h⟩

/-- The states within an iteration that starts in `s`. Whatever is called but its end, the calls
succeed. -/
inductive Iterates (s : Scheduler) : Scheduler → Prop
  | start : Iterates s s
  | call {t u : Scheduler} {call : Call} {reply : Reply} :
      Iterates s t → call.ends = false → (perform call).Yields t reply u → Iterates s u

theorem Iterates.nears {u : Scheduler} (h : s.Iterates u) (hs : s.DepthFirst)
    (hnears : s.schedule.Nears n l) (poised : l.Poised) :
    u.DepthFirst ∧ u.schedule.Nears n l := by
  induction h with
  | start => exact ⟨hs, hnears⟩
  | call _ hcall hyields ih => exact perform_nears ih.1 ih.2 poised hcall _ _ hyields

/-! ## The end of an iteration -/

/-- The analysis of a schedule in depth-first mode does no more than to mark threads. -/
theorem analyse_remarks (hs : s.DepthFirst) :
    analyse.Ensures s fun _ t => t.DepthFirst ∧ s.schedule.Remarked t.schedule := by
  refine (yields_get s).bind_ensures ?_
  cases s.analysis with
  | none =>
    dsimp only
    rw [if_neg (by simp [Scheduler.randomized, hs.generator])]
    exact ensures_pure ⟨hs, .refl _⟩
  | some analysis =>
    refine (Ensures.within ((Workspace.walk_marked.mono fun _ w hw => ?_).bind)).bind
    have hnone : w.generator = none := hw.generator.trans hs.generator
    refine (yields_get w).bind_ensures ?_
    rw [hnone]
    refine ensures_pure ((yields_modify _ _).bind_ensures
      ((yields_get _).bind_ensures ((yields_modify _ _).ensures ⟨⟨hnone, ?_⟩, hw.schedule⟩)))
    change w.schedule.randomized = false
    rw [hw.schedule.rest]
    exact hs.randomized

/-- There is another iteration at random, or if a level is left. -/
theorem prepare_value : prepare.Ensures s fun more t =>
    more = (t.randomized || t.schedule.size != 0) := by
  refine (yields_modify _ _).bind_ensures (Ensures.bind fun _ _ _ => Ensures.bind fun _ _ _ =>
    Ensures.bind fun _ t _ => (yields_get t).bind_ensures ?_)
  dsimp only
  split
  · exact (yields_notify _ _).bind_ensures (ensures_pure rfl)
  · exact ensures_pure rfl

/-- The schedule goes back to its last level with an alternative. -/
theorem prepare_rewinds (hs : s.DepthFirst) : prepare.Ensures s fun _ t =>
    t.DepthFirst ∧ t.schedule.visited = 0 ∧ ∃ marked, s.schedule.Remarked marked ∧
      Schedule.dropExplored (Schedule.dropUnselected marked.levels.reverse) =
        (t.schedule.levels.reverse, .ok ()) := by
  have counted : DepthFirst
      { s with
        iterations := s.iterations + 1
        counters := (s.counters.add .iterations 1).raise .steps s.steps } :=
    ⟨hs.generator, hs.randomized⟩
  refine prepare_ensures ((analyse_remarks counted).mono fun _ t ht => ?_)
  obtain ⟨analysed, hmarked⟩ := ht
  have drops := Schedule.rewind_drops analysed.randomized
  refine Ensures.within (drops.mono fun _ rewound hrewound => ?_)
  obtain ⟨hrandomized, hvisited, hdropped⟩ := hrewound
  exact (limitReversals_of_none (s := { t with schedule := rewound }) analysed.generator).ensures
    ⟨⟨analysed.generator, hrandomized⟩, hvisited, t.schedule, hmarked, hdropped⟩

/-- Where there is to be another iteration, the last level has an alternative for it. -/
theorem prepare_poised (hs : s.DepthFirst) (decided : s.schedule.Decided) :
    prepare.Ensures s fun more t => more → t.DepthFirst ∧ t.schedule.visited = 0 ∧
      ∃ below l, t.schedule.levels = below ++ [l] ∧ l.Poised := by
  refine ((prepare_rewinds hs).and prepare_value).mono fun more t ht hmore => ?_
  obtain ⟨⟨ht, hvisited, marked, hmarked, hdropped⟩, rfl⟩ := ht
  refine ⟨ht, hvisited, ?_⟩
  rcases Schedule.of_dropExplored hdropped with
    hnil | ⟨dropped, l, l', rest, hlevels, hkept, hadvance⟩
  · rw [List.reverse_eq_nil_iff] at hnil
    simp [Scheduler.randomized, ht.generator, Schedule.size, hnil] at hmore
  · have hselected : l.selected.isSome :=
      (hmarked.decided decided).dropUnselected l (by rw [hlevels]; simp)
    refine ⟨rest.reverse, l', ?_, Level.poised_of_advance hselected hadvance⟩
    rw [← List.reverse_reverse t.schedule.levels, hkept, List.reverse_cons]

end Scheduler

/-! ## What comes of the alternative -/

/-- What an iteration, which ended with the schedule `u`, and the preparation of the next one, which
left the schedule `v`, made of the alternative at level `l` at position `n`. -/
inductive Schedule.Fate (n : Nat) (l : Level) (u v : Schedule) : Prop
  /-- It was taken. -/
  | taken {l' : Level} : n < u.visited → u.levels[n]? = some l' → l.Took l' → Fate n l u v
  /-- The iteration did not get to the threads that were to be explored. They are dropped. -/
  | overlooked : l.selected = none → u.visited ≤ n → v.levels.length ≤ n → Fate n l u v
  /-- The iteration did not draw the truth value that was flipped. The level stays with all its
  draws, under another one that has an alternative. -/
  | withheld {l' kept : Level} : l.selected.isSome → n < u.visited → u.levels[n]? = some l' →
      l'.cursor < l.draws.length → v.levels[n]? = some kept → kept.selected = l.selected →
      kept.draws = l.draws → n + 1 < v.levels.length → Fate n l u v

namespace Scheduler

variable {c : Config} {s u v : Scheduler} {n : Nat} {l : Level}

/-- An iteration ends that was on its way to the level, or past it. -/
theorem prepare_fate (hu : u.DepthFirst) (hnears : u.schedule.Nears n l) (poised : l.Poised) :
    prepare.Ensures u fun _ v => Schedule.Fate n l u.schedule v.schedule := by
  refine (prepare_rewinds hu).mono fun _ v hv => ?_
  obtain ⟨-, -, marked, hmarked, hdropped⟩ := hv
  cases hnears with
  | ahead hvisited hlength hl =>
    obtain ⟨m, hm, hremarked⟩ := hmarked.levels n l hl
    have hlength' : marked.levels.length = n + 1 := hmarked.length.trans hlength
    cases hselected : l.selected with
    | none =>
      have hlast : marked.levels.getLast? = some m := by
        rw [List.getLast?_eq_getElem?, hlength', Nat.add_sub_cancel, hm]
      rw [Schedule.dropUnselected_of_none hlast (hremarked.selected.trans hselected)] at hdropped
      have := Schedule.length_le_of_dropExplored hdropped
      exact .overlooked hselected hvisited (by simpa [hlength'] using this)
    | some t =>
      -- the draws of the last level are still to be replayed, so that it cannot go on
      have hsome : l.selected.isSome := by simp [hselected]
      have hcursor : m.cursor ≠ m.draws.length := by
        rw [hremarked.rest]
        exact poised.cursor_ne hsome
      obtain ⟨-, hmore, hle⟩ := Schedule.getElem?_of_cursor_ne hm hcursor
        (hremarked.selected ▸ hsome) hdropped
      omega
  | @there l' hvisited hl hresumed =>
    rcases Nat.lt_or_ge l'.cursor l.draws.length with hlt | hge
    · have hsome : l.selected.isSome := by
        rcases poised.alternative with ⟨-, hnil, -⟩ | ⟨hsome, -⟩
        · simp [hnil] at hlt
        · exact hsome
      have hselected : l'.selected = l.selected := by
        obtain ⟨t, ht, hrun | ⟨hnone, -⟩⟩ := hresumed.runs
        · exact ht.trans hrun.symm
        · simp [hnone] at hsome
      have hdraws := hresumed.unfinished hlt
      obtain ⟨m, hm, hremarked⟩ := hmarked.levels n l' hl
      have hcursor : m.cursor ≠ m.draws.length := by
        rw [hremarked.rest, hdraws]
        exact hlt.ne
      obtain ⟨hkept, hmore, -⟩ := Schedule.getElem?_of_cursor_ne hm hcursor
        (by rwa [hremarked.selected, hselected]) hdropped
      refine .withheld hsome hvisited hl hlt hkept (hremarked.selected.trans hselected) ?_ hmore
      rw [hremarked.rest, hdraws]
    · exact .taken hvisited hl (hresumed.took hge)

/-- In depth-first mode an iteration is prepared, another one is to be made. There is an alternative
at the last level then. Whatever is called in the iteration that follows, if its calls and the
preparation of the next iteration succeed, the alternative is taken, overlooked or withheld. -/
theorem Reachable.alternative_fate {r : Scheduler} {blocked more : Bool} (h : Reachable c r blocked)
    (mode : c.mode = .depthFirst) (prepared : prepare.Yields r true s) (iterates : s.Iterates u)
    (ended : prepare.Yields u more v) :
    ∃ below l, s.schedule.levels = below ++ [l] ∧ l.Poised ∧
      Schedule.Fate below.length l u.schedule v.schedule := by
  have steady := h.steady.1
  obtain ⟨hs, hvisited, below, l, hlevels, poised⟩ :=
    prepare_poised (steady.depthFirst mode) steady.schedule.decided true s prepared rfl
  have hnears : s.schedule.Nears below.length l :=
    .ahead (by omega) (by simp [hlevels]) (by simp [hlevels])
  obtain ⟨hu, hnears⟩ := iterates.nears hs hnears poised
  exact ⟨below, l, hlevels, poised, prepare_fate hu hnears poised more v ended⟩

/-- Two threads that may run. -/
def couple : Snapshot :=
  [⟨0, true, .yield, .thread, none, none⟩, ⟨1, true, .yield, .thread, none, none⟩]

/-- In the first iteration the first thread runs twice. The second iteration stops after a step. -/
def cutShort (calls : Nat) : Scheduler :=
  after (.new { reduction := false, sleepSets := false })
    ([.next couple 0, .next couple 0, .prepare, .next couple 0, .prepare].take calls)

/-- The second level is dropped, although a thread was to be explored there. -/
example :
    (cutShort 3).schedule.levels.map (·.selected) = [some 0, none] ∧
    (perform .prepare (cutShort 4)).result.toBool ∧
    (cutShort 5).schedule.levels.map (·.selected) = [none] := by
  decide +kernel

end Scheduler

end Interleaving
