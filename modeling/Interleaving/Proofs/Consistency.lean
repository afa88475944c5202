import Interleaving.Scheduler.Call
import Interleaving.Proofs.Soundness

/-!
# Consistent schedulers

Whatever calls a program makes of a scheduler, as long as they succeed and nothing but the end of
the iteration follows when nothing can run, the scheduler stays consistent: its schedule is sound,
and it follows no more directives than it was given.

## Main definitions

* `Scheduler.Consistent`, `Scheduler.Steady` — what holds of a scheduler.
* `Scheduler.Reachable` — the states that are reached by successful calls.

## Main statements

* `Scheduler.Steady.next`, `Scheduler.Steady.prepare` and others — what each call keeps.
* `Scheduler.Steady.perform` — what any call keeps that may be made.
* `Scheduler.Reachable.consistent` — the states that are reached are consistent.
-/

namespace Interleaving

open Interleaving.Action

/-! ## The calls -/

namespace Scheduler

/-- The schedule is sound, and no more directives were followed than there are, of which there are
none in depth-first mode. -/
structure Consistent (c : Config) (s : Scheduler) : Prop where
  schedule : s.schedule.Sound
  replayed_le : s.replayed ≤ s.replay.length
  replay : c.mode = .depthFirst → s.replay = []

/-- The scheduler is consistent, and it is one of the mode it was made for. -/
structure Steady (c : Config) (s : Scheduler) : Prop extends Consistent c s where
  generator : s.generator.isSome = (c.mode == .random)
  randomized : s.schedule.randomized = (c.mode == .random)

variable {c : Config} {s s' : Scheduler}

theorem steady_new (c : Config) : (Scheduler.new c).Steady c where
  schedule := Schedule.Sound.empty _
  replayed_le := le_rfl
  replay := fun _ => rfl
  generator := by cases h : c.mode <;> simp [Scheduler.new, h]
  randomized := rfl

namespace Steady

theorem withSchedule (h : s.Steady c) {schedule : Schedule} (hsound : schedule.Sound)
    (hrandomized : schedule.randomized = s.schedule.randomized) :
    Steady c { s with schedule } :=
  ⟨⟨hsound, h.replayed_le, h.replay⟩, h.generator, hrandomized.trans h.randomized⟩

/-- What a scheduler counts, and what its generator gives, does not matter. -/
theorem of_eq (h : s.Steady c) (hschedule : s'.schedule = s.schedule)
    (hgenerator : s'.generator.isSome = s.generator.isSome) (hreplay : s'.replay = s.replay)
    (hreplayed : s'.replayed = s.replayed) : s'.Steady c where
  schedule := hschedule ▸ h.schedule
  replayed_le := by
    rw [hreplay, hreplayed]
    exact h.replayed_le
  replay := hreplay ▸ h.replay
  generator := hgenerator.trans h.generator
  randomized := hschedule ▸ h.randomized

end Steady

/-- A decision changes nothing where a thread is selected at the level visited last, or none is
awake there. Otherwise it selects one that is awake. -/
theorem settle_cases {P : Scheduler → Prop} (current : ThreadId)
    (keep : ∀ top, s.schedule.top? = some top →
      (top.selected = none → ∀ e ∈ top.entries, ¬ e.awake) → P s)
    (select : ∀ top e, s.schedule.top? = some top → top.selected = none → e ∈ top.entries →
      e.awake → (onSchedule (Schedule.select e.thread)).Ensures s fun _ u => P u) :
    (settle current).Ensures s fun _ u => P u := by
  -- once a thread is selected its entry is looked up
  have run {u : Scheduler} (hu : P u) (t : ThreadId) :
      (do
        let s ← Action.get
        let top ← Action.lift s.schedule.top
        let e ← Action.lift (top.entry t)
        if e.runnable then
          Action.notify [.decided top]
          return .run t
        else Action.fail (.notEnabled t) : Action Scheduler Decision).Ensures u fun _ v => P v := by
    refine (yields_get u).bind_ensures
      (bind_lift_ensures fun top _ => bind_lift_ensures fun e _ => ?_)
    split
    · exact (yields_notify _ _).bind_ensures (ensures_pure hu)
    · exact ensures_fail _ _ _
  refine (yields_get s).bind_ensures (bind_lift_ensures fun choice hchoice => ?_)
  obtain ⟨top, htop, hchoose⟩ :
      ∃ top, s.schedule.top? = some top ∧ top.choose current = choice := by
    cases htop : s.schedule.top with
    | error fault => simp [Schedule.choose, htop, bind, Except.bind] at hchoice
    | ok top =>
      refine ⟨top, Schedule.top_eq_ok.1 htop, ?_⟩
      simpa [Schedule.choose, htop, bind, Except.bind, pure, Except.pure] using hchoice
  have first (hnone : top.selected = none) : top.firstAwake current = choice := by
    simpa [Level.choose, hnone] using hchoose
  cases choice with
  | allAsleep =>
    exact (yields_notify _ _).bind_ensures (ensures_pure
      (keep top htop fun hnone => (Level.firstAwake_eq_allAsleep (first hnone)).1))
  | nothing =>
    exact ensures_pure (keep top htop fun hnone => (Level.firstAwake_eq_nothing (first hnone)).1)
  | thread t =>
    refine bind_lift_ensures fun top' htop' => ?_
    obtain rfl : top = top' := by simpa [htop] using Schedule.top_eq_ok.1 htop'
    cases hselected : top.selected with
    | none =>
      obtain ⟨e, he, hawake, rfl⟩ := Level.exists_awake_of_firstAwake (first hselected)
      rw [if_pos (by simp)]
      exact ((select top e htop hselected he hawake).mono fun _ _ hu => run hu e.thread).bind
    | some t' =>
      obtain rfl : t' = t := by simpa [Level.choose, hselected] using hchoose
      rw [if_neg (by simp)]
      exact run (keep top htop (by simp [hselected])) t'

/-- A decision selects a thread at the level visited last, or changes nothing. -/
theorem settle_ensures {P : Scheduler → Prop} (current : ThreadId) (keep : P s)
    (select : ∀ t, (onSchedule (Schedule.select t)).Ensures s fun _ u => P u) :
    (settle current).Ensures s fun _ u => P u :=
  settle_cases current (fun _ _ _ => keep) fun _ e _ _ _ _ => select e.thread

namespace Steady

/-- The level visited last is changed and keeps its selection. -/
theorem modifyTop (h : s.Steady c) {f : Level → Level}
    (hf : ∀ top k, s.schedule.top? = some top → top.Sound k →
      (f top).Sound k ∧ (f top).selected = top.selected) :
    Steady c { s with schedule := s.schedule.modifyTop f } :=
  h.withSchedule (h.schedule.modifyTop hf).1 (s.schedule.randomized_modifyTop f)

theorem remarkTop (h : s.Steady c) {f : Level → Level} (hf : ∀ top : Level, top.Remarked (f top)) :
    Steady c { s with schedule := s.schedule.modifyTop f } :=
  h.modifyTop fun top _ _ hsound => ⟨hsound.remarked (hf top), (hf top).selected⟩

/-- The level visited last is changed to one that is computed from it. -/
theorem onTop {α : Type} (h : s.Steady c) {f : Level → Except Fault (α × Level)}
    {Q : α → Scheduler → Prop}
    (hf : ∀ top a l k, f top = .ok (a, l) → top.Sound k → l.Sound k ∧ l.selected = top.selected)
    (hQ : ∀ a l, Steady c { s with schedule := s.schedule.modifyTop fun _ => l } →
      (s.schedule.Settled → (s.schedule.modifyTop fun _ => l).Settled) →
      Q a { s with schedule := s.schedule.modifyTop fun _ => l }) :
    (onSchedule (Schedule.onTop f)).Ensures s Q := by
  refine Ensures.within ((yields_get _).bind_ensures (bind_lift_ensures fun top htop =>
    bind_lift_ensures fun r hr => (yields_set _ _).bind_ensures (ensures_pure ?_)))
  have hkept : ∀ top' k, s.schedule.top? = some top' → top'.Sound k →
      r.2.Sound k ∧ r.2.selected = top'.selected := by
    intro top' k htop' hsound
    obtain rfl : top = top' := by simpa [Schedule.top_eq_ok.1 htop] using htop'
    exact hf top r.1 r.2 k hr hsound
  exact hQ r.1 r.2 (h.modifyTop hkept) (h.schedule.modifyTop hkept).2

theorem follow (h : s.Steady c) {d : Directive} (hd : s.replay[s.replayed]? = some d) :
    (Scheduler.follow d).Ensures s fun _ s' => s'.Steady c := by
  have restored := h.modifyTop (f := (·.restoreDraws d.draws))
    fun top k _ hsound => ⟨hsound.withDraws (Nat.zero_le _), rfl⟩
  refine (Ensures.within ((yields_modify _ _).ensures ?_)).bind
  refine (restored.onTop (fun top a l k hf hsound => ?_) fun _ l marked _ => ?_).bind
  · have hmarked : top.Remarked l := by
      cases he : top.entry d.thread with
      | error fault => simp [he, bind, Except.bind] at hf
      | ok e =>
        simp only [he, bind, Except.bind] at hf
        split at hf
        · obtain rfl := congrArg Prod.snd (Except.ok.inj hf)
          exact top.remarked_mark d.thread
        · simp [throw, throwThe, MonadExceptOf.throw] at hf
    exact ⟨hsound.remarked hmarked, hmarked.selected⟩
  · refine (yields_modify _ _).ensures
      ⟨⟨marked.schedule, ?_, h.replay⟩, h.generator, marked.randomized⟩
    exact (List.getElem?_eq_some_iff.1 hd).1

theorem markTop (h : s.Steady c) (forced : Option ThreadId) (current : ThreadId) :
    (Scheduler.markTop forced current).Ensures s fun _ s' => s'.Steady c := by
  refine (yields_get s).bind_ensures (bind_lift_ensures fun top htop => ?_)
  cases s.analysis with
  | none =>
    exact Ensures.within ((yields_modify _ _).ensures (h.remarkTop Level.remarked_markEnabled))
  | some analysis =>
    cases hd : s.replay[s.replayed]? with
    | some d => exact h.follow hd
    | none =>
      cases forced with
      | some t =>
        refine h.onTop (fun top a l k hf hsound => ?_) fun _ _ h' _ => h'
        have hmarked := Level.remarked_markThread (Schedule.eq_ok_of_pair hf)
        exact ⟨hsound.remarked hmarked, hmarked.selected⟩
      | none =>
        cases hg : s.generator with
        | some g =>
          obtain ⟨⟨l, g'⟩, hl⟩ : ∃ r, r = top.markRandom g := ⟨_, rfl⟩
          have hmarked := top.remarked_markRandom g
          dsimp only
          rw [← hl] at hmarked ⊢
          have marked := h.modifyTop (f := fun _ => l) fun top' k htop' hsound => by
            obtain rfl : top = top' := by simpa [Schedule.top_eq_ok.1 htop] using htop'
            exact ⟨hsound.remarked hmarked, hmarked.selected⟩
          exact (yields_set _ _).ensures (marked.of_eq rfl (by simp [hg]) rfl rfl)
        | none =>
          exact Ensures.within
            ((yields_modify _ _).ensures (h.remarkTop (·.remarked_markFirst current)))

/-- The next level is visited and marked. -/
theorem visit (h : s.Steady c) (settled : s.schedule.Settled) (forced : Option ThreadId)
    (choices : Snapshot) (current : ThreadId) :
    (Scheduler.visit forced choices current).Ensures s fun _ s' => s'.Steady c := by
  refine (Ensures.within ((h.schedule.push settled choices.unstick).mono
    fun added t ht => ?_)).bind
  have pushed := h.withSchedule ht.1 ht.2.1
  cases added with
  | true =>
    refine (yields_get _).bind_ensures ?_
    split
    · have inherited := pushed.schedule.inheritSleep (ht.2.2 rfl)
      refine (Ensures.within (inherited.mono fun _ u hu => ?_)).bind
      exact (pushed.withSchedule hu.1 hu.2).markTop forced current
    · exact pushed.markTop forced current
  | false =>
    refine pushed.onTop (fun top a l k hf hsound => ?_) fun _ _ h' _ => h'
    obtain rfl := congrArg Prod.snd (Except.ok.inj hf)
    exact ⟨hsound.withDraws (Nat.zero_le _), rfl⟩

/-- Where a thread is to run, it is selected at the level visited last, so that all are. -/
theorem settled_of_top (h : s.Steady c) {position : Nat} {top : Level}
    (hvisited : s.schedule.visited = position + 1)
    (htop : s.schedule.levels[position]? = some top) (hselected : top.selected.isSome) :
    s.schedule.Settled := by
  intro k l hl hk
  rcases Nat.lt_or_ge k position with hlt | hge
  · have := h.schedule.visited_le
    exact h.schedule.decided k l hl (by omega)
  · obtain rfl : k = position := by omega
    obtain rfl : top = l := by simpa [htop] using hl
    exact hselected

theorem settle (h : s.Steady c) (current : ThreadId) :
    (Scheduler.settle current).Ensures s fun d s' =>
      s'.Steady c ∧ ∀ t, d = .run t → s'.schedule.Settled := by
  refine (yields_get s).bind_ensures (bind_lift_ensures fun choice hchoice => ?_)
  cases choice with
  | allAsleep => exact (yields_notify _ _).bind_ensures (ensures_pure ⟨h, by simp⟩)
  | nothing => exact ensures_pure ⟨h, by simp⟩
  | thread t =>
    refine bind_lift_ensures fun top htop => ?_
    obtain ⟨position, hvisited, hlevel⟩ := Schedule.top?_eq_some.1 (Schedule.top_eq_ok.1 htop)
    have hchoose : top.choose current = .thread t := by
      simpa [Schedule.choose, htop, bind, Except.bind, pure, Except.pure] using hchoice
    cases hselected : top.selected with
    | some t' =>
      obtain rfl : t' = t := by simpa [Level.choose, hselected] using hchoose
      rw [if_neg (by simp)]
      refine (yields_get _).bind_ensures
        (bind_lift_ensures fun _ _ => bind_lift_ensures fun e _ => ?_)
      split
      · refine (yields_notify _ _).bind_ensures (ensures_pure ⟨h, fun _ _ => ?_⟩)
        exact h.settled_of_top hvisited hlevel (by simp [hselected])
      · exact ensures_fail _ _ _
    | none =>
      have hfirst : top.firstAwake current = .thread t := by
        simpa [Level.choose, hselected] using hchoose
      rw [if_pos (by simp)]
      refine (Ensures.within
        (Schedule.select_ensures fun position' top' hvisited' hlevel' _ _ => ?_)).bind
      obtain rfl : position = position' := by omega
      obtain rfl : top = top' := by simpa [hlevel] using hlevel'
      refine (yields_get _).bind_ensures
        (bind_lift_ensures fun l hl => bind_lift_ensures fun e he => ?_)
      -- the level read again is the one just changed
      obtain ⟨position', hvisited', hset⟩ := Schedule.top?_eq_some.1 (Schedule.top_eq_ok.1 hl)
      obtain rfl : position = position' := Nat.succ.inj (hvisited.symm.trans hvisited')
      have hlt := (List.getElem?_eq_some_iff.1 hlevel).1
      obtain rfl : { top with selected := some t } = l := by simpa [hlt] using hset
      split
      · next hrunnable =>
        have hsound := (h.schedule.level position top hlevel).select hfirst
          (Level.entry_eq_ok.1 he) hrunnable
        have selected := h.withSchedule (h.schedule.set hlevel hsound fun _ => rfl) rfl
        exact (yields_notify _ _).bind_ensures
          (ensures_pure ⟨selected, fun _ _ => selected.settled_of_top hvisited hset rfl⟩)
      · exact ensures_fail _ _ _

theorem dropUnvisited (h : s.Steady c) :
    Steady c { s with schedule := s.schedule.dropUnvisited, replay := [], replayed := 0 } :=
  ⟨⟨h.schedule.dropUnvisited, le_rfl, fun _ => rfl⟩, h.generator, h.randomized⟩

/-- What is left to be replayed is dropped. -/
theorem abandon (h : s.Steady c) (draws : Bool) {Q : Unit → Scheduler → Prop}
    (hQ : ∀ s', s'.Steady c → (s.schedule.Settled → s'.schedule.Settled) →
      s'.schedule.visited = s.schedule.visited → Q () s') :
    (Scheduler.abandon draws).Ensures s Q := by
  refine (yields_get s).bind_ensures ?_
  split
  · cases draws with
    | true =>
      refine (h.onTop (fun top a l k hf hsound => ?_) fun _ l h' hsettled => ?_).bind
      · obtain rfl := congrArg Prod.snd (Except.ok.inj hf)
        have := hsound.cursor
        exact ⟨hsound.withDraws (by simpa using this), rfl⟩
      · exact (yields_modify _ _).ensures (hQ _ h'.dropUnvisited
          (fun settled => (hsettled settled).dropUnvisited) (Schedule.visited_modifyTop _ _))
    | false =>
      exact (yields_modify _ _).ensures (hQ _ h.dropUnvisited
        (fun settled => settled.dropUnvisited) rfl)
  · exact ensures_fail _ _ _

theorem next (h : s.Steady c) (settled : s.schedule.Settled) (choices : Snapshot)
    (current : ThreadId) : (Scheduler.next choices current).Ensures s fun d s' =>
      s'.Steady c ∧ ∀ t, d = .run t → s'.schedule.Settled :=
  ((h.visit settled none choices current).mono fun _ _ h' => h'.settle current).bind

theorem force (h : s.Steady c) (settled : s.schedule.Settled) (t : ThreadId) (choices : Snapshot)
    (current : ThreadId) : (Scheduler.force t choices current).Ensures s fun _ s' =>
      s'.Steady c ∧ s'.schedule.Settled := by
  refine (h.abandon false fun s' h' hsettled _ => ?_).bind
  refine ((h'.visit (hsettled settled) (some t) choices current).mono fun _ u hu => ?_).bind
  refine ((hu.settle current).mono fun d v hv => ?_).bind
  split
  · next hd =>
    exact (yields_modify _ _).ensures
      ⟨hv.1.of_eq rfl rfl rfl rfl, hv.2 t hd⟩
  · exact ensures_fail _ _ _

theorem draw (h : s.Steady c) (kind : DrawKind) (bound : Nat) :
    (Scheduler.draw kind bound).Ensures s fun _ s' =>
      s'.Steady c ∧ (s.schedule.Settled → s'.schedule.Settled) := by
  refine (yields_get s).bind_ensures
    (bind_lift_ensures fun top htop => bind_lift_ensures fun r hr => ?_)
  obtain ⟨v, l, g⟩ := r
  have hkept : ∀ top' k, s.schedule.top? = some top' → top'.Sound k →
      l.Sound k ∧ l.selected = top'.selected := by
    intro top' k htop' hsound
    obtain rfl : top = top' := by simpa [Schedule.top_eq_ok.1 htop] using htop'
    obtain ⟨hl, hselected, -⟩ := hsound.draw hr
    exact ⟨hl, hselected⟩
  have drawn := h.modifyTop (f := fun _ => l) hkept
  obtain ⟨position, -, hlevel⟩ := Schedule.top?_eq_some.1 (Schedule.top_eq_ok.1 htop)
  obtain ⟨-, -, hg⟩ := (h.schedule.level position top hlevel).draw hr
  exact (yields_set _ _).bind_ensures
    (ensures_pure ⟨drawn.of_eq rfl hg rfl rfl, (h.schedule.modifyTop hkept).2⟩)

theorem forceDraw (h : s.Steady c) (d : Draw) :
    (Scheduler.forceDraw d).Ensures s fun _ s' =>
      s'.Steady c ∧ (s.schedule.Settled → s'.schedule.Settled) := by
  refine (h.abandon true fun s' h' hsettled _ => ?_).bind
  refine (h'.onTop (fun top a l k hf hsound => ?_) fun _ l h'' hsettled' => ?_).bind
  · obtain rfl := congrArg Prod.snd (Except.ok.inj hf)
    exact ⟨hsound.record d, rfl⟩
  · exact (yields_modify _ _).ensures
      ⟨h''.of_eq rfl rfl rfl rfl, fun settled => hsettled' (hsettled settled)⟩

end Steady

end Scheduler

/-! ## The end of an iteration -/

/-- The analysis marks levels, and at random it drops some from the end. -/
theorem Workspace.analyse_ensures {w : Workspace}
    (hvisited : w.schedule.visited ≤ w.schedule.size) :
    Workspace.analyse.Ensures w fun replay w' => w'.generator.isSome = w.generator.isSome ∧
      (∃ s n, w.schedule.Remarked s ∧ w'.schedule = s.cut n) ∧
      (w.generator = none → replay = []) := by
  intro replay w' h
  obtain ⟨v, hwalk, ⟨-, hgenerator, n, hcut⟩, hreplay⟩ := analyse_cut hvisited replay w' h
  have hmarked := walk_marked () v hwalk
  exact ⟨by rw [hgenerator, hmarked.generator], ⟨v.schedule, n, hmarked.schedule, hcut⟩, hreplay⟩

namespace Scheduler

variable {c : Config} {s s' : Scheduler}

/-- At the end of an iteration the schedule is analysed and rewound. What is counted before, and
told after, does not matter. -/
theorem prepare_ensures {P : Scheduler → Prop}
    (h : Scheduler.analyse.Ensures
      { s with
        iterations := s.iterations + 1
        counters := (s.counters.add .iterations 1).raise .steps s.steps }
      fun _ t => (onSchedule Schedule.rewind).Ensures t fun _ u =>
        limitReversals.Ensures u fun _ v => P v) :
    Scheduler.prepare.Ensures s fun _ v => P v := by
  refine (yields_modify _ _).bind_ensures ((h.mono fun _ t ht => ?_).bind)
  refine (ht.mono fun _ u hu => ?_).bind
  refine (hu.mono fun _ v hv => (yields_get v).bind_ensures ?_).bind
  dsimp only
  split
  · exact (yields_notify _ _).bind_ensures (ensures_pure hv)
  · exact ensures_pure hv

namespace Steady

theorem analyse (h : s.Steady c) : Scheduler.analyse.Ensures s fun _ s' => s'.Steady c := by
  refine (yields_get s).bind_ensures ?_
  cases hanalysis : s.analysis with
  | none =>
    dsimp only
    split
    · refine Ensures.within ((yields_modify _ _).ensures ?_)
      exact h.withSchedule (.empty _) rfl
    · exact ensures_pure h
  | some analysis =>
    refine (Ensures.within ((Workspace.analyse_ensures h.schedule.visited_le).mono
      fun replay w hw => ?_)).bind
    obtain ⟨hgenerator, ⟨marked, n, hmarked, hcut⟩, hreplay⟩ := hw
    refine (yields_modify _ _).bind_ensures
      ((yields_get _).bind_ensures ((yields_modify _ _).ensures ?_))
    refine ⟨⟨?_, Nat.zero_le _, fun hmode => hreplay ?_⟩, hgenerator.trans h.generator, ?_⟩
    · change w.schedule.Sound
      rw [hcut]
      exact (h.schedule.remarked hmarked).cut n
    · have hnone := h.generator
      rw [hmode] at hnone
      exact Option.not_isSome_iff_eq_none.1 (by simp [hnone])
    · have hrandomized : marked.randomized = s.schedule.randomized := by rw [hmarked.rest]
      change w.schedule.randomized = _
      rw [hcut, ← h.randomized]
      exact hrandomized

theorem limitReversals (h : s.Steady c) : Scheduler.limitReversals.Ensures s fun _ s' =>
    s'.Steady c ∧ s'.schedule.visited = s.schedule.visited := by
  refine (yields_get s).bind_ensures ?_
  split
  · split
    · refine (yields_notify _ _).bind_ensures ((yields_set _ _).bind_ensures ?_)
      have fresh : Steady c { s with reversals := 0 } := h.of_eq rfl rfl rfl rfl
      exact fresh.abandon false fun s' h' _ hvisited => ⟨h', hvisited⟩
    · exact (yields_set _ _).ensures ⟨h.of_eq rfl rfl rfl rfl, rfl⟩
  · exact ensures_pure ⟨h, rfl⟩

theorem prepare (h : s.Steady c) : Scheduler.prepare.Ensures s fun _ s' =>
    s'.Steady c ∧ s'.schedule.Settled := by
  have counted : Steady c
      { s with
        iterations := s.iterations + 1
        counters := (s.counters.add .iterations 1).raise .steps s.steps } :=
    h.of_eq rfl rfl rfl rfl
  refine prepare_ensures (counted.analyse.mono fun _ t ht => ?_)
  refine Ensures.within (ht.schedule.rewind.mono fun _ rewound hr => ?_)
  refine (ht.withSchedule hr.1 hr.2.1).limitReversals.mono fun _ u hu => ?_
  exact ⟨hu.1, Schedule.settled_of_visited (hu.2.trans hr.2.2)⟩

theorem reset (h : s.Steady c) : s.reset.Steady c ∧ s.reset.schedule.Settled :=
  ⟨⟨⟨.empty _, le_rfl, fun _ => rfl⟩, h.generator, h.randomized⟩, Schedule.settled_of_visited rfl⟩

end Steady

end Scheduler

/-! ## All calls -/

/-- Nothing can be run. -/
def Reply.blocked : Reply → Bool
  | .decision .deadlock | .decision .allAsleep => true
  | _ => false

/-- The call ends an iteration. -/
def Call.ends : Call → Bool
  | .prepare | .reset => true
  | _ => false

namespace Scheduler

variable {c : Config} {s s' : Scheduler}

/-- The states that are reached by calls that succeed, where nothing but the end of the iteration
follows when nothing can be run. The flag tells whether that is so. -/
inductive Reachable (c : Config) : Scheduler → Bool → Prop
  | new : Reachable c (.new c) false
  | call {s t : Scheduler} {blocked : Bool} {call : Call} {reply : Reply} :
      Reachable c s blocked → (blocked → call.ends) → (perform call).Yields s reply t →
      Reachable c t reply.blocked

/-- A call that may be made keeps the scheduler steady, and all visited levels have a selection
unless nothing can be run. -/
theorem Steady.perform (h : s.Steady c) {blocked : Bool}
    (settled : blocked = false → s.schedule.Settled) {call : Call} (hcall : blocked → call.ends) :
    (Scheduler.perform call).Ensures s fun reply s' =>
      s'.Steady c ∧ (reply.blocked = false → s'.schedule.Settled) := by
  have open_ (hends : call.ends = false) : s.schedule.Settled := by
    cases blocked with
    | false => exact settled rfl
    | true => simp [hcall rfl] at hends
  cases call with
  | next choices current =>
    refine Ensures.bind_pure ((h.next (open_ rfl) choices current).mono fun d t ht =>
      ⟨ht.1, fun hd => ?_⟩)
    cases d with
    | run t => exact ht.2 t rfl
    | deadlock => simp [Reply.blocked] at hd
    | allAsleep => simp [Reply.blocked] at hd
  | force t choices current =>
    exact Ensures.bind_pure ((h.force (open_ rfl) t choices current).mono fun _ _ h' =>
      ⟨h'.1, fun _ => h'.2⟩)
  | drawBool =>
    exact Ensures.bind_pure (Ensures.bind_pure ((h.draw .bool 2).mono fun _ _ h' =>
      ⟨h'.1, fun _ => h'.2 (open_ rfl)⟩))
  | drawInt bound =>
    exact Ensures.bind_pure ((h.draw .int bound).mono fun _ _ h' =>
      ⟨h'.1, fun _ => h'.2 (open_ rfl)⟩)
  | forceDraw d =>
    exact Ensures.bind_pure ((h.forceDraw d).mono fun _ _ h' => ⟨h'.1, fun _ => h'.2 (open_ rfl)⟩)
  | prepare => exact Ensures.bind_pure (h.prepare.mono fun _ _ h' => ⟨h'.1, fun _ => h'.2⟩)
  | reset =>
    exact (yields_modify _ _).bind_ensures (ensures_pure ⟨h.reset.1, fun _ => h.reset.2⟩)
  | sent => exact ensures_pure ⟨h, fun _ => open_ rfl⟩
  | created => exact ensures_pure ⟨h, fun _ => open_ rfl⟩

theorem Reachable.steady {blocked : Bool} (h : Reachable c s blocked) :
    s.Steady c ∧ (blocked = false → s.schedule.Settled) := by
  induction h with
  | new => exact ⟨steady_new c, fun _ => Schedule.settled_of_visited rfl⟩
  | call _ hcall hyields ih => exact ih.1.perform ih.2 hcall _ _ hyields

theorem Reachable.consistent {blocked : Bool} (h : Reachable c s blocked) : s.Consistent c :=
  h.steady.1.toConsistent

/-! ### Two sends in both orders -/

/-- Two threads are about to send to the same one. -/
def rivals : Snapshot :=
  [⟨0, true, .send, .inbox, some 2, none⟩, ⟨1, true, .send, .inbox, some 2, none⟩]

/-- The state that some calls leave. -/
def after (s : Scheduler) (calls : List Call) : Scheduler :=
  calls.foldl (fun s call => (perform call s).state) s

/-- The second sender runs first in the second iteration. -/
theorem consistent_after_reversal :
    Consistent {} (after (.new {}) [.next rivals 0, .next rivals 1, .prepare, .next rivals 0]) := by
  have first : Reachable {} (after (.new {}) [.next rivals 0]) false :=
    .call .new (by simp) (show (perform (.next rivals 0)).Yields _ (.decision (.run 0)) _ from
      yields_of_result (by decide +kernel))
  have second : Reachable {} (after (.new {}) [.next rivals 0, .next rivals 1]) false :=
    .call first (by simp) (show (perform (.next rivals 1)).Yields _ (.decision (.run 1)) _ from
      yields_of_result (by decide +kernel))
  have prepared : Reachable {} (after (.new {}) [.next rivals 0, .next rivals 1, .prepare]) false :=
    .call second (by simp) (show (perform .prepare).Yields _ (.bool true) _ from
      yields_of_result (by decide +kernel))
  have turned : Reachable {}
      (after (.new {}) [.next rivals 0, .next rivals 1, .prepare, .next rivals 0]) false :=
    .call prepared (by simp) (show (perform (.next rivals 0)).Yields _ (.decision (.run 1)) _ from
      yields_of_result (by decide +kernel))
  exact turned.consistent

end Scheduler

end Interleaving
