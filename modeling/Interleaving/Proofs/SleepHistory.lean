import Interleaving.Proofs.Sleepers

/-!
# The history of sleep

Whatever calls are made of a scheduler, every thread that is asleep has a cause for it among the
calls before: an iteration that ended with the thread selected.

## Main definitions

* `Scheduler.Run` — the states that are reached, with the calls that led there.

## Main statements

* `Scheduler.Steady.next_explained`, `Scheduler.Steady.prepare_explained` and others — every call
  leaves every sleep with a cause.
* `Scheduler.Run.explained` — so does a whole run.
* `Scheduler.Run.asleep_justified` — how a thread came to be asleep.
-/

namespace Interleaving

open Interleaving.Action

/-! ## Schedules -/

namespace Schedule

variable {s s' : Schedule} {Ended : List Level → List Level → Prop}

theorem trims_modifyTop (s : Schedule) {f : Level → Level}
    (hf : ∀ top, s.top? = some top → (f top).outline = top.outline) :
    Trims s.levels (s.modifyTop f).levels := by
  rcases s.modifyTop_cases f with heq | ⟨position, top, htop, hlevel, heq⟩ <;> rw [heq]
  · exact .refl _
  · exact .set hlevel (hf top htop)

theorem Remarked.trims (h : s.Remarked s') : Trims s.levels s'.levels := by
  refine .of_eq (List.ext_getElem? fun i => ?_)
  rw [List.getElem?_map, List.getElem?_map]
  cases hi : s.levels[i]? with
  | none => simpa [h.length] using hi
  | some l =>
    obtain ⟨l', hl', hmarked⟩ := h.levels i l hi
    simp [hl', hmarked.outline_eq]

/-- A new level has nothing asleep. -/
theorem push_explained (h : Explained Ended s.levels) (snapshot : Snapshot) :
    (push snapshot).Ensures s fun _ t => Explained Ended t.levels :=
  push_ensures (fun _ _ => h.snoc (by simp [Entry.capture])) fun _ _ => h

theorem Sound.inheritSleep_explained (sound : s.Sound) (h : Explained Ended s.levels) :
    Schedule.inheritSleep.Ensures s fun _ t => Explained Ended t.levels := by
  refine (yields_get s).bind_ensures ?_
  split
  · exact ensures_pure h
  · next below hbelow =>
    refine bind_lift_ensures fun executed hexecuted => bind_lift_ensures fun top htop =>
      (yields_notify _ _).bind_ensures ((yields_set _ _).ensures ?_)
    obtain ⟨u, hu, hentry⟩ := Level.of_selectedEntry_eq_ok hexecuted
    obtain ⟨p, hp, hlevel⟩ := below?_eq_some.1 hbelow
    obtain ⟨q, hq, hlevel'⟩ := top?_eq_some.1 (top_eq_ok.1 htop)
    obtain rfl : q = p + 1 := by omega
    obtain ⟨e, he, -, -, hawake⟩ := (sound.level p below hlevel).selection u hu
    obtain rfl : executed = e := by simpa [hentry] using he
    rw [modifyTop_eq_set hq hlevel']
    exact h.inheritSleep hlevel hu hentry (by simpa using hawake) hlevel'

/-- The levels that stay are those up to one that goes on to its next alternative. Unless that is
another draw, its thread is put to sleep. -/
theorem rewind_levels : Schedule.rewind.Ensures s fun _ t =>
    Trims s.levels t.levels ∨ s.randomized = false ∧ Retires s.levels t.levels := by
  refine rewind_ensures (fun _ => .inl (.refl _)) (.inl (.nil _))
    fun p l l' hrandomized hl hadvance => ?_
  rcases Level.cases_of_advance hadvance with hflip | ⟨m, hflip, hretire⟩
  · refine .inl (.takeSnoc hl ?_)
    rcases Level.exists_of_flipDraws hflip with rfl | ⟨draws, rfl⟩ <;> rfl
  · obtain ⟨u, hu, rfl⟩ := Level.exists_of_retire hretire
    refine .inr ⟨hrandomized, p, l, u, _, hl, ?_, rfl, ?_, rfl⟩ <;>
      rcases Level.exists_of_flipDraws hflip with rfl | ⟨draws, rfl⟩
    · exact hu
    · exact hu
    · rfl
    · rfl

end Schedule

/-! ## Calls that put no thread to sleep -/

namespace Scheduler

variable {c : Config} {s : Scheduler} {G : List Level}

theorem onTop_trims {α : Type} (h : Trims G s.schedule.levels)
    {f : Level → Except Fault (α × Level)}
    (hf : ∀ top a l, f top = .ok (a, l) → l.outline = top.outline) :
    (onSchedule (Schedule.onTop f)).Ensures s fun _ t => Trims G t.schedule.levels :=
  Ensures.within (Schedule.onTop_ensures fun _ top a l _ hlevel hl =>
    h.trans (.set hlevel (hf top a l hl)))

theorem modifyTop_trims (h : Trims G s.schedule.levels) {f : Level → Level}
    (hf : ∀ top, (f top).outline = top.outline) :
    (onSchedule (Action.modify (·.modifyTop f))).Ensures s fun _ t => Trims G t.schedule.levels :=
  Ensures.within ((yields_modify _ _).ensures
    (h.trans (s.schedule.trims_modifyTop fun top _ => hf top)))

theorem follow_trims (h : Trims G s.schedule.levels) (d : Directive) :
    (follow d).Ensures s fun _ t => Trims G t.schedule.levels := by
  have restored := modifyTop_trims (f := (·.restoreDraws d.draws)) h fun _ => rfl
  refine (restored.mono fun _ t ht => ?_).bind
  refine ((onTop_trims ht fun top _ l hl => ?_).mono fun _ u hu => ?_).bind
  · obtain rfl : top.modifyEntry d.thread Entry.mark = l := congrArg Prod.snd (Level.eq_of_entry hl)
    exact (top.remarked_mark _).outline_eq
  · exact (yields_modify _ _).ensures hu

theorem markTop_trims (h : Trims G s.schedule.levels) (forced : Option ThreadId)
    (current : ThreadId) :
    (markTop forced current).Ensures s fun _ t => Trims G t.schedule.levels := by
  refine (yields_get s).bind_ensures (bind_lift_ensures fun top htop => ?_)
  cases s.analysis with
  | none => exact modifyTop_trims h fun top => top.remarked_markEnabled.outline_eq
  | some _ =>
    cases s.replay[s.replayed]? with
    | some d => exact follow_trims h d
    | none =>
      cases forced with
      | some t =>
        exact onTop_trims h fun _ _ _ hl =>
          (Level.remarked_markThread (Schedule.eq_ok_of_pair hl)).outline_eq
      | none =>
        cases s.generator with
        | none => exact modifyTop_trims h fun top => (top.remarked_markFirst current).outline_eq
        | some g =>
          obtain ⟨⟨l, g'⟩, hl⟩ : ∃ r, r = top.markRandom g := ⟨_, rfl⟩
          have hmarked := top.remarked_markRandom g
          dsimp only
          rw [← hl] at hmarked ⊢
          refine (yields_set _ _).ensures
            (h.trans (s.schedule.trims_modifyTop fun top' htop' => ?_))
          obtain rfl : top = top' := by simpa [Schedule.top_eq_ok.1 htop] using htop'
          exact hmarked.outline_eq

theorem abandon_trims (h : Trims G s.schedule.levels) (draws : Bool) :
    (abandon draws).Ensures s fun _ t => Trims G t.schedule.levels := by
  refine (yields_get s).bind_ensures ?_
  split
  · have drop {u : Scheduler} (hu : Trims G u.schedule.levels) :
        (Action.modify fun s : Scheduler =>
          { s with schedule := s.schedule.dropUnvisited, replay := [], replayed := 0 }).Ensures u
          fun _ t => Trims G t.schedule.levels :=
      (yields_modify _ _).ensures (hu.trans (.take _ _))
    cases draws with
    | true =>
      refine ((onTop_trims h fun top _ l hl => ?_).mono fun _ t ht => drop ht).bind
      obtain rfl := congrArg Prod.snd (Except.ok.inj hl)
      rfl
    | false => exact drop h
  · exact ensures_fail _ _ _

theorem draw_trims (h : Trims G s.schedule.levels) (kind : DrawKind) (bound : Nat) :
    (draw kind bound).Ensures s fun _ t => Trims G t.schedule.levels := by
  refine (yields_get s).bind_ensures
    (bind_lift_ensures fun top htop => bind_lift_ensures fun r hr => ?_)
  refine (yields_set _ _).bind_ensures
    (ensures_pure (h.trans (s.schedule.trims_modifyTop fun top' htop' => ?_)))
  obtain rfl : top = top' := by simpa [Schedule.top_eq_ok.1 htop] using htop'
  rcases Level.cases_of_draw hr with ⟨hl, -⟩ | ⟨hl, -⟩ <;> rw [hl] <;> rfl

theorem forceDraw_trims (h : Trims G s.schedule.levels) (d : Draw) :
    (forceDraw d).Ensures s fun _ t => Trims G t.schedule.levels := by
  refine ((abandon_trims h true).mono fun _ t ht => ?_).bind
  refine ((onTop_trims ht fun top _ l hl => ?_).mono fun _ u hu => ?_).bind
  · obtain rfl := congrArg Prod.snd (Except.ok.inj hl)
    rfl
  · exact (yields_modify _ _).ensures hu

/-- The analysis marks levels, and at random it drops some from the end. -/
theorem analyse_trims (steady : s.Steady c) :
    analyse.Ensures s fun _ t => Trims s.schedule.levels t.schedule.levels := by
  refine (yields_get s).bind_ensures ?_
  cases s.analysis with
  | none =>
    dsimp only
    split
    · exact Ensures.within ((yields_modify _ _).ensures (.nil _))
    · exact ensures_pure (.refl _)
  | some analysis =>
    refine (Ensures.within ((Workspace.analyse_ensures steady.schedule.visited_le).mono
      fun replay w hw => ?_)).bind
    obtain ⟨-, ⟨marked, n, hmarked, hcut⟩, -⟩ := hw
    refine (yields_modify _ _).bind_ensures
      ((yields_get _).bind_ensures ((yields_modify _ _).ensures ?_))
    change Trims s.schedule.levels w.schedule.levels
    rw [hcut]
    exact hmarked.trims.trans (.take _ n)

theorem limitReversals_trims (h : Trims G s.schedule.levels) :
    limitReversals.Ensures s fun _ t => Trims G t.schedule.levels := by
  refine (yields_get s).bind_ensures ?_
  split
  · split
    · exact (yields_notify _ _).bind_ensures
        ((yields_set _ _).bind_ensures (abandon_trims (s := { s with reversals := 0 }) h false))
    · exact (yields_set _ _).ensures h
  · exact ensures_pure h

/-- Without a generator no race is reversed. -/
theorem limitReversals_of_none (h : s.generator = none) : limitReversals.Yields s () s := by
  refine (yields_get s).bind ?_
  rw [h]
  exact yields_pure () s

/-! ## What the calls leave asleep -/

namespace Steady

variable {Ended : List Level → List Level → Prop}

theorem visit_explained (steady : s.Steady c) (settled : s.schedule.Settled)
    (h : Explained Ended s.schedule.levels) (forced : Option ThreadId) (choices : Snapshot)
    (current : ThreadId) :
    (Scheduler.visit forced choices current).Ensures s fun _ t =>
      Explained Ended t.schedule.levels := by
  refine (Ensures.within (((steady.schedule.push settled choices.unstick).and
    (Schedule.push_explained h _)).mono fun added pushed hpushed => ?_)).bind
  obtain ⟨⟨sound, -, -⟩, hpushed⟩ := hpushed
  cases added with
  | true =>
    refine (yields_get _).bind_ensures ?_
    split
    · refine (Ensures.within ((sound.inheritSleep_explained hpushed).mono fun _ t ht => ?_)).bind
      exact (markTop_trims (.refl _) forced current).mono fun _ _ => ht.trims
    · exact (markTop_trims (.refl _) forced current).mono fun _ _ => hpushed.trims
  | false =>
    refine (onTop_trims (.refl _) fun top _ l hl => ?_).mono fun _ _ => hpushed.trims
    obtain rfl := congrArg Prod.snd (Except.ok.inj hl)
    rfl

/-- Where a thread is selected nothing lies above. -/
theorem settle_explained (steady : s.Steady c) (h : Explained Ended s.schedule.levels)
    (current : ThreadId) :
    (Scheduler.settle current).Ensures s fun _ t => Explained Ended t.schedule.levels := by
  refine settle_ensures (P := fun u => Explained Ended u.schedule.levels) current h fun t =>
    Ensures.within (Schedule.select_ensures fun position top _ hlevel hnone _ => ?_)
  have hlt := (List.getElem?_eq_some_iff.1 hlevel).1
  have hlast : ¬ position + 1 < s.schedule.size := fun hbelow => by
    simpa [hnone] using steady.schedule.decided position top hlevel hbelow
  refine h.select hlevel ?_ t
  rw [Schedule.size] at hlast
  omega

theorem next_explained (steady : s.Steady c) (settled : s.schedule.Settled)
    (h : Explained Ended s.schedule.levels) (choices : Snapshot) (current : ThreadId) :
    (Scheduler.next choices current).Ensures s fun _ t => Explained Ended t.schedule.levels :=
  (((steady.visit settled none choices current).and
    (steady.visit_explained settled h none choices current)).mono
      fun _ _ hvisited => hvisited.1.settle_explained hvisited.2 current).bind

theorem force_explained (steady : s.Steady c) (settled : s.schedule.Settled)
    (h : Explained Ended s.schedule.levels) (t : ThreadId) (choices : Snapshot)
    (current : ThreadId) :
    (Scheduler.force t choices current).Ensures s fun _ u => Explained Ended u.schedule.levels := by
  have kept : (Scheduler.abandon false).Ensures s fun _ u => u.Steady c ∧ u.schedule.Settled :=
    steady.abandon false fun u hu hsettled _ => ⟨hu, hsettled settled⟩
  refine ((kept.and (abandon_trims (.refl _) false)).mono fun _ u hu => ?_).bind
  obtain ⟨⟨hsteady, hsettled⟩, htrims⟩ := hu
  refine (((hsteady.visit hsettled (some t) choices current).and
    (hsteady.visit_explained hsettled (h.trims htrims) (some t) choices current)).mono
      fun _ v hv => ?_).bind
  refine ((hv.1.settle_explained hv.2 current).mono fun d w hw => ?_).bind
  split
  · exact (yields_modify _ _).ensures hw
  · exact ensures_fail _ _ _

/-- Of what the analysis leaves, the levels stay up to one where a thread is put to sleep, or where
there was none to be. -/
theorem prepare_levels (steady : s.Steady c) : Scheduler.prepare.Ensures s fun _ t =>
    Trims s.schedule.levels t.schedule.levels ∨ ∃ analysed : Schedule, analysed.Sound ∧
      Trims s.schedule.levels analysed.levels ∧ Retires analysed.levels t.schedule.levels := by
  have counted : Steady c
      { s with
        iterations := s.iterations + 1
        counters := (s.counters.add .iterations 1).raise .steps s.steps } :=
    steady.of_eq rfl rfl rfl rfl
  refine prepare_ensures ((counted.analyse.and (analyse_trims counted)).mono fun _ t ht => ?_)
  obtain ⟨analysed, htrims⟩ := ht
  refine Ensures.within (t.schedule.rewind_levels.mono fun _ rewound hrewound => ?_)
  rcases hrewound with hkept | ⟨hrandomized, hretires⟩
  · have next : Trims s.schedule.levels { t with schedule := rewound }.schedule.levels :=
      htrims.trans hkept
    exact (limitReversals_trims next).mono fun _ _ => .inl
  · have hnone : t.generator = none := by
      rw [← Option.not_isSome_iff_eq_none, analysed.generator, ← analysed.randomized, hrandomized]
      simp
    exact (limitReversals_of_none (s := { t with schedule := rewound }) hnone).ensures
      (.inr ⟨t.schedule, analysed.schedule, htrims, hretires⟩)

/-- The end of an iteration puts a thread to sleep that was selected when it ended. -/
theorem prepare_explained (steady : s.Steady c) (h : Explained Ended s.schedule.levels) :
    Scheduler.prepare.Ensures s fun _ t => Explained
      (fun U V => Ended U V ∨ U = s.schedule.levels ∧ V = t.schedule.levels)
      t.schedule.levels := by
  refine steady.prepare_levels.mono fun _ t ht => ?_
  rcases ht with htrims | ⟨analysed, sound, htrims, hretires⟩
  · exact (h.trims htrims).imp fun _ _ => .inl
  · refine ((h.trims htrims).imp fun _ _ => .inl).retire htrims (fun p l u hl hu => ?_) hretires
      (.inr ⟨rfl, rfl⟩)
    obtain ⟨e, he, -, -, hawake⟩ := (sound.level p l hl).selection u hu
    exact ⟨e, he, by simpa using hawake⟩

end Steady

/-! ## Runs -/

/-- A call that was made, with the states before and after it. -/
structure Transition where
  source : Scheduler
  call : Call
  target : Scheduler

variable {past : List Transition} {blocked : Bool}

/-- The states that are reached, as in `Reachable`, with the calls that led there, the last one
first. -/
inductive Run (c : Config) : List Transition → Scheduler → Bool → Prop
  | new : Run c [] (.new c) false
  | call {past : List Transition} {s t : Scheduler} {blocked : Bool} {call : Call} {reply : Reply} :
      Run c past s blocked → (blocked → call.ends) → (perform call).Yields s reply t →
      Run c (⟨s, call, t⟩ :: past) t reply.blocked

theorem Run.reachable (h : Run c past s blocked) : Reachable c s blocked := by
  induction h with
  | new => exact .new
  | call _ hcall hyields ih => exact .call ih hcall hyields

theorem Reachable.exists_run (h : Reachable c s blocked) : ∃ past, Run c past s blocked := by
  induction h with
  | new => exact ⟨[], .new⟩
  | call _ hcall hyields ih =>
    obtain ⟨past, hrun⟩ := ih
    exact ⟨_, .call hrun hcall hyields⟩

/-- Among the calls an iteration ended with the levels `U`, of which it left the levels `V`. -/
def EndedIn (past : List Transition) (U V : List Level) : Prop :=
  ∃ x ∈ past, x.call = .prepare ∧ x.source.schedule.levels = U ∧ x.target.schedule.levels = V

/-- Whatever call is made, every sleep has a cause among the calls up to this one. -/
theorem Steady.perform_explained (steady : s.Steady c)
    (settled : blocked = false → s.schedule.Settled) {call : Call} (hcall : blocked → call.ends)
    (h : Explained (EndedIn past) s.schedule.levels) :
    (Scheduler.perform call).Ensures s fun _ t =>
      Explained (EndedIn (⟨s, call, t⟩ :: past)) t.schedule.levels := by
  have open_ (hends : call.ends = false) : s.schedule.Settled := by
    cases blocked with
    | false => exact settled rfl
    | true => simp [hcall rfl] at hends
  have older {t : Scheduler} (ht : Explained (EndedIn past) t.schedule.levels) :
      Explained (EndedIn (⟨s, call, t⟩ :: past)) t.schedule.levels := by
    refine ht.imp fun U V hUV => ?_
    obtain ⟨x, hx, hprepare, hU, hV⟩ := hUV
    exact ⟨x, List.mem_cons_of_mem _ hx, hprepare, hU, hV⟩
  cases call with
  | next choices current =>
    exact Ensures.bind_pure ((steady.next_explained (open_ rfl) h choices current).mono
      fun _ _ => older)
  | force t choices current =>
    exact Ensures.bind_pure ((steady.force_explained (open_ rfl) h t choices current).mono
      fun _ _ => older)
  | drawBool =>
    exact Ensures.bind_pure (Ensures.bind_pure ((draw_trims (.refl _) .bool 2).mono
      fun _ _ ht => older (h.trims ht)))
  | drawInt bound =>
    exact Ensures.bind_pure ((draw_trims (.refl _) .int bound).mono
      fun _ _ ht => older (h.trims ht))
  | forceDraw d =>
    exact Ensures.bind_pure ((forceDraw_trims (.refl _) d).mono fun _ _ ht => older (h.trims ht))
  | prepare =>
    refine Ensures.bind_pure ((steady.prepare_explained h).mono fun _ t ht => ht.imp ?_)
    rintro U V (⟨x, hx, hprepare, hU, hV⟩ | ⟨rfl, rfl⟩)
    · exact ⟨x, List.mem_cons_of_mem _ hx, hprepare, hU, hV⟩
    · exact ⟨_, List.mem_cons_self, rfl, rfl, rfl⟩
  | reset => exact (yields_modify _ _).bind_ensures (ensures_pure .nil)
  | sent => exact ensures_pure (older h)
  | created => exact ensures_pure (older h)

theorem Run.explained (h : Run c past s blocked) :
    Explained (EndedIn past) s.schedule.levels := by
  induction h with
  | new => exact .nil
  | call hrun hcall hyields ih =>
    obtain ⟨steady, settled⟩ := hrun.reachable.steady
    exact steady.perform_explained settled hcall ih _ _ hyields

/-- If a thread is asleep at a level, there is a level up to this one where it was selected when
an iteration ended. It was put to sleep there then, the same threads were selected below as are now,
and from there on it is asleep, while others are selected whose operations its own does not depend
on. -/
theorem Run.asleep_justified (h : Run c past s blocked) {i : Nat} {l : Level} {e : Entry}
    (hl : s.schedule.levels[i]? = some l) (he : e ∈ l.entries) (hasleep : e.asleep) :
    ∃ j ≤ i,
      (∃ x ∈ past, x.call = .prepare ∧
        PutToSleep x.source.schedule.levels x.target.schedule.levels j e.thread ∧
        ∀ k < j, selectionAt s.schedule.levels k = selectionAt x.source.schedule.levels k) ∧
      ∀ k, j ≤ k → k < i → StaysAsleep s.schedule.levels k e.thread := by
  have ht := (h.reachable.consistent.schedule.level i l hl).dense.getElem? he
  obtain ⟨j, hj, ⟨U, V, hended, hput, hselections⟩, hstays⟩ :=
    (h.explained i e.thread ⟨l, e, hl, ht, hasleep⟩).exists_ended
  obtain ⟨x, hx, hprepare, rfl, rfl⟩ := hended
  exact ⟨j, hj, ⟨x, hx, hprepare, hput, hselections⟩, hstays⟩

/-- Two threads are each about to send to another one, or are done. -/
def strangers (first second : Bool) : Snapshot :=
  let sends (t : ThreadId) : Pending := ⟨t, true, .send, .inbox, some (t + 2), none⟩
  let done (t : ThreadId) : Pending := ⟨t, false, .stop, .thread, some t, none⟩
  [if first then sends 0 else done 0, if second then sends 1 else done 1]

/-- Each of the two runs first in one iteration, and all that is enabled is to be explored. -/
def strangersAfter (calls : Nat) : Scheduler :=
  after (.new { reduction := false })
    ([.next (strangers true true) 0, .next (strangers false true) 0, .prepare,
      .next (strangers true true) 0, .next (strangers true false) 1].take calls)

/-- In the second iteration the first thread is asleep after the other one has run, since it was
selected at the start of the first iteration. -/
theorem stranger_asleep_justified : ∃ past l e,
    Run { reduction := false } past (strangersAfter 5) true ∧
    (strangersAfter 5).schedule.levels[1]? = some l ∧ e ∈ l.entries ∧ e.asleep ∧
    ∃ j ≤ 1,
      (∃ x ∈ past, x.call = .prepare ∧
        PutToSleep x.source.schedule.levels x.target.schedule.levels j e.thread ∧
        ∀ k < j, selectionAt (strangersAfter 5).schedule.levels k =
          selectionAt x.source.schedule.levels k) ∧
      ∀ k, j ≤ k → k < 1 → StaysAsleep (strangersAfter 5).schedule.levels k e.thread := by
  have first : Run _ _ (strangersAfter 1) false :=
    .call .new (by simp) (show (perform _).Yields _ (.decision (.run 0)) _ from
      yields_of_result (by decide +kernel))
  have second : Run _ _ (strangersAfter 2) false :=
    .call first (by simp) (show (perform _).Yields _ (.decision (.run 1)) _ from
      yields_of_result (by decide +kernel))
  have prepared : Run _ _ (strangersAfter 3) false :=
    .call second (by simp) (show (perform _).Yields _ (.bool true) _ from
      yields_of_result (by decide +kernel))
  have turned : Run _ _ (strangersAfter 4) false :=
    .call prepared (by simp) (show (perform _).Yields _ (.decision (.run 1)) _ from
      yields_of_result (by decide +kernel))
  have slept : Run _ _ (strangersAfter 5) true :=
    .call turned (by simp) (show (perform _).Yields _ (.decision .allAsleep) _ from
      yields_of_result (by decide +kernel))
  have hsleeper :
      (strangersAfter 5).schedule.levels[1]?.any fun l => l.entries.any (·.asleep) := by
    decide +kernel
  obtain ⟨l, hl, hany⟩ := (Option.any_eq_true _ _).1 hsleeper
  obtain ⟨e, he, hasleep⟩ := List.any_eq_true.1 hany
  exact ⟨_, l, e, slept, hl, he, hasleep, slept.asleep_justified hl he hasleep⟩

end Scheduler

end Interleaving
