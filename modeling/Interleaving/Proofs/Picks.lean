import Interleaving.Client
import Interleaving.Proofs.Yields

/-!
# The races that are picked

After every iteration in random mode the exploration gives notice of the race that it reverses next,
or that there is none. Nothing else that it does gives such a notice, so that the notices tell the
choice after each iteration.

## Main definitions

* `Notice.pick?` — the choice that a notice tells of.
* `Action.Quiet` — an action that tells of no choice.
* `Action.Tells` — what an action comes to, and the choices that it tells of.

## Main statements

* `Client.quiet_program` — the client is executed without telling of a choice.
-/

namespace Interleaving

/-- What a notice tells of the choice of a race: the race that is reversed next, or that there is
none. -/
def Notice.pick? : Notice → Option (Option Race)
  | .noRace => some none
  | .reversing race _ _ => some (some race)
  | _ => none

namespace Action

variable {σ τ α β ι : Type}

/-- No notice that the action gives tells of a choice. -/
def Quiet (x : Action σ α) : Prop := ∀ s, ∀ n ∈ (x s).notices, n.pick? = none

theorem quiet_pure (a : α) : (pure a : Action σ α).Quiet := by simp [Quiet]

theorem quiet_get : (get : Action σ σ).Quiet := by simp [Quiet]

theorem quiet_set (s : σ) : (set s).Quiet := by simp [Quiet]

theorem quiet_modify (f : σ → σ) : (modify f).Quiet := by simp [Quiet]

theorem quiet_fail (fault : Fault) : (fail fault : Action σ α).Quiet := by simp [Quiet]

theorem quiet_lift (x : Except Fault α) : (lift x : Action σ α).Quiet := by simp [Quiet]

theorem quiet_notify {notices : List Notice} (h : ∀ n ∈ notices, n.pick? = none) :
    (notify notices : Action σ Unit).Quiet := fun _ => h

theorem Quiet.bind {x : Action σ α} {f : α → Action σ β} (hx : x.Quiet) (hf : ∀ a, (f a).Quiet) :
    (x >>= f).Quiet := by
  intro s n hn
  have hbefore := hx s
  rw [bind_apply] at hn
  cases h : x s with
  | mk result t before =>
    rw [h] at hn hbefore
    cases result with
    | error fault => exact hbefore n hn
    | ok a =>
      rcases List.mem_append.1 hn with hn | hn
      · exact hbefore n hn
      · exact hf a t n hn

theorem Quiet.within {get : σ → τ} {put : τ → σ → σ} {x : Action τ α} (hx : x.Quiet) :
    (Action.within get put x).Quiet := fun s n hn => hx (get s) n hn

theorem quiet_each {f : ι → Action σ Unit} (hf : ∀ i, (f i).Quiet) (items : List ι) :
    (each f items).Quiet := by
  induction items with
  | nil => exact quiet_pure ()
  | cons i rest ih => exact (hf i).bind fun _ => ih

theorem Quiet.ite {p : Prop} [Decidable p] {x y : Action σ α} (hx : x.Quiet) (hy : y.Quiet) :
    (if p then x else y).Quiet := by
  split
  · exact hx
  · exact hy

/-- The action ends well, in the given state and with the given value, and tells of the given
choices. -/
def Tells (x : Action σ α) (s : σ) (a : α) (t : σ) (picks : List (Option Race)) : Prop :=
  ∃ notices, x s = ⟨.ok a, t, notices⟩ ∧ notices.filterMap Notice.pick? = picks

theorem Quiet.tells {x : Action σ α} {s t : σ} {a : α} (hx : x.Quiet) (h : x.Yields s a t) :
    x.Tells s a t [] := by
  obtain ⟨notices, h⟩ := h
  refine ⟨notices, h, List.filterMap_eq_nil_iff.2 fun n hn => hx s n ?_⟩
  rw [h]
  exact hn

theorem Tells.bind {x : Action σ α} {f : α → Action σ β} {s t u : σ} {a : α} {b : β}
    {picks picks' : List (Option Race)} (hx : x.Tells s a t picks) (hf : (f a).Tells t b u picks') :
    (x >>= f).Tells s b u (picks ++ picks') := by
  obtain ⟨before, hx, rfl⟩ := hx
  obtain ⟨after, hf, rfl⟩ := hf
  exact ⟨before ++ after, by rw [bind_apply_of_ok hx, hf], List.filterMap_append⟩

theorem Quiet.bind_tells {x : Action σ α} {f : α → Action σ β} {s t u : σ} {a : α} {b : β}
    {picks : List (Option Race)} (hx : x.Quiet) (hyields : x.Yields s a t)
    (hf : (f a).Tells t b u picks) : (x >>= f).Tells s b u picks := (hx.tells hyields).bind hf

theorem Tells.bind_quiet {x : Action σ α} {f : α → Action σ β} {s t u : σ} {a : α} {b : β}
    {picks : List (Option Race)} (hx : x.Tells s a t picks) (hf : (f a).Quiet)
    (hyields : (f a).Yields t b u) : (x >>= f).Tells s b u picks := by
  have := hx.bind (hf.tells hyields)
  rwa [List.append_nil] at this

theorem Tells.within {get : σ → τ} {put : τ → σ → σ} {x : Action τ α} {s : σ} {t : τ} {a : α}
    {picks : List (Option Race)} (hx : x.Tells (get s) a t picks) :
    (Action.within get put x).Tells s a (put t s) picks := by
  obtain ⟨notices, hx, hpicks⟩ := hx
  refine ⟨notices, ?_, hpicks⟩
  rw [within_apply, hx]

end Action

open Interleaving.Action

/-! ## The schedule -/

namespace Schedule

theorem quiet_push (snapshot : Snapshot) : (push snapshot).Quiet := by
  refine quiet_get.bind fun s => (quiet_lift _).bind fun observed => ?_
  split
  · exact (quiet_notify (by simp [Notice.pick?])).bind fun _ =>
      (quiet_set _).bind fun _ => quiet_pure _
  · split
    · exact quiet_fail _
    · exact (quiet_notify (by simp [Notice.pick?])).bind fun _ =>
        (quiet_set _).bind fun _ => quiet_pure _

theorem quiet_onTop {α : Type} (f : Level → Except Fault (α × Level)) : (onTop f).Quiet :=
  quiet_get.bind fun _ => (quiet_lift _).bind fun _ => (quiet_lift _).bind fun _ =>
    (quiet_set _).bind fun _ => quiet_pure _

theorem quiet_inheritSleep : inheritSleep.Quiet := by
  refine quiet_get.bind fun s => ?_
  split
  · exact quiet_pure _
  · refine (quiet_lift _).bind fun e => (quiet_lift _).bind fun top =>
      (quiet_notify fun n hn => ?_).bind fun _ => quiet_set _
    obtain ⟨i, -, hi⟩ := List.mem_filterMap.1 hn
    obtain ⟨e, -, rfl⟩ := Option.map_eq_some_iff.1 hi
    rfl

theorem quiet_rewind : rewind.Quiet := by
  intro s n hn
  unfold rewind at hn
  split at hn
  · simp at hn
  · split at hn <;> simp at hn

end Schedule

/-! ## The scheduler -/

namespace Scheduler

theorem quiet_count (c : Counter) (n : Nat) : (count c n).Quiet := quiet_modify _

theorem quiet_onSchedule {α : Type} {x : Action Schedule α} (hx : x.Quiet) :
    (onSchedule x).Quiet := hx.within

theorem quiet_abandon (draws : Bool) : (abandon draws).Quiet := by
  refine quiet_get.bind fun s => Quiet.ite ?_ (quiet_fail _)
  exact Quiet.ite ((quiet_onSchedule (Schedule.quiet_onTop _)).bind fun _ => quiet_modify _)
    (quiet_modify _)

theorem quiet_follow (d : Directive) : (follow d).Quiet :=
  (quiet_onSchedule (quiet_modify _)).bind fun _ =>
    (quiet_onSchedule (Schedule.quiet_onTop _)).bind fun _ => quiet_modify _

theorem quiet_markTop (forced : Option ThreadId) (current : ThreadId) :
    (markTop forced current).Quiet := by
  refine quiet_get.bind fun s => (quiet_lift _).bind fun top => ?_
  split
  · exact quiet_onSchedule (quiet_modify _)
  · exact quiet_follow _
  · exact quiet_onSchedule (Schedule.quiet_onTop _)
  · exact quiet_set _
  · exact quiet_onSchedule (quiet_modify _)

theorem quiet_visit (forced : Option ThreadId) (choices : Snapshot) (current : ThreadId) :
    (visit forced choices current).Quiet := by
  refine (quiet_onSchedule (Schedule.quiet_push _)).bind fun added => Quiet.ite ?_ ?_
  · refine quiet_get.bind fun s => Quiet.ite ?_ (quiet_markTop _ _)
    exact (quiet_onSchedule Schedule.quiet_inheritSleep).bind fun _ => quiet_markTop _ _
  · exact quiet_onSchedule (Schedule.quiet_onTop _)

theorem quiet_settle (current : ThreadId) : (settle current).Quiet := by
  refine quiet_get.bind fun s => (quiet_lift _).bind fun choice => ?_
  split
  · exact (quiet_notify (by simp [Notice.pick?])).bind fun _ => quiet_pure _
  · exact quiet_pure _
  · refine (quiet_lift _).bind fun top => Quiet.ite
      ((quiet_onSchedule (Schedule.quiet_onTop _)).bind fun _ => ?_) ?_
    all_goals
      exact quiet_get.bind fun s => (quiet_lift _).bind fun top => (quiet_lift _).bind fun e =>
        Quiet.ite ((quiet_notify (by simp [Notice.pick?])).bind fun _ => quiet_pure _)
          (quiet_fail _)

theorem quiet_next (choices : Snapshot) (current : ThreadId) : (next choices current).Quiet :=
  (quiet_visit _ _ _).bind fun _ => quiet_settle _

theorem quiet_force (t : ThreadId) (choices : Snapshot) (current : ThreadId) :
    (force t choices current).Quiet :=
  (quiet_abandon _).bind fun _ => (quiet_visit _ _ _).bind fun _ => (quiet_settle _).bind fun _ =>
    Quiet.ite (quiet_count _ _) (quiet_fail _)

theorem quiet_draw (kind : DrawKind) (bound : Nat) : (draw kind bound).Quiet :=
  quiet_get.bind fun _ => (quiet_lift _).bind fun _ => (quiet_lift _).bind fun _ =>
    (quiet_set _).bind fun _ => quiet_pure _

theorem quiet_forceDraw (d : Draw) : (forceDraw d).Quiet :=
  (quiet_abandon _).bind fun _ => (quiet_onSchedule (Schedule.quiet_onTop _)).bind fun _ =>
    quiet_count _ _

theorem quiet_limitReversals : limitReversals.Quiet := by
  refine quiet_get.bind fun s => ?_
  split
  · exact Quiet.ite ((quiet_notify (by simp [Notice.pick?])).bind fun _ =>
      (quiet_set _).bind fun _ => quiet_abandon _) (quiet_set _)
  · exact quiet_pure _

end Scheduler

/-! ## The analysis -/

namespace Workspace

theorem quiet_addRaces (b : Step) (e : Entry) (a : Step) : (addRaces b e a).Quiet := by
  refine quiet_get.bind fun w => quiet_each (fun j => ?_) _
  refine quiet_get.bind fun w => (quiet_lift _).bind fun d => Quiet.ite ?_ (quiet_pure _)
  exact (quiet_notify (by simp [Notice.pick?])).bind fun _ => quiet_set _

theorem quiet_addBacktrackPoint (race : Race) (first second : ThreadId) :
    (addBacktrackPoint race first second).Quiet := by
  refine quiet_get.bind fun w => (quiet_lift _).bind fun candidates =>
    Quiet.ite (quiet_fail _) ((quiet_lift _).bind fun l => Quiet.ite (quiet_pure _) ?_)
  split
  · exact (quiet_notify (by simp [Notice.pick?])).bind fun _ => quiet_set _
  · exact quiet_fail _

theorem quiet_detect (b : Step) (e : Entry) (a : Step) : (detect b e a).Quiet := by
  refine quiet_get.bind fun w => (quiet_lift _).bind fun d => Quiet.ite (quiet_pure _)
    (Quiet.ite (quiet_addRaces b e a) ?_)
  exact (quiet_notify (by simp [Notice.pick?])).bind fun _ => (quiet_set _).bind fun _ =>
    quiet_addBacktrackPoint _ _ _

theorem quiet_visit (i : Step) : (visit i).Quiet := by
  refine quiet_get.bind fun w => (quiet_lift _).bind fun l => (quiet_lift _).bind fun e =>
    Quiet.ite (quiet_set _) ?_
  split
  · exact quiet_set _
  · refine (quiet_set _).bind fun _ => ?_
    split
    · exact quiet_pure _
    · exact Quiet.ite (quiet_fail _) ((quiet_detect _ _ _).bind fun _ => quiet_modify _)

theorem quiet_walk : walk.Quiet :=
  quiet_get.bind fun _ => (quiet_set _).bind fun _ => quiet_each quiet_visit _

theorem quiet_keep (first : Event) (steps : List Step) (kept : List Directive) :
    (keep first steps kept).Quiet := by
  induction steps generalizing kept with
  | nil => exact quiet_pure _
  | cons i rest ih =>
    refine quiet_get.bind fun w => (quiet_lift _).bind fun l => Quiet.ite ?_
      ((quiet_lift _).bind fun d => ih _)
    exact (quiet_lift _).bind fun e => Quiet.ite
      ((quiet_lift _).bind fun a => (quiet_set _).bind fun _ => ih _) (ih _)

end Workspace

/-! ## The client -/

namespace Client

variable {σ : Type} (client : Client σ)

theorem quiet_ask {α : Type} {x : Action Scheduler α} (hx : x.Quiet) :
    (ask x : Action (Scheduler × σ) α).Quiet := hx.within

theorem quiet_tellRun (t : ThreadId) : (client.tellRun t).Quiet :=
  quiet_get.bind fun _ => quiet_modify _

theorem quiet_grant (r : Request) : (client.grant r).Quiet := by
  cases r with
  | finish => exact quiet_pure _
  | next choices current =>
    refine quiet_get.bind fun s => Quiet.ite (quiet_pure _) ?_
    refine (quiet_ask (Scheduler.quiet_next _ _)).bind fun decision => ?_
    cases decision with
    | run t => exact (client.quiet_tellRun t).bind fun _ => quiet_pure _
    | deadlock | allAsleep => exact quiet_pure _
  | force t choices current =>
    refine quiet_get.bind fun s => Quiet.ite (quiet_pure _) ?_
    exact (quiet_ask (Scheduler.quiet_force _ _ _)).bind fun _ =>
      (client.quiet_tellRun t).bind fun _ => quiet_pure _
  | drawBool =>
    exact (quiet_ask ((Scheduler.quiet_draw _ _).bind fun _ => quiet_pure _)).bind fun _ =>
      (quiet_modify _).bind fun _ => quiet_pure _
  | drawInt bound =>
    exact (quiet_ask (Scheduler.quiet_draw _ _)).bind fun _ =>
      (quiet_modify _).bind fun _ => quiet_pure _
  | forceDraw d =>
    exact (quiet_ask (Scheduler.quiet_forceDraw d)).bind fun _ =>
      (quiet_modify _).bind fun _ => quiet_pure _

theorem quiet_execute (budget : Nat) : (client.execute budget).Quiet := by
  induction budget with
  | zero => exact quiet_pure _
  | succ budget ih =>
    refine quiet_get.bind fun s => (client.quiet_grant _).bind fun ending => ?_
    cases ending with
    | some ending => exact quiet_pure _
    | none => exact ih

theorem quiet_program (start : Nat → σ) (budget : σ → Nat) :
    (client.program start budget).Quiet := fun _ => client.quiet_execute _ _

end Client

theorem Exploration.quiet_report {ω : Type} (c : Config) :
    (Exploration.report c : Action (Scheduler × ω) Unit).Quiet :=
  quiet_get.bind fun _ => Quiet.ite (quiet_notify (by simp [Notice.pick?])) (quiet_pure _)

end Interleaving
