import Interleaving.Proofs.ActorIterations
import Interleaving.Proofs.SleepSets

/-!
# Deadlock and sleep

Where no thread is to be explored, the scheduler tells a deadlock from a state in which all that is
enabled is asleep by whether any thread is asleep. That is right only if no thread that is asleep is
disabled. A thread falls asleep where it was run, so it is enabled there, and it stays asleep only
while operations are run that it does not depend on. None of these disables it.

## Main definitions

* `Client.Reaches` — the states that an exploration comes to between two requests.
* `Level.Tells` — a decision says what is enabled and what is asleep at a level.
* `wakeable` — the goal that all sleeping threads are enabled.

## Main statements

* `Setting.Governs.execute_midway`, `Goal.Robust.run_ready` — where iterations come to.
* `explore_tells_deadlock_from_sleep` — every decision of an exploration is the right one.
-/

namespace Interleaving

open Interleaving.Action Relation

/-- An exploration comes to these states of its scheduler and its client: after some iterations,
none of which failed, the next one comes to them after some requests. -/
def Client.Reaches {σ : Type} (client : Client σ) (start : Nat → σ) (budget : σ → Nat) (c : Config)
    (s : Scheduler) (x : σ) : Prop :=
  ∃ (iterations requests : Nat) (t : Scheduler) (executions : Array (Execution σ)),
    (Exploration.run c (client.program start budget) iterations).Yields (Scheduler.new c, #[]) false
      (t, executions) ∧
    (client.execute requests).Yields (t, start executions.size) .stepLimit (s, x)

/-- The decision at a level is a deadlock exactly if nothing is enabled there, and that all are
asleep exactly if something is enabled and all that is enabled is asleep. -/
def Level.Tells (l : Level) (d : Decision) : Prop :=
  (d = .deadlock ↔ ∀ e ∈ l.entries, ¬ e.enabled) ∧
    (d = .allAsleep ↔ (∃ e ∈ l.entries, e.enabled) ∧ ∀ e ∈ l.entries, e.enabled → e.asleep)

/-- A thread may be run where one is enabled that is not asleep. -/
theorem Level.tells_run {l : Level} {e : Entry} (he : e ∈ l.entries) (henabled : e.enabled)
    (hawake : e.awake) (t : ThreadId) : l.Tells (.run t) := by
  have hasleep : e.asleep = false := by
    simp only [Entry.awake, Bool.and_eq_true, Bool.not_eq_true'] at hawake
    exact hawake.2
  refine ⟨⟨by simp, fun h => absurd henabled (h e he)⟩, ⟨by simp, fun h => ?_⟩⟩
  simpa [hasleep] using h.2 e he henabled

namespace Setting

variable {σ : Type} {S : Setting σ} {n : Nat} {s : Scheduler}

open Scheduler

/-- What is decided at a level that is added: the sleeping threads are enabled there, so that the
decision is the right one. -/
theorem Governs.next_fresh_tells (h : S.Governs s) (tame : S.Tame n) {visited : List Level}
    (hst : S.Stands visited) (selected : ∀ l ∈ visited, l.selected.isSome)
    {choices : Snapshot} {current : ThreadId}
    (hr : S.request (course visited) = .next choices current)
    (wakeable : ∀ e ∈ (S.fresh visited choices current).entries, e.asleep → e.enabled) :
    ∃ d l, (next choices current).Yields (s.on visited visited.length) d
        (s.on (visited ++ [l]) (visited.length + 1)) ∧
      l.pendings = choices.unstick ∧ l.Tells d := by
  have dense := tame.dense hst.follows hr
  have hvisit := h.visit_fresh dense current (getLast?_selected hst selected)
  have hpendings := S.pendings_fresh visited choices current
  have hdense : (S.fresh visited choices current).Dense := by
    rw [Level.dense_iff, hpendings]
    exact dense.unstick
  -- what could be run would be marked
  have hasleep (hnone : ∀ e ∈ (S.fresh visited choices current).entries, ¬ e.awake) :
      ∀ e ∈ (S.fresh visited choices current).entries, e.enabled → e.asleep := by
    intro e he henabled
    by_contra hwake
    obtain ⟨f, hf, hawake⟩ := exists_awake_fresh he (by simp [Entry.available, henabled, hwake])
    exact hnone f hf hawake
  cases hc : (S.fresh visited choices current).firstAwake current with
  | thread t =>
    obtain ⟨e, he, hawake, rfl⟩ := Level.exists_awake_of_firstAwake hc
    have henabled : e.enabled := by
      obtain ⟨i, hi⟩ := List.mem_iff_getElem?.1 he
      simp only [Entry.awake, Bool.and_eq_true] at hawake
      exact (getElem?_fresh hi).2.1 hawake.1
    have hrun : e.runnable := by simp [Pending.runnable, henabled]
    exact ⟨_, { S.fresh visited choices current with selected := some e.thread },
      hvisit.bind (settle_thread (by simp) hc (hdense.getElem? he) hrun), hpendings,
      Level.tells_run (l := { S.fresh visited choices current with selected := some e.thread })
        he henabled hawake _⟩
  | allAsleep =>
    obtain ⟨hnone, f, hf, hsleeps⟩ := Level.firstAwake_eq_allAsleep hc
    have henabled := wakeable f hf hsleeps
    refine ⟨_, _, hvisit.bind (settle_allAsleep (by simp) hc), hpendings, ⟨by simp, fun hall => ?_⟩,
      ⟨fun _ => ⟨⟨f, hf, henabled⟩, hasleep hnone⟩, fun _ => rfl⟩⟩
    exact absurd henabled (hall f hf)
  | nothing =>
    obtain ⟨hnone, hwake⟩ := Level.firstAwake_eq_nothing hc
    have hdisabled : ∀ e ∈ (S.fresh visited choices current).entries, ¬ e.enabled :=
      fun e he henabled => hwake e he (hasleep hnone e he henabled)
    refine ⟨_, _, hvisit.bind (settle_nothing (by simp) hc), hpendings,
      ⟨fun _ => hdisabled, fun _ => rfl⟩, ⟨by simp, ?_⟩⟩
    rintro ⟨⟨e, he, henabled⟩, -⟩
    exact absurd henabled (hdisabled e he)

/-- What is decided at a level that is replayed: the thread that is run is enabled and awake. -/
theorem Governs.next_replay_tells (tame : S.Tame n) (hmay : ∀ p, S.may p = p.enabled)
    {visited rest : List Level} {l : Level} {path : List Answer}
    (hm : S.Midway visited (l :: rest) path) (hs : ∀ l ∈ visited, l.cursor = l.draws.length)
    {choices : Snapshot} {current : ThreadId} (hr : S.request path = .next choices current) :
    ∃ d top rest', (next choices current).Yields (s.on (visited ++ l :: rest) visited.length) d
        (s.on (visited ++ top :: rest') (visited.length + 1)) ∧
      top.pendings = choices.unstick ∧ top.Tells d := by
  obtain ⟨t, top, rest', hnext, hmid, -⟩ := next_replay (s := s) tame hm hs hr
  have hst : S.Stands ((visited ++ top :: rest').map Level.settle) := by simpa using hmid.stands
  have hfits : S.Fits visited top.settle := by
    rw [List.map_append, map_settle hs, List.map_cons] at hst
    exact hst visited top.settle (rest'.map Level.settle) rfl
  obtain ⟨u, hu⟩ := Option.isSome_iff_exists.1 (hmid.selected top (by simp))
  obtain ⟨e, he, hawake⟩ := hfits.awake u hu
  have hmem : e ∈ top.entries := List.mem_of_getElem? he
  have henabled : e.enabled := by
    have hmarked : e.marked := by
      simp only [Entry.awake, Bool.and_eq_true] at hawake
      exact hawake.1
    have := hfits.marked e hmem hmarked
    rwa [hmay] at this
  exact ⟨_, top, rest', hnext, hfits.getElem?_seen (hm.path_eq_course hs ▸ hr),
    Level.tells_run hmem henabled hawake t⟩

/-- An iteration that is cut short after some requests is in the middle, and keeps the goal. -/
theorem Governs.execute_midway (h : S.Governs s) (tame : S.Tame n) {g : Goal} (kept : g.Kept S)
    {rs : List Record} {t : Scheduler} {x : σ} (requests : Nat) :
    ∀ {visited rest : List Level} {path : List Answer}, S.Midway visited rest path →
      g.Sound S rs ((visited ++ rest).map Level.settle) →
      (S.client.execute requests).Yields (s.on (visited ++ rest) visited.length, S.after path)
        .stepLimit (t, x) →
      ∃ visited' rest' path', t = s.on (visited' ++ rest') visited'.length ∧ x = S.after path' ∧
        S.Midway visited' rest' path' ∧ g.Sound S rs ((visited' ++ rest').map Level.settle) := by
  induction requests with
  | zero =>
    intro visited rest path hm hsound hx
    obtain ⟨-, heq⟩ := (yields_pure _ _).value_eq hx
    obtain ⟨rfl, rfl⟩ := Prod.mk.inj heq
    exact ⟨visited, rest, path, rfl, rfl, hm, hsound⟩
  | succ requests ih =>
    intro visited rest path hm hsound hx
    obtain ⟨_, _, hget, hx⟩ := hx.of_bind
    obtain ⟨rfl, rfl⟩ := (yields_get _).value_eq hget
    obtain ⟨reply, ⟨u, y⟩, hgrant, hx⟩ := hx.of_bind
    rcases h.grant_request tame hm with
      ⟨a, visited', rest', hg, hm', hgrow⟩ | ⟨rfl, rfl, G, ending, hg, he, hgrow⟩
    · obtain ⟨rfl, heq⟩ := hg.value_eq hgrant
      rw [← heq] at hx
      exact ih hm' (kept.growths tame hgrow hsound) hx
    · rw [List.append_nil] at hgrant
      obtain ⟨rfl, heq⟩ := hg.value_eq hgrant
      rw [← heq] at hx
      obtain ⟨rfl, heq⟩ := (yields_pure _ _).value_eq hx
      obtain ⟨rfl, rfl⟩ := Prod.mk.inj heq
      -- where the steps are used up, the iteration ends as it stands
      cases he with
      | cut => exact ⟨visited, [], course visited, by rw [List.append_nil], rfl, hm, hsound⟩

end Setting

/-- After iterations that did not fail there are levels to be replayed, and the goal is kept. -/
theorem Goal.Robust.run_ready {g : Goal} {σ : Type} {S : Setting σ} {n : Nat} {c : Config}
    {start : Nat → σ} {budget : σ → Nat} (robust : g.Robust S) (tame : S.Tame n)
    (markable : ∀ G, S.Stands G → Markable S G) (hstart : ∀ i, start i = S.start)
    (hbudget : n < budget S.start) {t : Scheduler} {executions' : Array (Execution σ)}
    (iterations : Nat) :
    ∀ {s : Scheduler} {rs : List Record} {L : List Level} {executions : Array (Execution σ)},
      S.Governs s → g.Ready S rs L →
      (Exploration.run c (S.client.program start budget) iterations).Yields (s.on L 0, executions)
        false (t, executions') →
      ∃ s' rs' L', t = s'.on L' 0 ∧ S.Governs s' ∧ g.Ready S rs' L' := by
  induction iterations with
  | zero =>
    intro s rs L executions hs h hrun
    obtain ⟨-, heq⟩ := (yields_pure _ _).value_eq hrun
    obtain ⟨rfl, rfl⟩ := Prod.mk.inj heq
    exact ⟨s, rs, L, rfl, hs, h⟩
  | succ iterations ih =>
    intro s rs L executions hs h hrun
    obtain ⟨more, ⟨u, y⟩, hiterate, hrun⟩ := hrun.of_bind
    obtain ⟨r, -, -, ⟨more', s', L', hx, hs', hready⟩ | ⟨-, s', fault, notices, hx⟩⟩ :=
      robust.iterate (c := c) tame markable hstart hbudget hs h executions
    · obtain ⟨rfl, heq⟩ := hx.value_eq hiterate
      rw [← heq] at hrun
      cases more' with
      | true => exact ih hs' (hready rfl) hrun
      | false =>
        obtain ⟨hfalse, -⟩ := (yields_pure _ _).value_eq hrun
        simp at hfalse
    · obtain ⟨notices', hiterate⟩ := hiterate
      simp [hx] at hiterate

/-! ## Actors -/

namespace Actors

open Machine

variable {scripts : List Script} {sleepSets reduction : Bool} {limit : Option Nat}

/-- All threads that are asleep are enabled. -/
def wakeable : Goal where
  Done _ _ _ := True
  Swept _ _ _ entries := ∀ e ∈ entries, e.asleep → e.enabled

theorem wakeable_robust (ordinary : Ordinary scripts) :
    wakeable.Robust ((setting scripts sleepSets reduction).limited limit) where
  mono := fun _ _ => trivial
  fresh := by
    intro rs below choices current hstands hselected hswept hr _ e he hasleep
    obtain ⟨i, hi⟩ := List.mem_iff_getElem?.1 he
    have hinherited : i ∈ inherited below := by
      rw [(Setting.getElem?_fresh hi).1, Bool.and_eq_true] at hasleep
      exact of_decide_eq_true hasleep.2
    refine enabled_of_inherited ordinary (hstands.of_limited rfl) hselected hr ?_ hinherited
      (p := e.toPending) ?_
    · rintro below' l rfl t f hf
      exact (upward_snoc.1 hswept).2 f (List.mem_of_getElem? hf)
    · rw [← Setting.pendings_fresh _ below choices current, Level.pendings_getElem?, hi,
        Option.map_some]
  leaf := fun _ _ _ => trivial
  draw := fun _ _ _ _ => trivial
  retire := by
    intro rs below l t e hfits ht he hl _ f hf hasleep
    obtain ⟨i, hi⟩ := List.mem_iff_getElem?.1 hf
    obtain ⟨g, hg, hpending, -, hsame⟩ := Level.exists_of_retired hi
    by_cases hit : i = t
    · -- the thread was selected, so it was marked
      obtain ⟨e', he', hawake⟩ := hfits.awake t ht
      obtain rfl : g = e' := by simpa [← hit, hg] using he'
      simp only [Entry.awake, Bool.and_eq_true] at hawake
      rw [show f.enabled = g.enabled from congrArg Pending.enabled hpending]
      exact hfits.marked g (List.mem_of_getElem? hg) hawake.1
    · obtain rfl := hsame hit
      exact hl f (List.mem_of_getElem? hg) hasleep
  exhaust := fun _ _ _ _ => trivial
  marks := by
    intro rs r G G' hm _ hswept below' l' above' hG' e' he' hasleep
    obtain ⟨below, l, above, rfl, -, hl⟩ := hm.exists_split hG'
    obtain ⟨i, hi⟩ := List.mem_iff_getElem?.1 he'
    obtain ⟨e, he, hpending, hsame, -⟩ := hl.of_getElem? hi
    rw [show e'.enabled = e.enabled from congrArg Pending.enabled hpending]
    exact hswept below l above rfl e (List.mem_of_getElem? he) (hsame ▸ hasleep)

/-- Ordinary scripts never get stuck on a yield, so that nothing of what they show is changed. -/
theorem unstick_of_request (ordinary : Ordinary scripts) {p : List Answer} {choices : Snapshot}
    {current : ThreadId} (hp : (setting scripts sleepSets reduction).Follows p)
    (hr : (setting scripts sleepSets reduction).request p = .next choices current) :
    choices.unstick = choices := by
  obtain ⟨pre, hpre, rfl, -⟩ := exists_executes_of_next ordinary hp hr
  have orderly := hpre.orderly (orderly_load ordinary)
  rw [request_told] at hr
  rcases orderly.request_cases (hpre.idle (orderly_load ordinary) rfl) with h | h
  · simp [h] at hr
  · rw [h] at hr
    obtain ⟨rfl, -⟩ := Request.next.inj hr
    exact orderly.unstick_snapshot

/-- What is decided where an exploration comes to. -/
theorem exists_tells (ordinary : Ordinary scripts) {c : Config} (mode : c.mode = .depthFirst)
    {s : Scheduler} {m : Machine}
    (h : Machine.client.Reaches (Campaign.mk [scripts] []).machine Machine.budget c s m)
    {choices : Snapshot} {current : ThreadId} (hr : m.request = .next choices current) :
    ∃ d t l, (Scheduler.next choices current).Yields s d t ∧ t.schedule.top? = some l ∧
      l.pendings = choices ∧ l.Tells d := by
  let S := (setting scripts c.sleepSets c.reduction).limited c.stepLimit
  have tame : S.Tame (2 * Script.work scripts.flatten) := ordinary.tame.limited c.stepLimit
  have robust : wakeable.Robust S := wakeable_robust ordinary
  have hready : wakeable.Ready S [] [] :=
    ⟨⟨upward_nil _, upward_nil _, upward_nil _, by simp⟩, by simp⟩
  obtain ⟨iterations, requests, t, executions, hrun, hexecute⟩ := h
  rw [machine_single] at hexecute
  obtain ⟨s', rs, L, rfl, hs', hready⟩ := robust.run_ready tame
    (fun G => markable_of_stands ordinary) (machine_single scripts) (lt_budget scripts) iterations
    (Setting.governs_new mode rfl rfl rfl) hready hrun
  obtain ⟨visited, rest, path, rfl, rfl, hm, hsound⟩ :=
    hs'.execute_midway tame robust.toKept requests hready.midway hready.sound hexecute
  replace hr : S.request path = .next choices current := hr
  have hs := hm.all_settled (by simp [hr])
  have hshown : choices.unstick = choices := unstick_of_request ordinary hm.follows.of_limited hr
  cases rest with
  | cons l rest =>
    obtain ⟨d, top, rest', hnext, hpendings, htells⟩ :=
      Setting.Governs.next_replay_tells (s := s') tame (fun _ => rfl) hm hs hr
    exact ⟨d, _, top, hnext, Schedule.top_eq_ok.1 (Scheduler.top_mid rfl), hpendings.trans hshown,
      htells⟩
  | nil =>
    rw [List.append_nil, map_settle hs] at hsound
    have hr' : S.request (course visited) = .next choices current := hm.path_eq_course hs ▸ hr
    obtain ⟨d, l, hnext, hpendings, htells⟩ := hs'.next_fresh_tells tame hsound.stands hm.selected
      hr' (robust.fresh hsound.stands hm.selected hsound.swept hr' fun r hrs =>
        hsound.stands.not_course_isPrefix hm.selected (hsound.passed r hrs))
    rw [List.append_nil]
    exact ⟨d, _, l, hnext, Schedule.top_eq_ok.1 (Scheduler.top_mid rfl), hpendings.trans hshown,
      htells⟩

/-- Wherever an exploration of ordinary scripts in depth-first mode asks which thread is to run, it
is told of a deadlock exactly if nothing is enabled, and that all are asleep exactly if something is
enabled and all that is enabled is asleep at the level of the decision. -/
theorem explore_tells_deadlock_from_sleep (ordinary : Ordinary scripts) {c : Config}
    (mode : c.mode = .depthFirst) {s : Scheduler} {m : Machine}
    (h : Machine.client.Reaches (Campaign.mk [scripts] []).machine Machine.budget c s m)
    {choices : Snapshot} {current : ThreadId} (hr : m.request = .next choices current) :
    ∃ d t l, (Scheduler.next choices current).Yields s d t ∧ t.schedule.top? = some l ∧
      l.pendings = choices ∧ (d = .deadlock ↔ ∀ p ∈ choices, ¬ p.enabled) ∧
      (d = .allAsleep ↔
        (∃ p ∈ choices, p.enabled) ∧ ∀ e ∈ l.entries, e.enabled → e.asleep) := by
  obtain ⟨d, t, l, hnext, htop, hpendings, hdeadlock, hasleep⟩ := exists_tells ordinary mode h hr
  have hmem (p : Pending) : p ∈ choices ↔ ∃ e ∈ l.entries, e.toPending = p := by
    rw [← hpendings, Level.pendings, List.mem_map]
  refine ⟨d, t, l, hnext, htop, hpendings, hdeadlock.trans ?_, hasleep.trans ?_⟩
  · simp [hmem]
  · simp [hmem]

/-! ### Two sends to different inboxes -/

def strangers : Campaign := ⟨[[[.send 0], [.send 1]]], []⟩

/-- After one iteration, in which the first actor sent first. -/
def rewound : Scheduler × Array (Execution Machine) :=
  (Exploration.run { reduction := false } strangers.program 1
    (Scheduler.new { reduction := false }, #[])).state

/-- In the second iteration the second actor has sent first, and the first one is asleep. -/
def dozing : Scheduler × Machine :=
  (Machine.client.execute 1 (rewound.1, strangers.machine rewound.2.size)).state

/-- The first actor, which is asleep, is enabled all the same. -/
theorem explore_tells_sleep_of_strangers :
    (Scheduler.next dozing.2.snapshot 1 dozing.1).result = .ok .allAsleep ∧
    ∃ d t l, (Scheduler.next dozing.2.snapshot 1).Yields dozing.1 d t ∧
      t.schedule.top? = some l ∧ l.pendings = dozing.2.snapshot ∧
      (d = .deadlock ↔ ∀ p ∈ dozing.2.snapshot, ¬ p.enabled) ∧
      (d = .allAsleep ↔ (∃ p ∈ dozing.2.snapshot, p.enabled) ∧
        ∀ e ∈ l.entries, e.enabled → e.asleep) := by
  have reaches : Machine.client.Reaches strangers.machine Machine.budget { reduction := false }
      dozing.1 dozing.2 :=
    ⟨1, 1, rewound.1, rewound.2, yields_of_result (by decide +kernel),
      yields_of_result (by decide +kernel)⟩
  refine ⟨by decide +kernel, explore_tells_deadlock_from_sleep ?_ rfl reaches (by decide +kernel)⟩
  simp [Throughout, Instruction.every, Instruction.ordinary]

end Actors

end Interleaving
