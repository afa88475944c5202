import Interleaving.Proofs.Exploring

/-!
# Exploration without reduction

Without reduction and without sleep sets, an exploration goes every complete path of a client, each
of them once. The clients here keep all that they were told, so that what they ask for next may be
any function of it.

## Main definitions

* `Runtime` — a deterministic program, as a function of what it was told.
* `Setting.exhaustive` — the goal that every complete path is gone.

## Main statements

* `Runtime.explore_every_path_once` — the iterations are the complete paths, each once.
-/

namespace Interleaving

namespace Setting

variable {σ : Type} (S : Setting σ)

/-- Every complete path is gone. Of threads that are asleep at a level, every path through them
was. -/
def exhaustive : Goal where
  Done rs p _ := ∀ q, S.Complete q → p <+: q → q ∈ rs.map Prod.fst
  Swept rs p _ entries := (∀ e ∈ entries, e.enabled → e.marked) ∧
    ∀ (t : Nat) (e : Entry), entries[t]? = some e → e.asleep → ∀ q, S.Complete q →
      p ++ [.run t (decisions p + 1)] <+: q → q ∈ rs.map Prod.fst

variable {S}

theorem asleep_fresh (hs : S.sleepSets = false) {below : List Level} {choices : Snapshot}
    {current : ThreadId} {i : Nat} {e : Entry}
    (he : (S.fresh below choices current).entries[i]? = some e) : e.asleep = false := by
  rw [(getElem?_fresh he).1, hs, Bool.false_and]

namespace Ends

variable {H G : List Level} {ending : Ending}

/-- Without sleep sets an iteration ends because the client is done or cannot go on. -/
theorem eq_of_no_sleep (h : S.Ends H G ending) (hs : S.sleepSets = false)
    (hlimit : S.stepLimit = none) :
    ending = if S.request (course H) = .finish then .allFinished else .deadlock := by
  cases h with
  | finished _ request => simp [request]
  | deadlock _ request => simp [request]
  | allAsleep _ _ all =>
    obtain ⟨e, he, ha⟩ := (Level.firstAwake_eq_allAsleep all).2
    obtain ⟨i, hi⟩ := List.mem_iff_getElem?.1 he
    simp [asleep_fresh hs hi] at ha
  | cut _ _ hl => simp [hlimit] at hl

theorem ne_allAsleep (h : S.Ends H G ending) (hs : S.sleepSets = false)
    (hlimit : S.stepLimit = none) : ending ≠ .allAsleep := by
  rw [h.eq_of_no_sleep hs hlimit]
  split <;> simp

end Ends

theorem exhaustive_lawful {n : Nat} (tame : S.Tame n) (hmay : ∀ p, S.may p = p.enabled)
    (hr : S.reduction = false) (hs : S.sleepSets = false) (hlimit : S.stepLimit = none) :
    S.exhaustive.Lawful S where
  mono := fun hsub h q hq hp => List.map_subset Prod.fst hsub (h q hq hp)
  fresh := by
    intro rs below choices current _ _ _ _ _
    refine ⟨fun e he henabled => ?_, fun t e he ha => ?_⟩
    · obtain ⟨i, hi⟩ := List.mem_iff_getElem?.1 he
      exact (getElem?_fresh hi).2.2 hr henabled
    · simp [asleep_fresh hs he] at ha
  analyse := by
    intro rs s H G ending hgov _ _ hswept
    refine ⟨s, G, hgov.analyse_none hr G, hgov, .refl G, hswept.mono fun below l hl => ?_⟩
    refine ⟨hl.1, fun t e he ha q hq hp => ?_⟩
    exact List.map_subset Prod.fst (List.subset_append_left _ _) (hl.2 t e he ha q hq hp)
  leaf := by
    intro rs H G ending hG hends _ q hq hp
    obtain ⟨rest, rfl⟩ := hp
    obtain rfl := (hends.complete hG hmay hlimit (hends.ne_allAsleep hs hlimit)).eq_of_append hq.1
    simp
  draw := by
    intro rs p z hp hdraw hfalse htrue q hq hpq
    rcases hq.1.eq_or_snoc_isPrefix hpq with rfl | ⟨a, ha, hpre⟩
    · have := hq.2
      simp [offers, hdraw] at this
    · simp only [offers, hdraw, List.mem_cons, List.not_mem_nil, or_false] at ha
      rcases ha with rfl | rfl
      · exact hfalse q hq hpre
      · exact htrue q hq hpre
  retire := by
    intro rs below l t e hfits ht he hl hdone
    refine ⟨Level.marked_retired hl.1 t, fun u f hf ha q hq hp => ?_⟩
    by_cases hu : u = t
    · rw [hu, decisions_course hfits.below_selected] at hp
      exact hdone q hq hp
    · obtain ⟨g, hg, -, -, hsame⟩ := Level.exists_of_retired hf
      obtain rfl := hsame hu
      exact hl.2 u f hg ha q hq hp
  exhaust := by
    rintro rs below l hfits ⟨e, he, hm⟩ hex hl q hq hp
    obtain ⟨choices, current, hreq, hpend⟩ := hfits.seen
    have offered {p : Pending} (hp : p ∈ choices.unstick) (hen : S.may p) :
        Answer.run p.thread (decisions (course below) + 1) ∈ S.offers (course below) :=
      run_mem_offers.2 ⟨choices, current, hreq, rfl, p, hp, hen, rfl⟩
    rcases hq.1.eq_or_snoc_isPrefix hp with rfl | ⟨a, ha, hpre⟩
    · have hmem : e.toPending ∈ choices.unstick := hpend ▸ List.mem_map_of_mem he
      have := offered hmem (hfits.marked e he hm)
      simp [hq.2] at this
    · simp only [offers, hreq, List.mem_map, List.mem_filter, hmay] at ha
      obtain ⟨p, ⟨hmem, henabled⟩, rfl⟩ := ha
      rw [← hpend] at hmem
      obtain ⟨f, hf, rfl⟩ := List.mem_map.1 hmem
      -- all that is marked is asleep
      have hasleep : f.asleep := by
        have := Level.exhausted_iff.1 hex f hf
        simpa [Entry.awake, hl.1 f hf henabled] using this
      exact hl.2 f.thread f ((hfits.dense tame).getElem? hf) hasleep q hq hpre

end Setting

/-- A deterministic program: what it asks for next is a function of what it was told so far. -/
def Runtime : Type := List Answer → Request

namespace Runtime

/-- The runtime as a client, whose state is all that it was told. -/
def client (R : Runtime) : Client (List Answer) := ⟨R, fun a told => told ++ [a]⟩

/-- The runtime, explored without reduction and sleep sets. -/
def setting (R : Runtime) : Setting (List Answer) := .ofEnabled R.client [] false false

@[simp] theorem after_setting (R : Runtime) (path : List Answer) : R.setting.after path = path := by
  induction path using List.reverseRecOn with
  | nil => rfl
  | append_singleton path a ih =>
    rw [Setting.after_snoc, ih]
    rfl

@[simp] theorem request_setting (R : Runtime) (path : List Answer) :
    R.setting.request path = R path := by
  rw [Setting.request, after_setting]
  rfl

/-- Without reduction, sleep sets and limits, the exploration of a tame runtime ends well. Its
iterations go every complete path of the runtime, each of them once; they end with all finished
if the runtime has nothing more to ask for, and otherwise in a deadlock. -/
theorem explore_every_path_once (R : Runtime) {n : Nat} (tame : R.setting.Tame n) {c : Config}
    (mode : c.mode = .depthFirst) (reduction : c.reduction = false)
    (sleepSets : c.sleepSets = false) (stepLimit : c.stepLimit = none)
    (maxIterations : c.maxIterations = none) {budget : Nat} (hbudget : n < budget) :
    ∃ (runs : List (List Answer × Ending)) (stats : Stats),
      (∀ fuel, (R.setting.pathsUpTo n).length < fuel →
        (explore c (R.client.program (fun _ => []) fun _ => budget) fuel).Yields #[] (some stats)
          (runs.map fun r => ⟨r.1, some r.2⟩).toArray) ∧
      (runs.map Prod.fst).Nodup ∧
      (∀ path, path ∈ runs.map Prod.fst ↔ R.setting.Complete path) ∧
      ∀ r ∈ runs, r.2 = if R r.1 = .finish then .allFinished else .deadlock := by
  have lawful := Setting.exhaustive_lawful tame (fun _ => rfl) rfl rfl rfl
  obtain ⟨rs, stats, hx, nodup, ran, done⟩ := lawful.explore (fun _ => []) (fun _ => budget) tame
    mode reduction sleepSets stepLimit maxIterations (fun _ => rfl) hbudget
  refine ⟨rs, stats, fun fuel hfuel => ?_, nodup, fun path => ⟨fun hp => ?_, fun hp => ?_⟩, ?_⟩
  · have hexecution : R.setting.execution = fun r => ⟨r.1, some r.2⟩ := by
      funext r
      simp [Setting.execution]
    rw [← hexecution]
    exact hx fuel hfuel
  · obtain ⟨r, hr, rfl⟩ := List.mem_map.1 hp
    obtain ⟨H, G, hG, hends, heq⟩ := ran r hr
    rw [heq]
    exact hends.complete hG (fun _ => rfl) rfl (hends.ne_allAsleep rfl rfl)
  · exact done path hp (List.nil_prefix)
  · intro r hr
    obtain ⟨H, G, -, hends, heq⟩ := ran r hr
    rw [hends.eq_of_no_sleep rfl rfl, request_setting, heq]

/-- Two threads of one step each, the first of which draws a truth value. -/
def coin : Runtime
  | [] => .next [{ thread := 0, enabled := true, op := .yield },
      { thread := 1, enabled := true, op := .yield }] 0
  | [.run 0 _] => .drawBool
  | _ => .finish

theorem mem_of_follows_coin {p : List Answer} (h : coin.setting.Follows p) :
    p ∈ [[], [.run 0 1], [.run 1 1], [.run 0 1, .bool false], [.run 0 1, .bool true]] := by
  have closed : ∀ p ∈ [[], [.run 0 1], [.run 1 1], [.run 0 1, .bool false], [.run 0 1, .bool true]],
      ∀ a ∈ coin.setting.offers p, p ++ [a] ∈
        [[], [.run 0 1], [.run 1 1], [.run 0 1, .bool false], [.run 0 1, .bool true]] := by
    decide
  induction h with
  | nil => exact List.mem_cons_self
  | snoc _ ha ih => exact closed _ ih _ ha

theorem tame_coin : coin.setting.Tame 2 where
  dense := by
    intro path choices current hp hr
    have := mem_of_follows_coin hp
    fin_cases this
    all_goals simp [coin] at hr
    obtain ⟨rfl, -⟩ := hr
    intro i p hi
    match i with
    | 0 | 1 => simp at hi; subst hi; rfl
    | i + 2 => simp at hi
  drawn := by
    rintro path hp hr rfl
    simp [coin] at hr
  plain := by
    intro path hp
    have := mem_of_follows_coin hp
    fin_cases this
    all_goals simp [coin]
  bounded := by
    intro path hp
    have := mem_of_follows_coin hp
    fin_cases this
    all_goals simp

/-- The three complete paths of the two threads are gone once each. -/
theorem explore_coin_every_path_once :
    ∃ (runs : List (List Answer × Ending)) (stats : Stats),
      (∀ fuel, (coin.setting.pathsUpTo 2).length < fuel →
        (explore { reduction := false, sleepSets := false }
          (coin.client.program (fun _ => []) fun _ => 3) fuel).Yields #[] (some stats)
          (runs.map fun r => ⟨r.1, some r.2⟩).toArray) ∧
      (runs.map Prod.fst).Nodup ∧
      (∀ path, path ∈ runs.map Prod.fst ↔ coin.setting.Complete path) ∧
      ∀ r ∈ runs, r.2 = if coin r.1 = .finish then .allFinished else .deadlock :=
  explore_every_path_once coin tame_coin rfl rfl rfl rfl rfl (by decide)

end Runtime

end Interleaving
