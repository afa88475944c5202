import Interleaving.Proofs.Scheduling

/-!
# One iteration

An iteration follows the course of the levels that are there, and from its end on the stack grows
until the client is done or nothing is left to run. In the middle of an iteration the stack is
split into the levels that were visited, the last of which may have draws to be replayed, and the
rest.

## Main definitions

* `Level.told` — what a level told the client in this iteration.
* `Setting.Midway` — a stack in the middle of an iteration.
* `Setting.Ends` — how the stack stands when an iteration ends.

## Main statements

* `Setting.Governs.execute_yields` — an iteration ends well, and the stack has grown.
-/

namespace Interleaving

open Interleaving.Action Relation

/-- What a level told the client so far: of its draws, those before the cursor. -/
def Level.told (l : Level) : List Answer :=
  match l.selected with
  | some t => .run t l.step :: ((l.draws.take l.cursor).map Draw.truth).map Answer.bool
  | none => []

theorem Level.told_of_selected {l : Level} {t : ThreadId} (h : l.selected = some t) :
    l.told = .run t l.step :: ((l.draws.take l.cursor).map Draw.truth).map Answer.bool := by
  simp [told, h]

/-- A level all of whose draws were replayed told all that it has to tell. -/
theorem Level.told_eq_answers {l : Level} (h : l.cursor = l.draws.length) : l.told = l.answers := by
  unfold told answers
  cases l.selected <;> simp [h]

@[simp] theorem Level.answers_settle (l : Level) : l.settle.answers = l.answers := rfl

@[simp] theorem Level.selected_settle (l : Level) : l.settle.selected = l.selected := rfl

theorem Level.settle_eq {l : Level} (h : l.cursor = l.draws.length) : l.settle = l := by
  cases l
  simp_all [settle]

theorem map_settle {G : List Level} (h : ∀ l ∈ G, l.cursor = l.draws.length) :
    G.map Level.settle = G := by
  conv_rhs => rw [← List.map_id G]
  exact List.map_congr_left fun l hl => Level.settle_eq (h l hl)

/-! ## Requests -/

namespace Client

open Scheduler

variable {σ : Type} (client : Client σ) {s s' : Scheduler} {choices : Snapshot} {current : ThreadId}

theorem ask_yields {α : Type} {x : Action Scheduler α} {a : α} (h : x.Yields s a s') (y : σ) :
    (ask x).Yields (s, y) a (s', y) :=
  @Yields.within _ _ _ Prod.fst (fun s w => (s, w.2)) x (s, y) s' a h

theorem grant_cut (hlimit : s.atStepLimit = true) (x : σ) :
    (client.grant (.next choices current)).Yields (s, x) (some .stepLimit) (s, x) := by
  refine (yields_get _).bind ?_
  simp only [hlimit, if_true]
  exact yields_pure _ _

theorem grant_run (hlimit : s.atStepLimit = false) {t : ThreadId}
    (h : (next choices current).Yields s (.run t) s') (x : σ) :
    (client.grant (.next choices current)).Yields (s, x) none
      (s', client.resume (.run t s'.steps) x) := by
  refine (yields_get _).bind ?_
  simp only [hlimit, Bool.false_eq_true, if_false]
  refine (ask_yields h x).bind ?_
  exact ((yields_get _).bind (yields_modify _ _)).bind (yields_pure _ _)

theorem grant_deadlock (hlimit : s.atStepLimit = false)
    (h : (next choices current).Yields s .deadlock s') (x : σ) :
    (client.grant (.next choices current)).Yields (s, x) (some .deadlock) (s', x) := by
  refine (yields_get _).bind ?_
  simp only [hlimit, Bool.false_eq_true, if_false]
  exact (ask_yields h x).bind (yields_pure _ _)

theorem grant_allAsleep (hlimit : s.atStepLimit = false)
    (h : (next choices current).Yields s .allAsleep s') (x : σ) :
    (client.grant (.next choices current)).Yields (s, x) (some .allAsleep) (s', x) := by
  refine (yields_get _).bind ?_
  simp only [hlimit, Bool.false_eq_true, if_false]
  exact (ask_yields h x).bind (yields_pure _ _)

theorem grant_drawBool {b : Bool} (h : drawBool.Yields s b s') (x : σ) :
    (client.grant .drawBool).Yields (s, x) none (s', client.resume (.bool b) x) :=
  (ask_yields h x).bind ((yields_modify _ _).bind (yields_pure _ _))

end Client

namespace Setting

variable {σ : Type} (S : Setting σ)

/-- A stack that stands is settled. -/
theorem Stands.map_settle {S : Setting σ} {G : List Level} (h : S.Stands G) :
    G.map Level.settle = G := by
  refine Interleaving.map_settle fun l hl => ?_
  obtain ⟨below, above, rfl⟩ := List.append_of_mem hl
  exact (h below l above rfl).settled

/-- The levels `visited` were visited on the way along `path`, and `rest` is still to come. -/
structure Midway (visited rest : List Level) (path : List Answer) : Prop where
  stands : S.Stands ((visited ++ rest).map Level.settle)
  path_eq : path = visited.flatMap Level.told
  selected : ∀ l ∈ visited, l.selected.isSome
  settled : ∀ below top, visited = below ++ [top] →
    (∀ l ∈ below, l.cursor = l.draws.length) ∧ top.cursor ≤ top.draws.length
  poised : ∀ l ∈ rest, l.selected = none → ∃ e ∈ l.entries, e.awake

/-- How an iteration ends that went along the levels `H`: it leaves these, and over them the level
where nothing was left to run, if there is one. -/
inductive Ends (H : List Level) : List Level → Ending → Prop
  | finished : (∀ l ∈ H, l.selected.isSome) → S.request (course H) = .finish →
      Ends H H .allFinished
  | deadlock {choices : Snapshot} {current : ThreadId} :
      (∀ l ∈ H, l.selected.isSome) → S.request (course H) = .next choices current →
      (S.fresh H choices current).firstAwake current = .nothing →
      Ends H (H ++ [S.fresh H choices current]) .deadlock
  | allAsleep {choices : Snapshot} {current : ThreadId} :
      (∀ l ∈ H, l.selected.isSome) → S.request (course H) = .next choices current →
      (S.fresh H choices current).firstAwake current = .allAsleep →
      Ends H (H ++ [S.fresh H choices current]) .allAsleep
  /-- The iteration is cut short at its limit. -/
  | cut {choices : Snapshot} {current : ThreadId} {limit : Nat} :
      (∀ l ∈ H, l.selected.isSome) → S.request (course H) = .next choices current →
      S.stepLimit = some limit → limit ≤ H.length → Ends H H .stepLimit

variable {S}

namespace Midway

variable {visited rest : List Level} {path : List Answer}

/-- What the visited levels have still to tell are the draws to be replayed at the last one. -/
theorem course_settle {below : List Level} {top : Level}
    (h : S.Midway (below ++ [top]) rest path) :
    course ((below ++ [top]).map Level.settle) =
      path ++ ((top.draws.drop top.cursor).map Draw.truth).map Answer.bool := by
  obtain ⟨t, ht⟩ := Option.isSome_iff_exists.1 (h.selected top (by simp))
  have hbelow : course (below.map Level.settle) = below.flatMap Level.told := by
    simp only [course, List.flatMap_map, Level.answers_settle]
    exact List.flatMap_congr fun l hl =>
      (Level.told_eq_answers ((h.settled below top rfl).1 l hl)).symm
  rw [h.path_eq, List.map_append, course_append, hbelow, List.map_singleton, course_singleton,
    Level.answers_settle, Level.answers_of_selected ht, List.flatMap_append,
    List.flatMap_singleton, Level.told_of_selected ht]
  conv_lhs => rw [← List.take_append_drop top.cursor top.draws]
  simp

theorem follows (h : S.Midway visited rest path) : S.Follows path := by
  cases visited using List.reverseRecOn with
  | nil => rw [h.path_eq]; exact .nil
  | append_singleton below top =>
    have hst := h.stands
    rw [List.map_append] at hst
    have hfollows := Stands.follows hst.of_append
    rw [h.course_settle] at hfollows
    exact hfollows.of_append

/-- While draws are left to be replayed at the last visited level, the client asks for one. -/
theorem request_of_cursor_lt {below : List Level} {top : Level}
    (h : S.Midway (below ++ [top]) rest path) (hlt : top.cursor < top.draws.length) :
    S.request path = .drawBool := by
  have hst := h.stands
  rw [List.map_append] at hst
  have hfollows := Stands.follows hst.of_append
  rw [h.course_settle, List.drop_eq_getElem_cons hlt, List.map_cons, List.map_cons] at hfollows
  exact bool_mem_offers.1 hfollows.mem_offers

/-- If the client asks for something else than a draw, all visited levels are settled. -/
theorem all_settled (h : S.Midway visited rest path) (hr : S.request path ≠ .drawBool) :
    ∀ l ∈ visited, l.cursor = l.draws.length := by
  cases visited using List.reverseRecOn with
  | nil => simp
  | append_singleton below top =>
    obtain ⟨hb, htop⟩ := h.settled below top rfl
    intro l hl
    rcases List.mem_append.1 hl with hl | hl
    · exact hb l hl
    · rw [List.mem_singleton.1 hl]
      by_contra hne
      exact hr (h.request_of_cursor_lt (by omega))

/-- With all visited levels settled, the path is their course. -/
theorem path_eq_course (h : S.Midway visited rest path)
    (hs : ∀ l ∈ visited, l.cursor = l.draws.length) : path = course visited := by
  rw [h.path_eq, course]
  exact List.flatMap_congr fun l hl => Level.told_eq_answers (hs l hl)

theorem stands_visited (h : S.Midway visited rest path)
    (hs : ∀ l ∈ visited, l.cursor = l.draws.length) :
    S.Stands (visited ++ rest.map Level.settle) := by
  have := h.stands
  rwa [List.map_append, map_settle hs] at this

/-- The next level to be visited fits over the visited ones. -/
theorem fits_next {l : Level} (h : S.Midway visited (l :: rest) path)
    (hs : ∀ l ∈ visited, l.cursor = l.draws.length) : S.Fits visited l.settle := by
  have := h.stands_visited hs
  rw [List.map_cons] at this
  exact this visited l.settle (rest.map Level.settle) rfl

/-- A level that is still to come asks for a thread to run. -/
theorem rest_eq_nil (h : S.Midway visited rest path)
    (hs : ∀ l ∈ visited, l.cursor = l.draws.length)
    (hr : ∀ choices current, S.request path ≠ .next choices current) : rest = [] := by
  cases rest with
  | nil => rfl
  | cons l rest =>
    obtain ⟨choices, current, hnext, -⟩ := (h.fits_next hs).seen
    rw [← h.path_eq_course hs] at hnext
    exact absurd hnext (hr choices current)

@[simp] theorem settle_rewindDraws (l : Level) : l.rewindDraws.settle = l.settle := rfl

/-- A level with a selection is visited: its draws come again. -/
theorem visit_selected {l : Level} {t : ThreadId} (h : S.Midway visited (l :: rest) path)
    (hs : ∀ l ∈ visited, l.cursor = l.draws.length) (ht : l.selected = some t) :
    S.Midway (visited ++ [l.rewindDraws]) rest (path ++ [.run t (visited.length + 1)]) where
  stands := by simpa using h.stands
  path_eq := by
    have hstep : l.step = visited.length + 1 := (h.fits_next hs).step_eq
    rw [h.path_eq, List.flatMap_append, List.flatMap_singleton,
      Level.told_of_selected (show l.rewindDraws.selected = some t from ht)]
    simp [Level.rewindDraws, hstep]
  selected := by
    intro m hm
    rcases List.mem_append.1 hm with hm | hm
    · exact h.selected m hm
    · rw [List.mem_singleton.1 hm, show l.rewindDraws.selected = some t from ht]
      rfl
  settled := by
    intro below top heq
    obtain ⟨rfl, htop⟩ := List.append_inj' heq rfl
    obtain rfl : l.rewindDraws = top := by simpa using htop
    exact ⟨hs, Nat.zero_le _⟩
  poised := fun m hm => h.poised m (List.mem_cons_of_mem l hm)

/-- A thread is selected at the last level and run. -/
theorem of_selected {l : Level} {t : ThreadId} (hst : S.Stands (visited ++ [l]))
    (hs : ∀ l ∈ visited, l.cursor = l.draws.length) (ht : l.selected = some t)
    (hd : l.draws = []) :
    S.Midway (visited ++ [l]) [] (course visited ++ [.run t (visited.length + 1)]) := by
  obtain ⟨hvis, hfits⟩ := upward_snoc.1 hst
  have hcur : l.cursor = 0 := by rw [hfits.settled, hd]; rfl
  have hall : ∀ m ∈ visited ++ [l], m.cursor = m.draws.length := by
    intro m hm
    rcases List.mem_append.1 hm with hm | hm
    · exact hs m hm
    · rw [List.mem_singleton.1 hm, hfits.settled]
  refine ⟨?_, ?_, ?_, ?_, by simp⟩
  · rwa [List.append_nil, map_settle hall]
  · rw [List.flatMap_append, List.flatMap_singleton, Level.told_of_selected ht, hfits.step_eq, hd,
      course, List.flatMap_congr fun m hm => (Level.told_eq_answers (hs m hm)).symm]
    simp
  · intro m hm
    rcases List.mem_append.1 hm with hm | hm
    · exact hfits.below_selected m hm
    · rw [List.mem_singleton.1 hm, ht]
      rfl
  · intro below top heq
    obtain ⟨rfl, htop⟩ := List.append_inj' heq rfl
    obtain rfl : l = top := by simpa using htop
    exact ⟨hs, by omega⟩

/-- A draw of the last visited level is replayed. -/
theorem draw_replay {below : List Level} {top : Level} {b : Bool}
    (h : S.Midway (below ++ [top]) rest path) (hb : top.draws[top.cursor]? = some (.ofBool b)) :
    S.Midway (below ++ [{ top with cursor := top.cursor + 1 }]) rest (path ++ [.bool b]) where
  stands := by simpa [Level.settle] using h.stands
  path_eq := by
    obtain ⟨t, ht⟩ := Option.isSome_iff_exists.1 (h.selected top (by simp))
    obtain ⟨hlt, hget⟩ := List.getElem?_eq_some_iff.1 hb
    rw [h.path_eq, List.flatMap_append, List.flatMap_append, List.flatMap_singleton,
      List.flatMap_singleton, Level.told_of_selected ht,
      Level.told_of_selected (show Level.selected { top with cursor := top.cursor + 1 } = some t
        from ht)]
    simp [List.take_succ_eq_append_getElem hlt, hget]
  selected := by
    intro m hm
    rcases List.mem_append.1 hm with hm | hm
    · exact h.selected m (List.mem_append_left _ hm)
    · rw [List.mem_singleton.1 hm]
      exact h.selected top (by simp)
  settled := by
    intro below' top' heq
    obtain ⟨rfl, htop⟩ := List.append_inj' heq rfl
    obtain rfl : { top with cursor := top.cursor + 1 } = top' := by simpa using htop
    exact ⟨(h.settled below top rfl).1, (List.getElem?_eq_some_iff.1 hb).1⟩
  poised := h.poised

/-- Past the recorded draws of the last level, a new one is recorded. -/
theorem draw_fresh {below : List Level} {top : Level} (h : S.Midway (below ++ [top]) [] path)
    (hc : top.cursor = top.draws.length) (hr : S.request path = .drawBool) :
    S.Midway (below ++ [top.record (.ofBool false)]) [] (path ++ [.bool false]) := by
  obtain ⟨t, ht⟩ := Option.isSome_iff_exists.1 (h.selected top (by simp))
  have hall : ∀ m ∈ below ++ [top], m.cursor = m.draws.length := by
    intro m hm
    rcases List.mem_append.1 hm with hm | hm
    · exact (h.settled below top rfl).1 m hm
    · rw [List.mem_singleton.1 hm, hc]
  have hst := h.stands_visited hall
  rw [List.map_nil, List.append_nil] at hst
  obtain ⟨hbelow, hfits⟩ := upward_snoc.1 hst
  have hreq : S.request (course (below ++ [top])) = .drawBool := h.path_eq_course hall ▸ hr
  have hrec := Growth.fits_draw ht hreq hfits
  have hall' : ∀ m ∈ below ++ [top.record (.ofBool false)], m.cursor = m.draws.length := by
    intro m hm
    rcases List.mem_append.1 hm with hm | hm
    · exact hall m (List.mem_append_left _ hm)
    · rw [List.mem_singleton.1 hm, hrec.settled]
  refine ⟨?_, ?_, ?_, ?_, by simp⟩
  · rw [List.append_nil, map_settle hall']
    exact upward_snoc.2 ⟨hbelow, hrec⟩
  · rw [h.path_eq, List.flatMap_append, List.flatMap_append, List.flatMap_singleton,
      List.flatMap_singleton, Level.told_of_selected ht,
      Level.told_of_selected (show (top.record (.ofBool false)).selected = some t from ht)]
    simp [Level.record, hc, List.take_append]
  · intro m hm
    rcases List.mem_append.1 hm with hm | hm
    · exact h.selected m (List.mem_append_left _ hm)
    · rw [List.mem_singleton.1 hm]
      exact h.selected top (by simp)
  · intro below' top' heq
    obtain ⟨rfl, htop⟩ := List.append_inj' heq rfl
    obtain rfl : top.record (.ofBool false) = top' := by simpa using htop
    exact ⟨(h.settled below top rfl).1, by simp [Level.record, hc]⟩

end Midway

namespace Governs

open Scheduler

variable {s : Scheduler} {n : Nat} {visited rest : List Level} {path : List Answer}

theorem atStepLimit_on (h : S.Governs s) {L : List Level} {v : Nat} :
    (s.on L v).atStepLimit = S.stepLimit.any fun limit => limit ≤ v := by
  rw [← h.stepLimit]
  rfl

theorem atStepLimit_of_within (h : S.Governs s) {L : List Level} {v : Nat}
    (within : ∀ limit ∈ S.stepLimit, v < limit) : (s.on L v).atStepLimit = false := by
  rw [h.atStepLimit_on, Option.any_eq_false]
  simpa using within

/-- The last of the visited levels has an entry for the thread selected there. -/
theorem getLast?_selected {G : List Level} (h : S.Stands G)
    (selected : ∀ l ∈ G, l.selected.isSome) :
    ∀ l ∈ G.getLast?, ∃ t e, l.selected = some t ∧ l.entries[t]? = some e := by
  cases G using List.reverseRecOn with
  | nil => simp
  | append_singleton below top =>
    intro l hl
    obtain rfl : top = l := by simpa using hl
    obtain ⟨t, ht⟩ := Option.isSome_iff_exists.1 (selected top (by simp))
    obtain ⟨e, he, -⟩ := (upward_snoc.1 h).2.awake t ht
    exact ⟨t, e, ht, he⟩

/-- A thread that is awake may run. -/
theorem runnable_of_awake {below : List Level} {l : Level} (h : S.Fits below l) {e : Entry}
    (he : e ∈ l.entries) (ha : e.awake) : e.runnable := by
  have hm : e.marked := by
    simp only [Entry.awake, Bool.and_eq_true] at ha
    exact ha.1
  exact S.runnable_of_may e.toPending (h.marked e he hm)

/-- An iteration that reaches the end of the stack adds a level. It selects a thread there, or
ends if none is to be explored. -/
theorem grant_fresh (h : S.Governs s) (tame : S.Tame n) {choices : Snapshot} {current : ThreadId}
    (selected : ∀ l ∈ visited, l.selected.isSome) (hst : S.Stands visited)
    (within : ∀ limit ∈ S.stepLimit, visited.length < limit)
    (hr : S.request (course visited) = .next choices current) (x : σ) :
    (∃ t l, (S.client.grant (.next choices current)).Yields (s.on visited visited.length, x) none
        (s.on (visited ++ [l]) (visited.length + 1),
          S.client.resume (.run t (visited.length + 1)) x) ∧
      l.selected = some t ∧ l.draws = [] ∧ ReflTransGen (Growth S) visited (visited ++ [l])) ∨
    ∃ l ending, (S.client.grant (.next choices current)).Yields (s.on visited visited.length, x)
        (some ending) (s.on (visited ++ [l]) (visited.length + 1), x) ∧
      S.Ends visited (visited ++ [l]) ending ∧ l.selected = none ∧
      ReflTransGen (Growth S) visited (visited ++ [l]) := by
  have dense := tame.dense hst.follows hr
  have hvisit := h.visit_fresh dense current (getLast?_selected hst selected)
  have hpush : Growth S visited (visited ++ [S.fresh visited choices current]) :=
    .push selected within hr
  have hfits := Growth.fits_fresh selected within hr hst
  have hlimit : (s.on visited visited.length).atStepLimit = false := h.atStepLimit_of_within within
  cases hc : (S.fresh visited choices current).firstAwake current with
  | thread t =>
    obtain ⟨e, he, ha, rfl⟩ := Level.exists_awake_of_firstAwake hc
    have hget := (hfits.dense tame).getElem? he
    have hrun := runnable_of_awake hfits he ha
    refine .inl ⟨e.thread, { S.fresh visited choices current with selected := some e.thread },
      ?_, rfl, by simp, ?_⟩
    · exact S.client.grant_run hlimit (hvisit.bind (settle_thread (by simp) hc hget hrun)) x
    · exact (ReflTransGen.single hpush).tail (.select (by simp) hc)
  | allAsleep =>
    refine .inr ⟨_, .allAsleep, ?_, .allAsleep selected hr hc, by simp, .single hpush⟩
    exact S.client.grant_allAsleep hlimit (hvisit.bind (settle_allAsleep (by simp) hc)) x
  | nothing =>
    refine .inr ⟨_, .deadlock, ?_, .deadlock selected hr hc, by simp, .single hpush⟩
    exact S.client.grant_deadlock hlimit (hvisit.bind (settle_nothing (by simp) hc)) x

/-- An iteration that has not reached the end of the stack visits the next level. If none was
selected there, this is the last level, and a thread is selected. -/
theorem next_replay (tame : S.Tame n) {choices : Snapshot} {current : ThreadId} {l : Level}
    (hm : S.Midway visited (l :: rest) path) (hs : ∀ l ∈ visited, l.cursor = l.draws.length)
    (hr : S.request path = .next choices current) :
    ∃ t top rest', (next choices current).Yields (s.on (visited ++ l :: rest) visited.length)
        (.run t) (s.on (visited ++ top :: rest') (visited.length + 1)) ∧
      S.Midway (visited ++ [top]) rest' (path ++ [.run t (visited.length + 1)]) ∧
      ReflTransGen (Growth S) ((visited ++ l :: rest).map Level.settle)
        ((visited ++ top :: rest').map Level.settle) := by
  have hfits := hm.fits_next hs
  have hpath := hm.path_eq_course hs
  have dense := tame.dense hm.follows hr
  have hpend : l.pendings = choices.unstick := hfits.getElem?_seen (hpath ▸ hr)
  have hvisit : (visit none choices current).Yields (s.on (visited ++ l :: rest) visited.length) ()
      (s.on (visited ++ l.rewindDraws :: rest) (visited.length + 1)) :=
    visit_replay dense current hpend
  cases ht : l.selected with
  | some t =>
    obtain ⟨e, he, ha⟩ := hfits.awake t ht
    have hrun := runnable_of_awake hfits (List.mem_of_getElem? he) ha
    refine ⟨t, l.rewindDraws, rest, hvisit.bind (settle_selected ht he hrun),
      hm.visit_selected hs ht, ?_⟩
    simp
    exact .refl
  | none =>
    have hdraws : l.draws = [] := hfits.undrawn ht
    obtain ⟨e', he', ha'⟩ := hm.poised l List.mem_cons_self ht
    obtain ⟨t, hc⟩ := Level.exists_firstAwake current he' ha'
    obtain ⟨e, he, ha, rfl⟩ := Level.exists_awake_of_firstAwake hc
    have hget := (hfits.dense tame).getElem? he
    have hrun := runnable_of_awake hfits he ha
    have hst := hm.stands_visited hs
    -- nothing stands over a level without selection
    obtain rfl : rest = [] := by
      cases rest with
      | nil => rfl
      | cons m rest =>
        have := (hst (visited ++ [l.settle]) m.settle (rest.map Level.settle)
          (by simp)).below_selected l.settle (by simp)
        simp [ht] at this
    have hsettle : l.settle = l.rewindDraws := by simp [Level.settle, Level.rewindDraws, hdraws]
    have hgrow : Growth S (visited ++ [l.rewindDraws])
        (visited ++ [{ l.rewindDraws with selected := some e.thread }]) := .select ht hc
    have hst' : S.Stands (visited ++ [{ l.rewindDraws with selected := some e.thread }]) := by
      refine hgrow.stands tame ?_
      simpa [hsettle] using hst
    have hmid := Midway.of_selected hst' hs rfl hdraws
    refine ⟨e.thread, { l.rewindDraws with selected := some e.thread }, [],
      hvisit.bind (settle_thread ht hc hget hrun), hpath ▸ hmid, ?_⟩
    have hset : Level.settle { l.rewindDraws with selected := some e.thread } =
        { l.rewindDraws with selected := some e.thread } :=
      Level.settle_eq (by simp [Level.rewindDraws, hdraws])
    simp only [List.map_append, map_settle hs, List.map_cons, List.map_nil, hset, hsettle]
    exact .single hgrow

/-- A draw is granted: the next recorded one, or a new one that is false. -/
theorem grant_draw (h : S.Governs s) (tame : S.Tame n) (hm : S.Midway visited rest path)
    (hr : S.request path = .drawBool) (x : σ) :
    ∃ b visited', (S.client.grant .drawBool).Yields (s.on (visited ++ rest) visited.length, x) none
        (s.on (visited' ++ rest) visited'.length, S.client.resume (.bool b) x) ∧
      S.Midway visited' rest (path ++ [.bool b]) ∧
      ReflTransGen (Growth S) ((visited ++ rest).map Level.settle)
        ((visited' ++ rest).map Level.settle) := by
  cases visited using List.reverseRecOn with
  | nil => exact absurd hm.path_eq (tame.drawn hm.follows hr)
  | append_singleton below top =>
    have grant {b : Bool} {l : Level} (hd : drawBool.Yields
        (s.on (below ++ top :: rest) (below.length + 1)) b
        (s.on (below ++ l :: rest) (below.length + 1))) :
        (S.client.grant .drawBool).Yields
          (s.on (below ++ [top] ++ rest) (below ++ [top]).length, x) none
          (s.on (below ++ [l] ++ rest) (below ++ [l]).length, S.client.resume (.bool b) x) := by
      simp only [List.append_assoc, List.singleton_append, List.length_append,
        List.length_singleton]
      exact S.client.grant_drawBool hd x
    rcases Nat.lt_or_ge top.cursor top.draws.length with hlt | hge
    · have hd : top.draws[top.cursor]? = some (.ofBool top.draws[top.cursor].truth) := by
        have hst := hm.stands
        simp only [List.map_append, List.map_cons, List.map_nil] at hst
        have hfits := (upward_snoc.1 hst.of_append).2
        rw [List.getElem?_eq_getElem hlt, ← hfits.draws _ (List.getElem_mem hlt)]
      refine ⟨_, _, grant (drawBool_replay hd), hm.draw_replay hd, ?_⟩
      simp [Level.settle]
      exact .refl
    · have hc : top.cursor = top.draws.length :=
        Nat.le_antisymm (hm.settled below top rfl).2 hge
      have hbelow := (hm.settled below top rfl).1
      have hall : ∀ m ∈ below ++ [top], m.cursor = m.draws.length :=
        List.forall_mem_append.2 ⟨hbelow, List.forall_mem_singleton.2 hc⟩
      have hpath := hm.path_eq_course hall
      obtain rfl : rest = [] := hm.rest_eq_nil hall (by simp [hr])
      obtain ⟨t, ht⟩ := Option.isSome_iff_exists.1 (hm.selected top (by simp))
      refine ⟨_, _, grant (h.drawBool_fresh hc), hm.draw_fresh hc hr, ?_⟩
      have hall' : ∀ m ∈ below ++ [top.record (.ofBool false)], m.cursor = m.draws.length :=
        List.forall_mem_append.2 ⟨hbelow, by simp [Level.record, hc]⟩
      rw [List.append_nil, List.append_nil, map_settle hall, map_settle hall']
      exact .single (.draw ht (hpath ▸ hr))

/-- A request is granted. The iteration goes on from there, or it ends, all levels having been
visited. -/
theorem grant_request (h : S.Governs s) (tame : S.Tame n) (hm : S.Midway visited rest path) :
    (∃ a visited' rest', (S.client.grant (S.request path)).Yields
        (s.on (visited ++ rest) visited.length, S.after path) none
        (s.on (visited' ++ rest') visited'.length, S.after (path ++ [a])) ∧
      S.Midway visited' rest' (path ++ [a]) ∧
      ReflTransGen (Growth S) ((visited ++ rest).map Level.settle)
        ((visited' ++ rest').map Level.settle)) ∨
    rest = [] ∧ path = course visited ∧ ∃ G ending, (S.client.grant (S.request path)).Yields
        (s.on visited visited.length, S.after path) (some ending) (s.on G G.length, S.after path) ∧
      S.Ends visited G ending ∧ ReflTransGen (Growth S) (visited.map Level.settle) G := by
  rcases tame.plain hm.follows with hr | hr | ⟨choices, current, hr⟩
  · have hs := hm.all_settled (by simp [hr])
    have hpath := hm.path_eq_course hs
    obtain rfl : rest = [] := hm.rest_eq_nil hs (by simp [hr])
    refine .inr ⟨rfl, hpath, visited, .allFinished, ?_, .finished hm.selected (hpath ▸ hr), ?_⟩
    · rw [hr]
      exact yields_pure _ _
    · rw [map_settle hs]
  · obtain ⟨b, visited', hg, hm', hgrow⟩ := h.grant_draw tame hm hr (S.after path)
    rw [← hr, ← S.after_snoc] at hg
    exact .inl ⟨_, visited', rest, hg, hm', hgrow⟩
  · have hs := hm.all_settled (by simp [hr])
    have hpath := hm.path_eq_course hs
    cases rest with
    | cons l rest =>
      obtain ⟨t, top, rest', hnext, hm', hgrow⟩ := next_replay (s := s) tame hm hs hr
      have hlimit := h.atStepLimit_of_within (L := visited ++ l :: rest) (hm.fits_next hs).within
      have hg := S.client.grant_run hlimit hnext (S.after path)
      rw [← hr, ← S.after_snoc] at hg
      exact .inl ⟨_, visited ++ [top], rest', by simpa using hg, hm', by simpa using hgrow⟩
    | nil =>
      have hst : S.Stands visited := by simpa using hm.stands_visited hs
      have hr' : S.request (course visited) = .next choices current := hpath ▸ hr
      -- the steps may be used up
      by_cases hcut : ∃ limit ∈ S.stepLimit, limit ≤ visited.length
      · obtain ⟨limit, hlimit, hle⟩ := hcut
        refine .inr ⟨rfl, hpath, visited, .stepLimit, ?_, .cut hm.selected hr' hlimit hle, ?_⟩
        · rw [hr]
          refine S.client.grant_cut ?_ _
          rw [h.atStepLimit_on, Option.any_eq_true]
          exact ⟨limit, hlimit, by simpa using hle⟩
        · rw [map_settle hs]
      push Not at hcut
      rcases h.grant_fresh tame hm.selected hst hcut hr' (S.after path) with
        ⟨t, l, hg, ht, hd, hgrow⟩ | ⟨l, ending, hg, he, -, hgrow⟩
      · have hst' := Growth.stands_of_reflTransGen tame hgrow hst
        rw [← hr, ← S.after_snoc] at hg
        refine .inl ⟨_, visited ++ [l], [], by simpa using hg,
          hpath ▸ Midway.of_selected hst' hs ht hd, ?_⟩
        have hs' : ∀ m ∈ visited ++ [l], m.cursor = m.draws.length :=
          List.forall_mem_append.2
            ⟨hs, List.forall_mem_singleton.2 (upward_snoc.1 hst').2.settled⟩
        rwa [List.append_nil, List.append_nil, map_settle hs, map_settle hs']
      · rw [← hr] at hg
        refine .inr ⟨rfl, hpath, visited ++ [l], ending, by simpa using hg, he, ?_⟩
        rwa [map_settle hs]

/-- An iteration ends well. The stack has grown, and the client went its course. -/
theorem execute_yields (h : S.Governs s) (tame : S.Tame n) (budget : Nat) :
    ∀ {visited rest : List Level} {path : List Answer}, S.Midway visited rest path →
      n < budget + path.length →
      ∃ H G ending, (S.client.execute budget).Yields
          (s.on (visited ++ rest) visited.length, S.after path) ending
          (s.on G G.length, S.after (course H)) ∧
        S.Ends H G ending ∧ ReflTransGen (Growth S) ((visited ++ rest).map Level.settle) G := by
  induction budget with
  | zero =>
    intro visited rest path hm hn
    have := tame.bounded hm.follows
    omega
  | succ budget ih =>
    intro visited rest path hm hn
    rcases h.grant_request tame hm with
      ⟨a, visited', rest', hg, hm', hgrow⟩ | ⟨rfl, rfl, G, ending, hg, he, hgrow⟩
    · obtain ⟨H, G, ending, hx, he, hG⟩ := ih hm' (by simp; omega)
      exact ⟨H, G, ending, (yields_get _).bind (hg.bind hx), he, hgrow.trans hG⟩
    · refine ⟨visited, G, ending, ?_, he, by simpa using hgrow⟩
      rw [List.append_nil]
      exact (yields_get _).bind (hg.bind (yields_pure _ _))

end Governs

end Setting

end Interleaving
