import Mathlib.Data.List.Sort
import Interleaving.Proofs.Directives
import Interleaving.Proofs.RandomRaces

/-!
# New numbers of threads in the reversal of a race

The threads that the reversal of a race does not create are found one after another, while the
steps that stay are told under new numbers already. A thread is numbered by how many there were when
it was created, and there are never fewer than before. So what is found later to be missing has a
larger number than a thread that was told before, and all numbers are those that the list of all
missing threads gives in the end.

## Main definitions

* `Ascending` — a list of missing threads.
* `Schedule.Growing` — the number of threads never decreases.
* `Workspace.tablesAfter`, `Workspace.finalTables` — the tables after some steps of a reversal, and
  after it.
* `Workspace.Retells` — a directive runs what is selected at a step, under its new number.
* `Workspace.Renumbers` — the new numbers in the reversal of a race are right.

## Main statements

* `Ascending.strictMonoOn_renumber`, `Ascending.image_renumber` — new numbers keep the order of the
  threads and leave no gap.
* `Workspace.keep_loses` — what is found to be missing from a step on.
* `Workspace.reversal_renumbers` — the new numbers in every reversal.
-/

namespace Interleaving

open Interleaving.Action

/-! ## Lists of missing threads -/

/-- Threads in the order of their numbers, without the first one, which is never created. -/
structure Ascending (ids : List ThreadId) : Prop where
  sorted : ids.Pairwise (· < ·)
  pos : ∀ t ∈ ids, 0 < t

section Ascending

variable {ids : List ThreadId} {a a' : Analysis} {t : ThreadId}

theorem ascending_nil : Ascending [] := ⟨.nil, by simp⟩

theorem Ascending.nodup (h : Ascending ids) : ids.Nodup := h.sorted.imp Nat.ne_of_lt

/-- There are at most as many missing threads up to a number as the number says. -/
theorem Ascending.countP_le (h : Ascending ids) (s : Nat) : ids.countP (· ≤ s) ≤ s := by
  have hsubset : ids.filter (· ≤ s) ⊆ List.range' 1 s := by
    intro t ht
    obtain ⟨hmem, hle⟩ := List.mem_filter.1 ht
    have hpos := h.pos t hmem
    have hle : t ≤ s := by simpa using hle
    exact List.mem_range'_1.2 ⟨hpos, by omega⟩
  have hlength := (List.subperm_of_subset (h.nodup.filter _) hsubset).length_le
  rwa [← List.countP_eq_length_filter, List.length_range'] at hlength

/-- A missing thread is put to its place. -/
theorem addMissing_eq_insert (h : a.addMissing t = .ok a') : t ∉ a.missing ∧
    a' = { a with missing := a.missing.orderedInsert (· ≤ ·) t } := by
  obtain ⟨hmem, rfl⟩ := Workspace.of_addMissing_eq_ok h
  refine ⟨hmem, ?_⟩
  rw [List.orderedInsert_eq_take_drop]
  simp only [Nat.not_le]

theorem Ascending.insert (h : Ascending ids) (hmem : t ∉ ids) (hpos : 0 < t) :
    Ascending (ids.orderedInsert (· ≤ ·) t) := by
  have hperm := List.perm_orderedInsert (· ≤ ·) t ids
  constructor
  · have hle : (ids.orderedInsert (· ≤ ·) t).Pairwise (· ≤ ·) :=
      List.Pairwise.orderedInsert t ids (h.sorted.imp Nat.le_of_lt)
    have hne : (ids.orderedInsert (· ≤ ·) t).Nodup :=
      hperm.nodup_iff.2 (List.nodup_cons.2 ⟨hmem, h.nodup⟩)
    exact (hle.and hne).imp fun h => Nat.lt_of_le_of_ne h.1 h.2
  · intro u hu
    rcases List.mem_cons.1 (hperm.mem_iff.1 hu) with rfl | hu
    · exact hpos
    · exact h.pos u hu

/-- A missing thread does not change how many there are before it. -/
theorem countP_orderedInsert_of_lt {s : Nat} (h : s < t) :
    (ids.orderedInsert (· ≤ ·) t).countP (· ≤ s) = ids.countP (· ≤ s) := by
  rw [(List.perm_orderedInsert (· ≤ ·) t ids).countP_eq]
  exact List.countP_cons_of_neg (by simpa using h)

/-! ## New numbers -/

theorem Ascending.renumber_eq_rank (h : Ascending a.missing) (ht : t ∉ a.missing) :
    a.renumber t = Actors.rank a.missing t :=
  Actors.renumber_eq_rank h.nodup ht

/-- Of the threads that are not missing, a later one has a larger new number. -/
theorem Ascending.strictMonoOn_renumber (h : Ascending a.missing) :
    StrictMonoOn a.renumber {s | s ∉ a.missing} := by
  intro s hs t ht hst
  rw [h.renumber_eq_rank hs, h.renumber_eq_rank ht]
  exact Actors.rank_lt_rank hst hs

/-- As many threads as there are numbers are left when some are missing. -/
theorem exists_lt_rank (missing : List ThreadId) (n : Nat) : ∃ s, n < Actors.rank missing s := by
  obtain ⟨bound, hbound⟩ := missing.toFinset.exists_nat_subset_range
  have hmem (s : Nat) (hs : bound ≤ s) : s ∉ missing := fun hmem =>
    Nat.not_lt.2 hs (Finset.mem_range.1 (hbound (List.mem_toFinset.2 hmem)))
  induction n with
  | zero =>
    exact ⟨bound + 1, by rw [Actors.rank_succ, if_neg (hmem bound le_rfl)]; exact Nat.succ_pos _⟩
  | succ n ih =>
    obtain ⟨s, hs⟩ := ih
    refine ⟨max s bound + 1, ?_⟩
    rw [Actors.rank_succ, if_neg (hmem _ (Nat.le_max_right s bound))]
    exact Nat.succ_lt_succ (Nat.lt_of_lt_of_le hs (Actors.rank_mono (Nat.le_max_left s bound)))

/-- A number below the rank of a thread is itself the rank of one that is not missing. -/
theorem exists_rank_eq {missing : List ThreadId} {n : Nat} :
    ∀ {s : Nat}, n < Actors.rank missing s → ∃ t, t ∉ missing ∧ Actors.rank missing t = n
  | 0, h => absurd h (Nat.not_lt_zero n)
  | s + 1, h => by
    rcases Nat.lt_or_ge n (Actors.rank missing s) with hlt | hge
    · exact exists_rank_eq hlt
    · rw [Actors.rank_succ] at h
      by_cases hmem : s ∈ missing
      · rw [if_pos hmem] at h
        omega
      · rw [if_neg hmem] at h
        exact ⟨s, hmem, by omega⟩

/-- Every number is the new number of a thread that is not missing. -/
theorem Ascending.image_renumber (h : Ascending a.missing) :
    a.renumber '' {s | s ∉ a.missing} = Set.univ := by
  refine Set.eq_univ_of_forall fun n => ?_
  obtain ⟨s, hs⟩ := exists_lt_rank a.missing n
  obtain ⟨t, hmem, ht⟩ := exists_rank_eq hs
  exact ⟨t, hmem, (h.renumber_eq_rank hmem).trans ht⟩

end Ascending

/-! ## Schedules in which threads are only added -/

/-- No level has fewer threads than one before it. -/
def Schedule.Growing (s : Schedule) : Prop := (s.levels.map (·.entries.length)).Pairwise (· ≤ ·)

theorem Schedule.Growing.length_le {s : Schedule} (h : s.Growing) {i j : Step} {l l' : Level}
    (hl : s.level i = .ok l) (hl' : s.level j = .ok l') (hij : i ≤ j) :
    l.entries.length ≤ l'.entries.length := by
  obtain ⟨m, rfl, hm⟩ := exists_of_level_eq_ok hl
  obtain ⟨n, rfl, hn⟩ := exists_of_level_eq_ok hl'
  rcases Nat.lt_or_eq_of_le (Nat.le_of_succ_le_succ hij) with hlt | rfl
  · obtain ⟨hm', rfl⟩ := List.getElem?_eq_some_iff.1 hm
    obtain ⟨hn', rfl⟩ := List.getElem?_eq_some_iff.1 hn
    exact List.pairwise_iff_getElem.1 (List.pairwise_map.1 h) m n hm' hn' hlt
  · obtain rfl := Option.some.inj (hm.symm.trans hn)
    exact le_rfl

/-- The marks of a schedule do not matter to the number of its threads. -/
theorem Schedule.Growing.remarked {s s' : Schedule} (h : s.Growing) (hs : s.Remarked s') :
    s'.Growing := by
  have heq : s'.levels.map (·.entries.length) = s.levels.map (·.entries.length) := by
    refine List.ext_getElem? fun i => ?_
    rw [List.getElem?_map, List.getElem?_map]
    cases hl : s'.levels[i]? with
    | none =>
      rw [List.getElem?_eq_none_iff, hs.length, ← List.getElem?_eq_none_iff] at hl
      rw [hl]
    | some l' =>
      obtain ⟨l, hl, hremarked⟩ := hs.of_getElem? hl
      rw [hl, Option.map_some, Option.map_some, hremarked.length_entries]
  rwa [Growing, heq]

/-- The steps of a race and those between them, but not the later one. -/
def Race.between (race : Race) : List Step := List.range' race.earlier (race.later - race.earlier)

/-- If there is a thread at the earlier step of a race, there is one at every step after it. -/
theorem Schedule.Growing.pos_of_between {s : Schedule} (h : s.Growing) {race : Race} {l : Level}
    {n : Nat} (hl : s.level race.earlier = .ok l) (hn : n < l.entries.length) :
    ∀ i ∈ race.between, ∀ l', s.level i = .ok l' → 0 < l'.entries.length := by
  intro i hi l' hl'
  have hle := h.length_le hl hl' (List.mem_range'_1.1 hi).1
  omega

namespace Workspace

variable {u v w w' w'' : Workspace} {n : Nat}

/-! ## What is found to be missing -/

/-- The second workspace differs from the first one by missing threads alone, and those that are
missing there only have numbers from `n` on. -/
structure Loses (n : Nat) (w w' : Workspace) : Prop where
  rest : w' = w.withMissing w'.analysis.missing
  ascending : Ascending w.analysis.missing → Ascending w'.analysis.missing
  countP_eq : ∀ s < n, w'.analysis.missing.countP (· ≤ s) = w.analysis.missing.countP (· ≤ s)

theorem Loses.refl (n : Nat) (w : Workspace) : w.Loses n w := ⟨rfl, id, fun _ _ => rfl⟩

theorem Loses.trans (h : w.Loses n w') (h' : w'.Loses n w'') : w.Loses n w'' := by
  refine ⟨?_, h'.ascending ∘ h.ascending, fun s hs => (h'.countP_eq s hs).trans (h.countP_eq s hs)⟩
  rw [h'.rest, h.rest]
  rfl

theorem loses_addMissing {a : Analysis} {t : ThreadId} (ht : w.analysis.addMissing t = .ok a)
    (hpos : 0 < t) (hn : n ≤ t) : w.Loses n { w with analysis := a } := by
  obtain ⟨hmem, rfl⟩ := addMissing_eq_insert ht
  exact ⟨rfl, fun h => h.insert hmem hpos,
    fun s hs => countP_orderedInsert_of_lt (Nat.lt_of_lt_of_le hs hn)⟩

/-- All that is found to be missing at some steps has numbers from `n` on, if there are so many
threads at each of them. -/
theorem keep_loses (first : Event) (hpos : 0 < n) : ∀ {steps : List Step} {kept : List Directive}
    {w : Workspace},
    (∀ i ∈ steps, ∀ l, w.schedule.level i = .ok l → n ≤ l.entries.length) →
    (keep first steps kept).Keeps w (w.Loses n) fun _ => True
  | [], kept, w, _ => keeps_pure kept (.refl n w)
  | i :: rest, kept, w, hsteps => by
    have hrest : ∀ j ∈ rest, ∀ l, w.schedule.level j = .ok l → n ≤ l.entries.length :=
      fun j hj => hsteps j (List.mem_cons_of_mem i hj)
    refine ((yields_get w).bind_comesTo _).keeps ?_
    refine bind_lift_keeps (.refl n w) (fun _ _ => trivial) fun l hl => ?_
    split
    · refine bind_lift_keeps (.refl n w) (fun _ _ => trivial) fun e _ => ?_
      split
      · refine bind_lift_keeps (.refl n w) (fun _ _ => trivial) fun a ha => ?_
        refine ((yields_set _ _).bind_comesTo _).keeps ?_
        have hlength := hsteps i List.mem_cons_self l hl
        have hloses := loses_addMissing ha (Nat.lt_of_lt_of_le hpos hlength) hlength
        have ih : (keep first rest kept).Keeps { w with analysis := a } (Loses n _) _ :=
          keep_loses first hpos hrest
        exact ⟨hloses.trans ih.1, ih.2⟩
      · exact keep_loses first hpos hrest
    · exact bind_lift_keeps (.refl n w) (fun _ _ => trivial) fun d _ => keep_loses first hpos hrest

theorem keep_append (first : Event) (before after : List Step) (kept : List Directive) :
    keep first (before ++ after) kept = keep first before kept >>= keep first after := by
  induction before generalizing kept with
  | nil => rfl
  | cons i rest ih =>
    simp only [List.cons_append, keep, bind_assoc, ih]
    refine bind_congr fun w => bind_congr fun l => ?_
    split
    · refine (bind_congr fun e => ?_).trans (bind_assoc _ _ _).symm
      split
      · simp only [bind_assoc]
      · rfl
    · simp only [bind_assoc]

/-- The tables after some steps of a reversal were dealt with. -/
def tablesAfter (w : Workspace) (first : Event) (steps : List Step) : Analysis :=
  (keep first steps [] w).state.analysis

/-- What is found to be missing after some of the steps has numbers from `n` on, if there are so
many threads at each of the others. -/
theorem loses_append (hpos : 0 < n) (first : Event) (before : List Step) {after : List Step}
    (hafter : ∀ i ∈ after, ∀ l, w.schedule.level i = .ok l → n ≤ l.entries.length) :
    (keep first before [] w).state.Loses n (keep first (before ++ after) [] w).state := by
  rw [keep_append]
  rcases yields_or_fails (keep first before []) w with ⟨kept, v, hv⟩ | ⟨v, hv⟩
  · obtain ⟨-, -, hschedule⟩ := keep_ensures kept v hv
    rw [(hv.bind_comesTo _).2, hv.state]
    exact (keep_loses first hpos (by rwa [hschedule])).1
  · have hfails := hv.bind (keep first after)
    obtain ⟨_, _, hv⟩ := hv
    obtain ⟨_, _, hfails⟩ := hfails
    rw [hv, hfails]
    exact .refl n v

theorem selection_bind_eq_ok {s : Schedule} {i : Step} {l : Level} {t : ThreadId}
    (hl : s.level i = .ok l) (ht : l.selected = some t) :
    (s.level i >>= fun l => l.selection) = .ok t := by
  rw [hl]
  exact Level.selection_eq_ok.2 ht

/-- The tables once a race was reversed, or when that ended with a fault. -/
def finalTables (w : Workspace) (race : Race) : Analysis := (reversal race w).state.analysis

/-- The reversal of a race finds missing threads only while it deals with the steps up to the later
one. -/
theorem finalTables_eq {race : Race} {l : Level} {t : ThreadId}
    (hl : u.schedule.level race.earlier = .ok l) (ht : l.selected = some t) :
    u.finalTables race = u.tablesAfter ⟨t, race.earlier⟩ race.between := by
  have hselected := selection_bind_eq_ok hl ht
  have hkeeps : (reversal race).Keeps u
      (·.analysis = u.tablesAfter ⟨t, race.earlier⟩ race.between) fun _ => True := by
    refine ((yields_get u).bind_comesTo _).keeps ?_
    refine ((yields_lift hselected u).bind_comesTo _).keeps ?_
    refine ((yields_notify _ u).bind_comesTo _).keeps ?_
    refine Keeps.bind ⟨rfl, fun _ _ => trivial⟩ fun kept v _ hv => ?_
    refine ((yields_get v).bind_comesTo _).keeps ?_
    refine bind_lift_keeps hv (fun _ _ => trivial) fun later _ => ?_
    refine bind_lift_keeps hv (fun _ _ => trivial) fun earlier _ => ?_
    exact Yields.keeps ((yields_set v _).bind (yields_pure _ _)) hv
  exact hkeeps.1

/-! ## What the walk leaves -/

/-- No thread is missing after the walk. -/
theorem walk_missing : walk.Ensures w fun _ v => v.analysis.missing = [] := by
  refine walk_ensures (fun _ v => v.analysis.missing = []) rfl fun k v _ hv => ?_
  intro u v' h
  obtain ⟨l, e, hl, he⟩ := visit_reads (k + 1) u v' h
  obtain ⟨-, noted⟩ := visit_ensures hl he rfl u v' h
  obtain ⟨races, hraces⟩ := noted.analysis
  rw [hraces]
  exact (Actors.missing_enter _ _ _).trans hv

/-- A schedule that the walk gets through has a selection at every level but perhaps the last. -/
theorem decided_of_walk (hwalk : walk.Yields w () v) : w.schedule.Decided := by
  let P (k : Nat) (u : Workspace) : Prop := w.schedule.Remarked u.schedule ∧
    ∀ j < k, ∀ l, w.schedule.levels[j]? = some l → l.selected.isSome
  have hsteps : P w.steps v := by
    refine walk_ensures P ⟨.refl _, by simp⟩ (fun k u _ hu => ?_) () v hwalk
    refine ((visit_marked (k + 1)).and (visit_reads (k + 1))).mono fun _ u' h => ?_
    obtain ⟨hmarked, l', e, hl', he⟩ := h
    refine ⟨hu.1.trans hmarked.schedule, fun j hj l hl => ?_⟩
    rcases Nat.lt_or_eq_of_le (Nat.le_of_lt_succ hj) with hj | rfl
    · exact hu.2 j hj l hl
    · obtain ⟨m, hm, hremarked⟩ := hu.1.of_getElem? (Schedule.level_eq_ok.1 hl')
      obtain rfl := Option.some.inj (hl.symm.trans hm)
      obtain ⟨t, ht, -⟩ := Level.of_selectedEntry_eq_ok he
      rw [← hremarked.selected, ht]
      rfl
  intro position l hl hlast
  refine hsteps.2 position ?_ l hl
  unfold steps
  split
  · split <;> omega
  · omega

/-- The earlier step of a race has a selection. -/
theorem selected_of_race {g : Pcg} (built : w.schedule.Built) (hgenerator : w.generator = some g)
    (hwalk : walk.Yields w () v) {race : Race} (hrace : race ∈ v.analysis.races) :
    ∃ l t, v.schedule.level race.earlier = .ok l ∧ l.selected = some t := by
  have regular := built.regular.2
  have decided := decided_of_walk hwalk
  have gathering := walk_gathering (Schedule.performs_trace regular decided)
    (Schedule.length_trace regular decided).symm hgenerator () v hwalk
  obtain ⟨-, sendRace, -⟩ := (gathering.mem_races race).1 hrace
  obtain ⟨x, ⟨p, hp, -⟩, -⟩ := sendRace.sends
  obtain ⟨l, e, hl, he, -⟩ := gathering.performs.exists_entry hp
  obtain ⟨t, ht, -⟩ := Level.of_selectedEntry_eq_ok he
  exact ⟨l, t, hl, ht⟩

/-! ## The reversal -/

/-- What a directive for a level runs, and with which values. -/
theorem of_directive_eq_ok {a : Analysis} {l : Level} {d : Directive}
    (h : a.directive l = .ok d) :
    ∃ s, l.selected = some s ∧ d.thread = s - a.missing.countP (· ≤ s) ∧ d.draws = l.draws := by
  cases hselection : l.selection with
  | error fault => simp [Analysis.directive, hselection, bind, Except.bind] at h
  | ok s =>
    obtain rfl : ⟨a.renumber s, l.draws⟩ = d := by
      simpa [Analysis.directive, hselection, bind, Except.bind, pure, Except.pure] using h
    exact ⟨s, Level.selection_eq_ok.1 hselection, rfl, rfl⟩

/-- The directive for the thread selected at a level is the same when more threads are missing that
have larger numbers. -/
theorem Loses.directive_eq {l : Level} (h : w.Loses l.entries.length w')
    (hrange : ∀ t, l.selected = some t → t < l.entries.length) :
    w'.analysis.directive l = w.analysis.directive l := by
  cases hselection : l.selection with
  | error fault => simp [Analysis.directive, hselection, bind, Except.bind]
  | ok t =>
    have hcount := h.countP_eq t (hrange t (Level.selection_eq_ok.1 hselection))
    simp [Analysis.directive, Analysis.renumber, hselection, hcount]

/-- The directives for the steps that stay are those that the tables give in the end. -/
theorem keep_directives {first : Event} {s : Schedule} (growing : s.Growing)
    (hrange : ∀ i l t, s.level i = .ok l → l.selected = some t → t < l.entries.length) :
    ∀ {steps : List Step} {kept : List Directive} {w : Workspace}, steps.Pairwise (· < ·) →
      (∀ i ∈ steps, ∀ l, s.level i = .ok l → 0 < l.entries.length) → w.schedule = s →
      (keep first steps kept).Ensures w fun all w' => ∃ told, all = kept ++ told ∧
        List.Forall₂ (fun i d => ∃ l, s.level i = .ok l ∧ w'.analysis.directive l = .ok d)
          (steps.filter fun i => !w.analysis.happensBefore first i) told
  | [], kept, _, _, _, _ => ensures_pure ⟨[], (List.append_nil kept).symm, .nil⟩
  | i :: rest, kept, w, hsteps, hpos, hs => by
    have hrest := (List.pairwise_cons.1 hsteps).2
    have hpos' : ∀ j ∈ rest, ∀ l, s.level j = .ok l → 0 < l.entries.length :=
      fun j hj => hpos j (List.mem_cons_of_mem i hj)
    refine (yields_get w).bind_ensures (bind_lift_ensures fun l hl => ?_)
    rw [hs] at hl
    split
    · next hafter =>
      rw [List.filter_cons_of_neg (by simp [hafter])]
      refine bind_lift_ensures fun e _ => ?_
      split
      · refine bind_lift_ensures fun a ha => (yields_set _ _).bind_ensures ?_
        obtain ⟨-, rfl⟩ := addMissing_eq_insert ha
        exact keep_directives growing hrange hrest hpos' hs
      · exact keep_directives growing hrange hrest hpos' hs
    · next hafter =>
      rw [List.filter_cons_of_pos (by simp [hafter])]
      refine bind_lift_ensures fun d hd => ?_
      have hloses : (keep first rest (kept ++ [d])).Ensures w fun _ w' =>
          w.Loses l.entries.length w' := by
        refine (keep_loses first (hpos i List.mem_cons_self l hl) fun j hj l' hl' => ?_).ensures
        exact growing.length_le hl (hs ▸ hl') ((List.pairwise_cons.1 hsteps).1 j hj).le
      refine (hloses.and (keep_directives growing hrange hrest hpos' hs)).mono ?_
      rintro all w' ⟨hloses, told, rfl, htold⟩
      refine ⟨d :: told, by simp, .cons ⟨l, hl, ?_⟩ htold⟩
      rw [hloses.directive_eq (hrange i l · hl), hd]

/-- The directive runs the thread that is selected at the step, with the values drawn there. The new
number of the thread and the missing threads up to the old one make up the old one, whether these
are counted in the end or when the steps before this one were dealt with. -/
def Retells (u : Workspace) (race : Race) (first : Event) (i : Step) (d : Directive) : Prop :=
  ∃ l s, u.schedule.level i = .ok l ∧ l.selected = some s ∧ d.draws = l.draws ∧
    d.thread + (u.finalTables race).missing.countP (· ≤ s) = s ∧
    ∀ steps, steps ++ [i] <+: race.between →
      d.thread + (u.tablesAfter first steps).missing.countP (· ≤ s) = s

/-- The new numbers in the reversal of a race, the earlier step of which is the event `first`, are
right. -/
structure Renumbers (u : Workspace) (race : Race) (first : Event) : Prop where
  /-- The missing threads are listed in increasing order at any time, from one on. -/
  ascending : ∀ steps, steps <+: race.between → Ascending (u.tablesAfter first steps).missing
  /-- No number is ever smaller than what is subtracted from it. -/
  countP_le : ∀ steps, steps <+: race.between →
    ∀ s, (u.tablesAfter first steps).missing.countP (· ≤ s) ≤ s
  /-- What is subtracted from a number at a step is what the whole list gives. -/
  countP_eq : ∀ steps i l s, steps ++ [i] <+: race.between → u.schedule.level i = .ok l →
    l.selected = some s → (u.tablesAfter first steps).missing.countP (· ≤ s) =
      (u.finalTables race).missing.countP (· ≤ s)
  ascending_final : Ascending (u.finalTables race).missing
  countP_final_le : ∀ s, (u.finalTables race).missing.countP (· ≤ s) ≤ s
  strictMonoOn : StrictMonoOn (u.finalTables race).renumber {s | s ∉ (u.finalTables race).missing}
  image : (u.finalTables race).renumber '' {s | s ∉ (u.finalTables race).missing} = Set.univ
  /-- The directives run the steps that stay, then the later step of the race and the earlier one,
  all under their new numbers. -/
  directives : ∀ directives u', (reversal race).Yields u directives u' →
    List.Forall₂ (u.Retells race first)
      (race.between.filter (fun i => !u.analysis.happensBefore first i) ++
        [race.later, race.earlier]) directives

/-- All directives that reverse a race are those that the tables give in the end. -/
theorem reversal_directives {race : Race} {l : Level} {t : ThreadId}
    (growing : u.schedule.Growing)
    (hrange : ∀ i l t, u.schedule.level i = .ok l → l.selected = some t → t < l.entries.length)
    (hl : u.schedule.level race.earlier = .ok l) (ht : l.selected = some t) :
    (reversal race).Ensures u fun directives u' => List.Forall₂
      (fun i d => ∃ l, u.schedule.level i = .ok l ∧ u'.analysis.directive l = .ok d)
      (race.between.filter (fun i => !u.analysis.happensBefore ⟨t, race.earlier⟩ i) ++
        [race.later, race.earlier]) directives := by
  have hpos := growing.pos_of_between hl (hrange _ l t hl ht)
  refine (yields_get u).bind_ensures ?_
  refine (yields_lift (selection_bind_eq_ok hl ht) u).bind_ensures ?_
  refine (yields_notify _ u).bind_ensures ?_
  refine ((keep_ensures.and
    (keep_directives growing hrange List.pairwise_lt_range' hpos rfl)).mono ?_).bind
  rintro kept v ⟨⟨-, -, hschedule⟩, told, rfl, htold⟩
  refine (yields_get v).bind_ensures ?_
  rw [hschedule]
  refine bind_lift_ensures fun later hlater => bind_lift_ensures fun earlier hearlier => ?_
  refine (yields_set _ _).bind_ensures (ensures_pure ?_)
  have hread {i : Step} {d : Directive}
      (h : (u.schedule.level i >>= fun l => v.analysis.directive l) = .ok d) :
      ∃ l, u.schedule.level i = .ok l ∧ v.analysis.directive l = .ok d := by
    cases hl : u.schedule.level i with
    | error fault => simp [hl, bind, Except.bind] at h
    | ok l => exact ⟨l, rfl, by simpa [hl, bind, Except.bind] using h⟩
  exact List.rel_append htold (.cons (hread hlater) (.cons (hread hearlier) .nil))

/-- The new numbers are right where threads are only ever added, and none is missing at first. -/
theorem renumbers_of_growing {race : Race} {l : Level} {t : ThreadId}
    (hmissing : u.analysis.missing = []) (growing : u.schedule.Growing)
    (hrange : ∀ i l t, u.schedule.level i = .ok l → l.selected = some t → t < l.entries.length)
    (hl : u.schedule.level race.earlier = .ok l) (ht : l.selected = some t) :
    u.Renumbers race ⟨t, race.earlier⟩ := by
  have hfinal := finalTables_eq hl ht
  have hpos := growing.pos_of_between hl (hrange _ l t hl ht)
  have ascending : ∀ steps, steps <+: race.between →
      Ascending (u.tablesAfter ⟨t, race.earlier⟩ steps).missing := by
    intro steps hsteps
    refine (keep_loses _ Nat.one_pos fun i hi l hl => ?_).1.ascending (hmissing ▸ ascending_nil)
    exact hpos i (hsteps.subset hi) l hl
  have hascending : Ascending (u.finalTables race).missing :=
    hfinal ▸ ascending _ List.prefix_rfl
  have countP_eq : ∀ steps i l s, steps ++ [i] <+: race.between → u.schedule.level i = .ok l →
      l.selected = some s → (u.tablesAfter ⟨t, race.earlier⟩ steps).missing.countP (· ≤ s) =
        (u.finalTables race).missing.countP (· ≤ s) := by
    rintro steps i l s ⟨rest, hrest⟩ hl hs
    rw [List.append_assoc, List.singleton_append] at hrest
    have hsorted : (steps ++ i :: rest).Pairwise (· < ·) := hrest ▸ List.pairwise_lt_range'
    have hlength : ∀ j ∈ i :: rest, ∀ l', u.schedule.level j = .ok l' →
        l.entries.length ≤ l'.entries.length := by
      intro j hj l' hl'
      refine growing.length_le hl hl' ?_
      rcases List.mem_cons.1 hj with rfl | hj
      · exact le_rfl
      · exact ((List.pairwise_cons.1 (List.pairwise_append.1 hsorted).2.1).1 j hj).le
    have hlt := hrange i l s hl hs
    have hloses := loses_append (Nat.zero_lt_of_lt hlt) ⟨t, race.earlier⟩ steps hlength
    rw [hrest] at hloses
    rw [hfinal]
    exact (hloses.countP_eq s hlt).symm
  constructor
  case ascending => exact ascending
  case countP_le => exact fun steps hsteps => (ascending steps hsteps).countP_le
  case ascending_final => exact hascending
  case countP_final_le => exact hascending.countP_le
  case strictMonoOn => exact hascending.strictMonoOn_renumber
  case image => exact hascending.image_renumber
  case countP_eq => exact countP_eq
  case directives =>
    intro directives u' hyields
    have hstate : u.finalTables race = u'.analysis := congrArg (·.analysis) hyields.state
    refine (reversal_directives growing hrange hl ht directives u' hyields).imp ?_
    rintro i d ⟨l, hl, hd⟩
    obtain ⟨s, hs, hthread, hdraws⟩ := of_directive_eq_ok (hstate ▸ hd)
    have hsum : d.thread + (u.finalTables race).missing.countP (· ≤ s) = s := by
      rw [hthread]
      exact Nat.sub_add_cancel (hascending.countP_le s)
    refine ⟨l, s, hl, hs, hdraws, hsum, fun steps hsteps => ?_⟩
    rw [countP_eq steps i l s hsteps hl hs]
    exact hsum

/-- The new numbers in the reversal of any race that is found in random mode. The schedule was built
level by level, and the number of threads never decreased. -/
theorem reversal_renumbers {g : Pcg} (built : w.schedule.Built) (growing : w.schedule.Growing)
    (hgenerator : w.generator = some g) (hwalk : walk.Yields w () v) {race : Race}
    (hrace : race ∈ v.analysis.races) (g' : Pcg) :
    ∃ l t, v.schedule.level race.earlier = .ok l ∧ l.selected = some t ∧
      Renumbers { v with generator := some g' } race ⟨t, race.earlier⟩ := by
  have remarked := (walk_marked () v hwalk).schedule
  have hrange (i : Step) (l : Level) (t : ThreadId) (hl : v.schedule.level i = .ok l)
      (ht : l.selected = some t) : t < l.entries.length := by
    obtain ⟨position, -, hposition⟩ := Schedule.exists_of_level_eq_ok hl
    obtain ⟨m, hm, hlevel⟩ := remarked.of_getElem? hposition
    rw [hlevel.length_entries]
    exact (built.regular.2 m (List.mem_of_getElem? hm)).inRange t (hlevel.selected ▸ ht)
  obtain ⟨l, t, hl, ht⟩ := selected_of_race built hgenerator hwalk hrace
  exact ⟨l, t, hl, ht, renumbers_of_growing (walk_missing () v hwalk) (growing.remarked remarked)
    hrange hl ht⟩

end Workspace

/-! ## A reversal in which a thread is not created -/

/-- Operations of threads, each with its target. -/
def snapshotOf (ops : List (Operation × Nat)) : Snapshot :=
  ops.zipIdx.map fun ((op, target), t) =>
    { thread := t, enabled := true, op, target := some target }

/-- A schedule that visits one level more and selects a thread there. -/
def Schedule.decide (s : Schedule) (ops : List (Operation × Nat)) (t : ThreadId) : Schedule :=
  (Schedule.select t (Schedule.push (snapshotOf ops) s).state).state

theorem Schedule.Built.decide {s : Schedule} {ops : List (Operation × Nat)} {t : ThreadId}
    (h : s.Built) (hpush : (Schedule.push (snapshotOf ops) s).result = .ok true)
    (hselect : (Schedule.select t (Schedule.push (snapshotOf ops) s).state).result = .ok ()) :
    (s.decide ops t).Built :=
  .select (.push h (yields_of_result hpush)) (yields_of_result hselect)

/-- The first thread sends and creates a third one; the second one creates a fourth one, which sends
to the same target. -/
def creation : Schedule :=
  ((((Schedule.decide { randomized := true } [(.send, 5), (.create, 0)] 0).decide
    [(.create, 0), (.create, 0)] 0).decide
    [(.stop, 0), (.create, 0), (.start, 2)] 1).decide
    [(.stop, 0), (.stop, 1), (.start, 2), (.send, 5)] 3)

theorem built_creation : creation.Built :=
  ((((Schedule.Built.empty true).decide rfl rfl).decide rfl rfl).decide rfl rfl).decide rfl rfl

theorem growing_creation : creation.Growing := by
  unfold Schedule.Growing
  decide

/-- The schedule in random mode, to be analysed with tables that were not used yet. -/
def created : Workspace where
  analysis := { clocks := ⟨#[], 0, 0⟩ }
  schedule := creation
  generator := some ⟨1⟩

/-- The two sends race. Without the first one the third thread is not created, so the fourth one
becomes the third. -/
theorem creation_renumbers :
    (Workspace.finalTables (Workspace.walk created).state ⟨1, 4⟩).missing = [2] ∧
    (Workspace.reversal ⟨1, 4⟩ (Workspace.walk created).state).result =
      .ok [⟨1, []⟩, ⟨2, []⟩, ⟨0, []⟩] ∧
    ∃ l t, (Workspace.walk created).state.schedule.level 1 = .ok l ∧ l.selected = some t ∧
      Workspace.Renumbers { (Workspace.walk created).state with generator := some ⟨1⟩ } ⟨1, 4⟩
        ⟨t, 1⟩ := by
  have hwalk : (Workspace.walk created).result = .ok () := by decide +kernel
  have hrace : (⟨1, 4⟩ : Race) ∈ (Workspace.walk created).state.analysis.races := by
    decide +kernel
  exact ⟨by decide +kernel, by decide +kernel, Workspace.reversal_renumbers (w := created) built_creation
    growing_creation rfl (yields_of_result hwalk) hrace ⟨1⟩⟩

end Interleaving
