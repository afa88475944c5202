import Interleaving.Proofs.BacktrackSets

/-!
# Reduction

With reduction alone, an exploration runs at each level only the threads that the races of its
iterations call for. For actors that never wait this loses nothing: every maximal run is equivalent
to some iteration, so that every order of sends to the inboxes is seen.

## Main definitions

* `Reproduced` — an iteration was equivalent to a run.
* `reproducing` — the goal that all maximal runs are reproduced.

## Main statements

* `explore_reproduces_every_order` — every order of sends is produced by some iteration.
-/

namespace Interleaving

namespace Actors

open Machine

variable {scripts : List Script} {sleepSets reduction : Bool}

/-- An iteration that begins with the path was equivalent to the run. -/
def Reproduced (scripts : List Script) (rs : List Record) (p : List Answer) (xs : List Move) :
    Prop :=
  ∃ r ∈ rs, p <+: r.1 ∧ ∃ ys, r.1 = told 0 ys ∧ (load scripts).Equivalent xs ys

/-- Every maximal run is reproduced. Of those that go on from a level, the ones are reproduced that
go on with a thread that fell asleep there, and all iterations through the level are answered. -/
def reproducing (scripts : List Script) : Goal where
  Done rs p _ := ∀ xs, (load scripts).Maximal xs → p <+: told 0 xs → Reproduced scripts rs p xs
  Swept rs p _ entries :=
    (∀ (t : Nat) (e : Entry), entries[t]? = some e → e.asleep → ∀ xs, (load scripts).Maximal xs →
      p ++ [.run t (decisions p + 1)] <+: told 0 xs →
      Reproduced scripts rs (p ++ [.run t (decisions p + 1)]) xs) ∧
    ∀ r ∈ rs, p <+: r.1 → ∀ ys, (load scripts).Executes ys → r.1 = told 0 ys →
      Answered entries ys (decisions p + 1)

theorem Reproduced.mono {rs rs' : List Record} {p : List Answer} {xs : List Move} (hsub : rs ⊆ rs')
    (h : Reproduced scripts rs p xs) : Reproduced scripts rs' p xs := by
  obtain ⟨r, hr, h⟩ := h
  exact ⟨r, hsub hr, h⟩

/-- What is answered stays answered with more marks. -/
theorem Answered.mono {l l' : Level} {xs : List Move} {a : Nat} (h : Answered l.entries xs a)
    (hpendings : l'.pendings = l.pendings)
    (hmarked : ∀ t, Marked l.entries t → Marked l'.entries t) : Answered l'.entries xs a := by
  intro b p q hr
  obtain ⟨t, ht, hc⟩ := h b p q hr
  rw [Level.bystander_eq hpendings]
  exact ⟨t, hmarked t ht, hc⟩

/-- More marks leave what was achieved at a level. -/
theorem swept_of_moreMarked {rs : List Record} {p : List Answer} {z : List Nat} {l l' : Level}
    (hl : (setting scripts sleepSets reduction).MoreMarked l l')
    (h : (reproducing scripts).Swept rs p z l.entries) :
    (reproducing scripts).Swept rs p z l'.entries := by
  refine ⟨fun t e' he' ha xs hxs hp => ?_, fun r hr hp ys hys hr' => ?_⟩
  · obtain ⟨e, he, -, hasleep, -⟩ := hl.of_getElem? he'
    exact h.1 t e he (hasleep ▸ ha) xs hxs hp
  · refine (h.2 r hr hp ys hys hr').mono hl.pendings fun t ht => ?_
    obtain ⟨e, he, hm⟩ := ht
    rcases hl.entries t with heq | ⟨f, -, -, heq⟩
    · exact ⟨e, heq.trans he, hm⟩
    · exact ⟨f.mark, heq, rfl⟩

/-- Once all runs through a thread are reproduced it is put to sleep. -/
theorem reproducing_retire {rs : List Record} {below : List Level} {l : Level} {t : ThreadId}
    (hfits : (setting scripts false true).Fits below l)
    (hl : (reproducing scripts).Sweeps rs below l)
    (hdone : (reproducing scripts).Done rs (course below ++ [.run t (below.length + 1)]) []) :
    (reproducing scripts).Sweeps rs below (l.retired t) := by
  refine ⟨fun u f hf ha => ?_, fun r hr hp ys hys hr' => ?_⟩
  · by_cases hu : u = t
    · rw [hu, decisions_course hfits.below_selected]
      exact hdone
    · obtain ⟨g, hg, -, -, hsame⟩ := Level.exists_of_retired hf
      obtain rfl := hsame hu
      exact hl.1 u f hg ha
  · refine (hl.2 r hr hp ys hys hr').mono (l.pendings_retired t) fun u hu => ?_
    obtain ⟨f, hf, hm⟩ := hu
    refine ⟨if u = t then f.putToSleep else f, ?_, ?_⟩
    · rw [Level.getElem?_retired, hf, Option.map_some]
    · split <;> exact hm

/-! ## Iterations of free scripts -/

section Free

variable (free : Free scripts)
include free

/-- Every path of free scripts tells a run. -/
theorem exists_told {p : List Answer} (hp : (setting scripts sleepSets reduction).Follows p) :
    ∃ xs, (load scripts).Executes xs ∧ p = told 0 xs := by
  obtain ⟨xs, hxs, rfl | ⟨t, rest, ht, rfl⟩⟩ := exists_executes_of_follows free.plain.ordinary hp
  · exact ⟨xs, hxs, rfl⟩
  · have := ((unhindered_load free).moves hxs).free_next ht
    simp [Instruction.free] at this

/-- Free scripts ask for nothing more when no actor can move. -/
theorem request_of_maximal {xs : List Move} (h : (load scripts).Maximal xs) :
    (setting scripts sleepSets reduction).request (told 0 xs) = .finish := by
  have unhindered := (unhindered_load free).moves h.1
  have hall : ((load scripts).moves xs).actors.all (·.isEmpty) := by
    rw [List.all_eq_true]
    intro script hs
    obtain ⟨t, ht⟩ := List.mem_iff_getElem?.1 hs
    cases script with
    | nil => rfl
    | cons i rest =>
      have hcan := (unhindered.can_iff (x := ⟨t, i, none⟩)).2 ⟨rfl, rest, by simp [left, ht]⟩
      exact absurd hcan (h.2 _)
  rw [request_told]
  simp [request, unhindered.idle, hall]

/-- An iteration without sleep goes along a maximal run, and all actors finish. -/
theorem exists_maximal_of_ends {H G : List Level} {ending : Ending}
    (hG : (setting scripts false reduction).Stands G)
    (h : (setting scripts false reduction).Ends H G ending) :
    ∃ ys, (load scripts).Maximal ys ∧ course H = told 0 ys ∧ G = H ∧ ending = .allFinished := by
  have hne : ending ≠ .allAsleep := by
    rintro rfl
    cases h with
    | allAsleep _ _ hall =>
      obtain ⟨-, e, he, hasleep⟩ := Level.firstAwake_eq_allAsleep hall
      obtain ⟨i, hi⟩ := List.mem_iff_getElem?.1 he
      simp [(Setting.getElem?_fresh hi).1, setting, Setting.ofEnabled] at hasleep
  have hcomplete := h.complete hG (fun _ => rfl) rfl hne
  obtain ⟨ys, hys, hcourse⟩ := exists_told free hcomplete.1
  have hmax : (load scripts).Maximal ys := by
    refine ⟨hys, fun x hx => ?_⟩
    have : _ ∈ (setting scripts false reduction).offers (told 0 ys) :=
      run_mem_offers_told free.plain.ordinary hys hx
    rw [← hcourse, hcomplete.2] at this
    simp at this
  refine ⟨ys, hmax, hcourse, ?_⟩
  have hrequest : (setting scripts false reduction).request (told 0 ys) = .finish :=
    request_of_maximal free hmax
  rw [← hcourse] at hrequest
  cases h with
  | finished => exact ⟨rfl, rfl⟩
  | deadlock _ hr => simp [hr] at hrequest
  | allAsleep => exact absurd rfl hne
  | cut _ _ hl => simp [setting, Setting.ofEnabled] at hl

/-- A level of the stack along a run makes one of its moves. -/
theorem exists_move_at {below above : List Level} {l : Level} {ys : List Move}
    (hG : (setting scripts sleepSets reduction).Stands (below ++ l :: above))
    (hselected : l.selected.isSome) (hys : (load scripts).Executes ys)
    (hcourse : course (below ++ l :: above) = told 0 ys) :
    ∃ pre x post e, ys = pre ++ x :: post ∧ Node scripts below l pre ∧
      pre.length = below.length ∧ l.selected = some x.thread ∧
      l.entries[x.thread]? = some e ∧ e.toPending = x.operation := by
  have hfits := hG below l above rfl
  obtain ⟨pre, hnode⟩ := exists_node free.plain.ordinary hfits
  obtain ⟨pre', hpre', hc⟩ := exists_told free hfits.follows
  obtain ⟨t, ht⟩ := Option.isSome_iff_exists.1 hselected
  obtain ⟨x, rfl, rfl, hx⟩ := hnode.exists_snoc hfits ht hpre' hc
  have hprefix : course (below ++ [l]) <+: course (below ++ l :: above) :=
    ⟨course above, by rw [← course_append]; simp⟩
  obtain ⟨post, rfl⟩ := isPrefix_of_told hpre' hys 0 (by rwa [← hc, ← hcourse])
  obtain ⟨e, rest, he, -, hpending⟩ := hnode.exists_entry hx
  refine ⟨pre, x, post, e, by simp, hnode, hnode.length_eq hfits.below_selected, ht, he, ?_⟩
  have hfree := ((unhindered_load free).moves hnode.executes).free_next
    (hx.next.choose_spec.1)
  rw [hpending]
  cases hi : x.instruction <;> simp [hi, Instruction.free, Move.operation, pending] at hfree ⊢

/-- Each level of a finished schedule makes one move of the run. -/
theorem exists_move_of_getElem? {H : List Level} {ys : List Move}
    (hH : (setting scripts sleepSets reduction).Stands H) (hselected : ∀ l ∈ H, l.selected.isSome)
    (hys : (load scripts).Executes ys) (hcourse : course H = told 0 ys) {k : Nat} {l : Level}
    (hl : H[k]? = some l) : ∃ pre x post e,
      ys = pre ++ x :: post ∧ (∃ below, Node scripts below l pre) ∧ pre.length = k ∧
      l.selected = some x.thread ∧ l.entries[x.thread]? = some e ∧ e.toPending = x.operation := by
  obtain ⟨hk, rfl⟩ := List.getElem?_eq_some_iff.1 hl
  have hsplit : H = H.take k ++ H[k] :: H.drop (k + 1) := by
    rw [List.getElem_cons_drop, List.take_append_drop]
  have hstands : (setting scripts sleepSets reduction).Stands
      (H.take k ++ H[k] :: H.drop (k + 1)) := hsplit ▸ hH
  obtain ⟨pre, x, post, e, heq, hnode, hlength, h⟩ := exists_move_at free hstands
    (hselected _ (List.getElem_mem hk)) hys (hsplit ▸ hcourse)
  exact ⟨pre, x, post, e, heq, ⟨_, hnode⟩, by simpa [Nat.le_of_lt hk] using hlength, h⟩

/-- A finished schedule of free scripts can be walked over. -/
theorem walkable {H : List Level} {ys : List Move}
    (hH : (setting scripts sleepSets reduction).Stands H) (hselected : ∀ l ∈ H, l.selected.isSome)
    (hys : (load scripts).Maximal ys) (hcourse : course H = told 0 ys) :
    Walkable (setting scripts sleepSets reduction) H (trace ys) := by
  have hfree := (unhindered_load free).free_of_mem hys.1
  have at_index {k : Nat} {l : Level} (hl : H[k]? = some l) :=
    exists_move_of_getElem? free hH hselected hys.1 hcourse hl
  have hlength : H.length = ys.length := by
    rw [← decisions_course hselected, hcourse, decisions_told]
  refine ⟨fun k p hp => ?_, ⟨?_, ?_⟩, ?_, ?_, ?_⟩
  · obtain ⟨n, rfl⟩ : ∃ n, k = n + 1 := ⟨k - 1, by have := Trace.stepAt_pos hp; omega⟩
    obtain ⟨x, hx, rfl⟩ := exists_of_stepAt hp
    have hlt := (List.getElem?_eq_some_iff.1 hx).1
    obtain ⟨pre, x', post, e, rfl, -, rfl, hthread, he, hpending⟩ :=
      at_index (List.getElem?_eq_getElem (hlength ▸ hlt))
    obtain rfl : x' = x := by simpa using hx
    have hop := (Move.op_of_free (hfree x' (List.mem_of_getElem? hx))).2.2
    refine ⟨_, e, List.getElem?_eq_getElem _, Level.selectedEntry_eq_ok hthread he, ?_,
      hthread.trans (congrArg some x'.thread_operation.symm)⟩
    rw [← hpending] at hop ⊢
    simp [Level.resolved, hop]
  · intro p hp
    obtain ⟨x, hx, rfl⟩ := List.mem_map.1 hp
    exact (Move.op_of_free (hfree x hx)).2.1
  · intro k p hp hop
    obtain ⟨x, hx, rfl⟩ := List.mem_map.1 (Trace.mem_of_stepAt hp)
    exact absurd hop (Move.op_of_free (hfree x hx)).1
  · intro l hl
    obtain ⟨below, above, rfl⟩ := List.append_of_mem hl
    exact (hH below l above rfl).dense free.plain.ordinary.tame
  · intro l hl e he hrunnable
    obtain ⟨k, hk⟩ := List.mem_iff_getElem?.1 hl
    obtain ⟨t, ht⟩ := List.mem_iff_getElem?.1 he
    obtain ⟨pre, x, post, -, rfl, ⟨below, hnode⟩, -⟩ := at_index hk
    obtain ⟨script, hscript, hshown⟩ := hnode.entry ht
    have unhindered := (unhindered_load free).moves hnode.executes
    change e.toPending.enabled
    rw [hshown] at hrunnable ⊢
    cases script with
    | nil => simp [Pending.runnable, pending] at hrunnable
    | cons i rest =>
      have := unhindered.free_next hscript
      cases i <;> simp [Instruction.free, pending] at this ⊢
  · intro a b p q hrace l hl
    obtain ⟨pre, x, post, -, rfl, ⟨below, hnode⟩, hpre, -⟩ := at_index hl
    have hab := hrace.lt
    obtain ⟨n, rfl⟩ : ∃ n, b = n + 1 := ⟨b - 1, by omega⟩
    obtain ⟨y, hy, hq⟩ := ran_trace.1 ⟨q, hrace.later, rfl⟩
    rw [← hq]
    refine .inl (exists_runnable free hnode hys ?_)
    rw [List.getElem?_append_right (by omega)] at hy
    exact List.mem_of_getElem? hy

/-- What was run before through a thread that is asleep at a level. -/
theorem exists_equivalent_through {rs : List Record} {below : List Level} {l : Level}
    {pre v : List Move} {x : Move} (hnode : Node scripts below l pre)
    (hl : (reproducing scripts).Sweeps rs below l) {e : Entry}
    (he : l.entries[x.thread]? = some e) (ha : e.asleep)
    (hmax : (load scripts).Maximal (pre ++ x :: v)) :
    ∃ r ∈ rs, course below <+: r.1 ∧ ∃ z, r.1 = told 0 (pre ++ x :: z) ∧
      (load scripts).Equivalent (pre ++ x :: v) (pre ++ x :: z) := by
  have unhindered := unhindered_load free
  have htoss := unhindered.toss_eq_none hmax.1 x (by simp)
  have hsplit (z : List Move) : pre ++ x :: z = (pre ++ [x]) ++ z := by simp
  have htold : course below ++ [.run x.thread (decisions (course below) + 1)] =
      told 0 (pre ++ [x]) := by
    rw [hnode.course_eq, decisions_told, told_snoc, Move.answers, htoss]
    rfl
  have hprefix : told 0 (pre ++ [x]) <+: told 0 (pre ++ x :: v) := by
    rw [hsplit v, told_append 0 (pre ++ [x]) v]
    exact List.prefix_append _ _
  obtain ⟨r, hr, hp, ys, hys, hequiv⟩ := hl.1 x.thread e he ha _ hmax (htold ▸ hprefix)
  have hexec := (hequiv.executes_iff unhindered.tidy).1.1 hmax.1
  have hpre : (load scripts).Executes (pre ++ [x]) :=
    (executes_append.1 (hsplit v ▸ hmax.1)).1
  obtain ⟨z, rfl⟩ := isPrefix_of_told hpre hexec 0 (hys ▸ htold ▸ hp)
  rw [← hsplit] at hys hequiv
  exact ⟨r, hr, (List.prefix_append _ _).trans hp, z, hys, hequiv⟩

/-! ## The goal is kept -/

/-- The analysis answers the iteration at each of its levels. -/
theorem reproducing_analyse {rs : List Record} {s : Scheduler} {H G : List Level} {ending : Ending}
    (hgov : (setting scripts false true).Governs s) (hG : (setting scripts false true).Stands G)
    (hends : (setting scripts false true).Ends H G ending)
    (hswept : Upward ((reproducing scripts).Sweeps rs) G) :
    ∃ s' G', Scheduler.analyse.Yields (s.on G G.length) () (s'.on G' G'.length) ∧
      (setting scripts false true).Governs s' ∧ (setting scripts false true).Marks G G' ∧
      Upward ((reproducing scripts).Sweeps (rs ++ [(course H, ending)])) G' := by
  obtain ⟨ys, hmax, hcourse, rfl, rfl⟩ := exists_maximal_of_ends free hG hends
  have hlength : G.length = (trace ys).length := by
    rw [← decisions_course hends.selected, hcourse, decisions_told, trace, List.length_map]
  obtain ⟨s', G', hyields, hgov', hmarks, hhandled⟩ := hgov.analyse_yields rfl
    (walkable free hG hends.selected hmax hcourse)
    fun w hw => by rw [hends.steps_eq hw, hlength]
  refine ⟨s', G', hyields, hgov', hmarks, fun below' l' above' hG' => ?_⟩
  obtain ⟨below, l, above, rfl, hbelow, hl⟩ := hmarks.exists_split hG'
  have hdecisions : decisions (course below) = below.length :=
    decisions_course fun m hm => hends.selected m (by simp [hm])
  obtain ⟨hasleep, hanswered⟩ := swept_of_moreMarked hl (hswept below l above rfl)
  unfold Goal.Sweeps
  rw [hbelow.course_eq]
  refine ⟨fun t e he ha xs hxs hp =>
    (hasleep t e he ha xs hxs hp).mono (List.subset_append_left _ _), fun r hr hp zs hzs hr' => ?_⟩
  rcases List.mem_append.1 hr with hr | hr
  · exact hanswered r hr hp zs hzs hr'
  -- the iteration that was analysed just now
  · rw [List.mem_singleton.1 hr, hcourse] at hr'
    have hzy : zs <+: ys := isPrefix_of_told hzs hmax.1 0 (hr' ▸ List.prefix_refl _)
    have hyz : ys <+: zs := isPrefix_of_told hmax.1 hzs 0 (hr' ▸ List.prefix_refl _)
    obtain rfl : zs = ys := hzy.eq_of_length (le_antisymm hzy.length_le hyz.length_le)
    intro b p q hrace
    obtain ⟨m, m', t, e, hm, hm', he, hmarked, hc⟩ :=
      hhandled _ b p q hrace (Trace.stepAt_le hrace.later)
    rw [hdecisions, Nat.add_sub_cancel] at hm hm'
    obtain rfl : l = m := by simpa using hm
    obtain rfl : l' = m' := by
      rw [hG', ← hbelow.length_eq] at hm'
      simpa using hm'
    rw [Level.bystander_eq hl.pendings]
    exact ⟨t, ⟨e, he, hmarked⟩, hc⟩

/-- Where all that is marked is asleep, each maximal run is equivalent to one that goes on with a
thread asleep, so that it is reproduced. -/
theorem reproducing_exhaust {rs : List Record} {below : List Level} {l : Level}
    (hfits : (setting scripts false true).Fits below l) (hmarked : ∃ e ∈ l.entries, e.marked)
    (hex : l.exhausted) (hl : (reproducing scripts).Sweeps rs below l) :
    (reproducing scripts).Clears rs below := by
  intro xs hxs hp
  obtain ⟨pre, hnode⟩ := exists_node free.plain.ordinary hfits
  obtain ⟨w, rfl, -⟩ := hnode.exists_append hxs.1 hp
  have unhindered := unhindered_load free
  have hlength := hnode.length_eq hfits.below_selected
  have hasleep {t : ThreadId} (ht : Marked l.entries t) :
      ∃ e, l.entries[t]? = some e ∧ e.asleep := by
    obtain ⟨e, he, hm⟩ := ht
    have := Level.exhausted_iff.1 hex e (List.mem_of_getElem? he)
    exact ⟨e, he, by simpa [Entry.awake, hm] using this⟩
  have hsome : ∃ t, Marked l.entries t := by
    obtain ⟨e, he, hm⟩ := hmarked
    obtain ⟨i, hi⟩ := List.mem_iff_getElem?.1 he
    exact ⟨i, e, hi, hm⟩
  obtain ⟨t, ht, u, x, v, rfl, rfl, hind⟩ := exists_marked_initial free hnode hsome
    (fun e he hm => hfits.marked e he hm) (fun x v hx hmax => by
      obtain ⟨e, he, ha⟩ := hasleep hx
      obtain ⟨r, hr, hp, z, hz, hequiv⟩ := exists_equivalent_through free hnode hl he ha hmax
      have hexec := (hequiv.executes_iff unhindered.tidy).1.1 hmax.1
      refine ⟨z, hequiv, ?_⟩
      have := hl.2 r hr hp _ hexec hz
      rwa [decisions_course hfits.below_selected, ← hlength] at this) hxs
  have hcan : ((load scripts).moves pre).Can x := by
    have unhindered' := unhindered.moves hnode.executes
    obtain ⟨rest, hnext⟩ := next_of_executes unhindered'.tidy (executes_append.1 hxs.1).2
      fun y hy => (hind y hy).ne
    exact unhindered'.can_iff.2
      ⟨unhindered.toss_eq_none hxs.1 x (by simp), rest, by simp [left, hnext]⟩
  have hfront := equivalent_front unhindered.tidy u hxs.1 hcan hind
  obtain ⟨e, he, ha⟩ := hasleep ht
  obtain ⟨r, hr, hp, z, hz, hequiv⟩ := exists_equivalent_through free hnode hl he ha
    (hfront.maximal unhindered.tidy hxs)
  exact ⟨r, hr, hp, _, hz, hfront.trans _ _ _ hequiv⟩

theorem reproducing_lawful : (reproducing scripts).Lawful (setting scripts false true) where
  mono := fun hsub h xs hxs hp => (h xs hxs hp).mono hsub
  fresh := by
    intro rs below choices current _ _ _ _ hnone
    refine ⟨fun t e he ha => ?_, fun r hr hp => absurd hp (hnone r hr)⟩
    simp [(Setting.getElem?_fresh he).1, setting, Setting.ofEnabled] at ha
  analyse := reproducing_analyse free
  leaf := by
    intro rs H G ending hG hends _ xs hxs hp
    obtain ⟨ys, hmax, hcourse, -, -⟩ := exists_maximal_of_ends free hG hends
    obtain ⟨w, rfl⟩ := isPrefix_of_told hmax.1 hxs.1 0 (hcourse ▸ hp)
    cases w with
    | nil =>
      refine ⟨_, List.mem_append_right _ (List.mem_singleton.2 rfl), List.prefix_refl _, ys,
        hcourse, ?_⟩
      rw [List.append_nil]
      exact .refl ys
    | cons x w => exact absurd (executes_append.1 hxs.1).2.1 (hmax.2 x)
  draw := by
    intro rs p z hp hdraw
    obtain ⟨xs, hxs, rfl⟩ := exists_told free hp
    have unhindered := (unhindered_load free).moves hxs
    have := unhindered.tidy.orderly.request_cases unhindered.idle
    rw [request_told] at hdraw
    simp [hdraw] at this
  retire := fun hfits _ _ hl hdone => reproducing_retire hfits hl hdone
  exhaust := reproducing_exhaust free

end Free

/-- Actors that only send, yield, start and stop, explored with reduction and without sleep sets:
the exploration comes to its end, and every order of sends to the inboxes that a complete
interleaving produces is produced by an iteration in which all actors finish. -/
theorem explore_reproduces_every_order (free : Free scripts) {c : Config}
    (mode : c.mode = .depthFirst) (reduction : c.reduction = true)
    (sleepSets : c.sleepSets = false) (stepLimit : c.stepLimit = none)
    (maxIterations : c.maxIterations = none) :
    ∃ (executions : List (Execution Machine)) (stats : Stats) (enough : Nat),
      (∀ fuel, enough < fuel → ∃ notices, (Campaign.mk [scripts] []).explore c fuel =
        ⟨.ok (some stats), executions.toArray, notices⟩) ∧
      ∀ xs, (load scripts).Maximal xs → ∃ m, ⟨m, some .allFinished⟩ ∈ executions ∧
        ∀ inbox, m.arrivals inbox = ((load scripts).moves xs).arrivals inbox := by
  have unhindered := unhindered_load free
  obtain ⟨rs, stats, hx, -, ran, done⟩ := (reproducing_lawful free).explore
    (Campaign.mk [scripts] []).machine Machine.budget free.plain.ordinary.tame mode reduction
    sleepSets stepLimit maxIterations (machine_single scripts) (lt_budget scripts)
  refine ⟨_, stats, _, hx, fun xs hxs => ?_⟩
  obtain ⟨r, hr, -, ys, hys, hequiv⟩ := done xs hxs List.nil_prefix
  obtain ⟨H, G, hG, hends, -⟩ := ran r hr
  obtain ⟨-, -, -, -, hending⟩ := exists_maximal_of_ends free hG hends
  refine ⟨(load scripts).moves ys, List.mem_map.2 ⟨r, hr, ?_⟩, fun inbox => ?_⟩
  · rw [Setting.execution, hys, after_told, hending]
  · rw [unhindered.arrivals_moves hxs.1, hequiv.sendsTo_eq,
      unhindered.arrivals_moves ((hequiv.executes_iff unhindered.tidy).1.1 hxs.1)]

/-- Three actors that send to two inboxes. -/
theorem explore_reproduces_every_order_of_senders :
    ∃ (executions : List (Execution Machine)) (stats : Stats) (enough : Nat),
      (∀ fuel, enough < fuel → ∃ notices,
        (Campaign.mk [[[.send 0, .send 1], [.start, .send 1, .stop], [.yield, .send 0]]] []).explore
          { sleepSets := false } fuel = ⟨.ok (some stats), executions.toArray, notices⟩) ∧
      ∀ xs, (load [[.send 0, .send 1], [.start, .send 1, .stop], [.yield, .send 0]]).Maximal xs →
        ∃ m, ⟨m, some .allFinished⟩ ∈ executions ∧ ∀ inbox, m.arrivals inbox =
          ((load [[.send 0, .send 1], [.start, .send 1, .stop], [.yield, .send 0]]).moves
            xs).arrivals inbox :=
  explore_reproduces_every_order (by simp [Free, Instruction.free]) rfl rfl rfl rfl rfl

end Actors

end Interleaving
