import Interleaving.Proofs.ActorIterations
import Interleaving.Proofs.Shuffles

/-!
# No class of runs is gone through twice

Where two iterations part, the thread that the earlier one ran is asleep when the later one comes
by. It stays asleep at the levels above until an operation is run that it depends on. If the two
runs were equivalent, the later one would run the thread before that, but threads that are asleep
are never run. So with sleep sets no two iterations are equivalent.

## Main definitions

* `Setting.resting` — the goal that sleep is inherited all along the stack.

## Main statements

* `Machine.Equivalent.exists_append` — the first move of a run can come first in an equivalent one.
* `not_executes_of_asleep` — a thread that is asleep is not run before it is woken up.
* `explore_completes_no_class_twice` — no two iterations are equivalent.
-/

namespace Interleaving

/-! ## Inherited sleep -/

namespace Setting

variable {σ : Type} (S : Setting σ)

/-- With sleep sets, the threads that are asleep when a level is added stay asleep there. -/
def resting : Goal where
  Done _ _ _ := True
  Swept _ _ z entries := S.sleepSets → ∀ i ∈ z, ∀ e, entries[i]? = some e → e.asleep

theorem resting_robust : S.resting.Robust S where
  mono := fun _ _ => trivial
  fresh := by
    intro rs below choices current _ _ _ _ _ hs i hi e he
    rw [(getElem?_fresh he).1, hs]
    simpa using hi
  leaf := fun _ _ _ => trivial
  draw := fun _ _ _ _ => trivial
  retire := by
    intro rs below l t e _ _ _ hl _ hs i hi f hf
    rw [Level.getElem?_retired, Option.map_eq_some_iff] at hf
    obtain ⟨f, hf, rfl⟩ := hf
    split
    · rfl
    · exact hl hs i hi f hf
  exhaust := fun _ _ _ _ => trivial
  marks := by
    intro rs r G G' hm hG hswept below' l' above' hG' hs i hi e' he'
    obtain ⟨below, l, above, rfl, hbelow, hl⟩ := hm.exists_split hG'
    rw [hbelow.inherited_eq hG.of_append (hG below l above rfl).below_selected] at hi
    obtain ⟨e, he, -, hasleep, -⟩ := hl.of_getElem? he'
    rw [hasleep]
    exact hswept below l above rfl hs i hi e he

end Setting

/-- Apart from waits for quiescence, operations that depend on the same one depend on each other. -/
theorem Pending.dependent_trans {p q r : Pending} (hp : p.op ≠ .quiesce) (hq : q.op ≠ .quiesce)
    (hr : r.op ≠ .quiesce) (hpq : p.dependent q) (hpr : p.dependent r) : q.dependent r := by
  simp only [Pending.dependent, hp, hq, hr, or_self, if_false] at hpq hpr ⊢
  cases htp : p.target with
  | none => simp [htp] at hpq
  | some a =>
    cases htq : q.target with
    | none => simp [htp, htq] at hpq
    | some b =>
      cases htr : r.target with
      | none => simp [htp, htr] at hpr
      | some c =>
        simp only [htp, htq, htr, Bool.and_eq_true, Bool.or_eq_true, beq_iff_eq] at hpq hpr ⊢
        obtain ⟨⟨rfl, hk⟩, hpq⟩ := hpq
        obtain ⟨⟨rfl, hk'⟩, hpr⟩ := hpr
        refine ⟨⟨rfl, hk.symm.trans hk'⟩, ?_⟩
        rcases hpq with (hpq | hpq) | hpq <;> rcases hpr with (hpr | hpr) | hpr <;>
          simp_all [Operation.isLifecycle]

namespace Actors

open Machine

theorem Move.op_ne_quiesce {x : Move} (h : x.instruction.plain) : x.operation.op ≠ .quiesce := by
  unfold operation
  cases hi : x.instruction <;> simp [hi, Instruction.plain, pending] at h ⊢

namespace Machine

theorem Executes.plain {m : Machine} (tidy : m.Tidy) {xs : List Move} (h : m.Executes xs) :
    ∀ x ∈ xs, x.instruction.plain := by
  induction xs generalizing m with
  | nil => simp
  | cons x xs ih =>
    obtain ⟨rest, hm⟩ := h.1.moved tidy
    intro y hy
    rcases List.mem_cons.1 hy with rfl | hy
    · exact tidy.plain_next hm.next
    · exact ih hm.tidy h.2 y hy

/-- Where two equivalent runs part, the move that the first makes could also come next in the
second: it is made there later, and is independent of all that is made before it. -/
theorem Equivalent.exists_append {m : Machine} (tidy : m.Tidy) {pre w w' : List Move} {x : Move}
    (hxs : m.Executes (pre ++ x :: w)) (h : m.Equivalent (pre ++ x :: w) (pre ++ w')) :
    ∃ u v, w' = u ++ x :: v ∧ ∀ y ∈ u, y.Independent x := by
  have plain := hxs.plain tidy
  have plain' := ((h.executes_iff tidy).1.1 hxs).plain tidy
  have hx : x.instruction.plain := plain x (by simp)
  -- the thread's moves come in the same order, so its next one is `x` in both
  have hmoves := h.movesOf_eq x.thread
  rw [movesOf_append, movesOf_append, List.append_cancel_left_eq, movesOf_cons_self] at hmoves
  obtain ⟨u, v, rfl, hu, -⟩ := List.filter_eq_cons_iff.1 hmoves.symm
  have hthreads : ∀ y ∈ u, y.thread ≠ x.thread := fun y hy => by simpa using hu y hy
  refine ⟨u, v, rfl, fun y hy => ⟨hthreads y hy, ?_⟩⟩
  have hy' : y.instruction.plain := plain' y (by simp [hy])
  rw [Pending.dependent_comm]
  by_contra hdep
  rw [Bool.not_eq_false] at hdep
  -- the moves that `x` depends on come in the same order, and `x` is one of them
  have hself : x.operation.dependent x.operation := by
    have hyx : y.operation.dependent x.operation := Pending.dependent_comm _ _ ▸ hdep
    exact Pending.dependent_trans (Move.op_ne_quiesce hy') (Move.op_ne_quiesce hx)
      (Move.op_ne_quiesce hx) hyx hyx
  have hfilter := h.filter_eq
    (f := fun z => z.instruction.plain && x.operation.dependent z.operation)
    fun z z' hz hz' hind => by
      simp only [Bool.and_eq_true] at hz hz'
      have := Pending.dependent_trans (Move.op_ne_quiesce hx) (Move.op_ne_quiesce hz.1)
        (Move.op_ne_quiesce hz'.1) hz.2 hz'.2
      simp [hind.free] at this
  rw [List.filter_append, List.filter_append, List.append_cancel_left_eq,
    List.filter_cons_of_pos (by simp [hx, hself]), List.filter_append] at hfilter
  cases hfu : u.filter fun z => z.instruction.plain && x.operation.dependent z.operation with
  | nil =>
    have := List.filter_eq_nil_iff.1 hfu y hy
    simp [hy', hdep] at this
  | cons z rest =>
    rw [hfu, List.cons_append] at hfilter
    obtain ⟨rfl, -⟩ := List.cons.inj hfilter
    have hz : x ∈ u := (List.mem_filter.1 (hfu ▸ List.mem_cons_self)).1
    exact hthreads x hz rfl

/-! ## What a machine shows of its run -/

theorem observed_isPrefix_step (m : Machine) (t : ThreadId) (k : Step) :
    m.observed <+: (m.step t k).observed := by
  simp only [step]
  split
  · next i rest _ =>
    cases i <;> simp only [effect] <;> try exact List.prefix_refl _
    split
    · exact List.prefix_append _ _
    · exact List.prefix_refl _
  · exact List.prefix_refl _

theorem observed_isPrefix_moves (m : Machine) (xs : List Move) :
    m.observed <+: (m.moves xs).observed := by
  induction xs generalizing m with
  | nil => exact List.prefix_refl _
  | cons x xs ih =>
    refine List.IsPrefix.trans ?_ (ih (m.move x))
    unfold move
    split
    · exact m.observed_isPrefix_step _ _
    · exact (m.observed_isPrefix_step _ _).trans (List.prefix_append _ _)

theorem order_moves (m : Machine) (xs : List Move) :
    (m.moves xs).order = m.order ++ xs.map Move.thread := by
  induction xs generalizing m with
  | nil => simp
  | cons x xs ih => simp [ih]

/-- After a toss the machine shows its value. -/
theorem Can.observed_of_toss {m : Machine} {x : Move} {b : Bool} (h : m.Can x)
    (hb : x.toss = some b) : (m.move x).observed = m.observed ++ [.tossed x.thread b] := by
  obtain ⟨rest, hnext, -⟩ := h.next
  have hi := h.toss.1 (by simp [hb])
  rw [hi] at hnext
  simp [move, hb, step, hnext, effect, resume]

/-- The machine at the end of a run shows which run it was. -/
theorem Executes.eq_of_moves_eq {m : Machine} {xs ys : List Move} (hxs : m.Executes xs)
    (hys : m.Executes ys) (h : m.moves xs = m.moves ys) : xs = ys := by
  have hthreads : xs.map Move.thread = ys.map Move.thread := by
    have := congrArg Machine.order h
    rwa [order_moves, order_moves, List.append_cancel_left_eq] at this
  induction xs generalizing m ys with
  | nil => exact (List.map_eq_nil_iff.1 hthreads.symm).symm
  | cons x xs ih =>
    cases ys with
    | nil => simp at hthreads
    | cons y ys =>
      rw [List.map_cons, List.map_cons, List.cons.injEq] at hthreads
      obtain ⟨hthread, hthreads⟩ := hthreads
      obtain ⟨_, hx, -⟩ := hxs.1.next
      obtain ⟨_, hy, -⟩ := hys.1.next
      have hinstruction : x.instruction = y.instruction := by
        rw [hthread, hy] at hx
        simp only [Option.some.injEq, List.cons.injEq] at hx
        exact hx.1.symm
      have htoss : x.toss = y.toss := by
        cases hbx : x.toss with
        | none =>
          have := hys.1.toss.not.2 (hinstruction ▸ hxs.1.toss.not.1 (by simp [hbx]))
          rw [Option.not_isSome_iff_eq_none] at this
          exact this.symm
        | some b =>
          obtain ⟨b', hby⟩ : ∃ b', y.toss = some b' := Option.isSome_iff_exists.1
            (hys.1.toss.2 (hinstruction ▸ hxs.1.toss.1 (by simp [hbx])))
          -- both values stand at the same place of what was observed
          have hpx := (m.move x).observed_isPrefix_moves xs
          have hpy := (m.move y).observed_isPrefix_moves ys
          rw [hxs.1.observed_of_toss hbx] at hpx
          rw [hys.1.observed_of_toss hby, ← moves_cons, ← h] at hpy
          have := List.prefix_of_prefix_length_le hpx hpy (by simp)
          have := this.eq_of_length (by simp)
          simp only [List.append_cancel_left_eq, List.cons.injEq, Observation.tossed.injEq] at this
          rw [hby, this.1.2]
      obtain rfl : x = y := by
        cases x
        cases y
        simp_all
      rw [ih hxs.2 hys.2 h hthreads]

end Machine

/-! ## Runs that part -/

/-- A move draws one value at most. -/
theorem toss_of_bool_isPrefix {k : Nat} {toss : Option Bool} {bs : List Bool} {b : Bool}
    {w : List Move} (h : (bs ++ [b]).map .bool <+: toss.toList.map .bool ++ told k w) :
    toss = some b := by
  have hrun {bs : List Bool} {b : Bool} : ¬ (bs ++ [b]).map .bool <+: told k w := by
    cases w with
    | nil => simp [told]
    | cons x w => cases bs <;> simp [told, Move.answers]
  cases toss with
  | none => exact absurd (by simpa using h) (@hrun bs b)
  | some b' =>
    cases bs with
    | nil => simpa [eq_comm] using h
    | cons b'' bs =>
      simp only [List.cons_append, List.map_cons, Option.toList_some, List.map_nil,
        List.nil_append, List.cons_prefix_cons] at h
      exact absurd h.2 hrun

variable {scripts : List Script} {sleepSets reduction : Bool}

section Asleep

variable {H : List Level} {rs : List Record}

/-- A thread that is asleep at a level of an iteration is not run as long as only operations are
run that are independent of its own. -/
theorem not_executes_of_asleep (plain : Plain scripts)
    (hstands : (setting scripts true reduction).Stands H) (hs : ∀ l ∈ H, l.selected.isSome)
    (hrest : Upward ((setting scripts true reduction).resting.Sweeps rs) H)
    {x : Move} {v : List Move} (u : List Move) :
    ∀ {pre : List Move} {below above : List Level} {l : Level} {e : Entry},
      H = below ++ l :: above → Node scripts below l pre →
      course H = told 0 (pre ++ (u ++ x :: v)) →
      (load scripts).Executes (pre ++ (u ++ x :: v)) →
      l.entries[x.thread]? = some e → e.asleep → ¬ ∀ y ∈ u, y.Independent x := by
  induction u with
  | nil =>
    rintro pre below above l e rfl hnode hcourse hexec he ha -
    obtain ⟨t, ht⟩ := Option.isSome_iff_exists.1 (hs l (by simp))
    have hfits := hstands below l above rfl
    obtain ⟨x', w, hw, rfl⟩ := hnode.exists_cons hfits ht hexec
      (hcourse ▸ course_isPrefix below l above)
    obtain ⟨rfl, -⟩ := List.cons.inj hw
    obtain ⟨f, hf, hawake⟩ := hfits.awake _ ht
    obtain rfl : e = f := by simpa [he] using hf
    simp [Entry.awake, ha] at hawake
  | cons y u ih =>
    rintro pre below above l e rfl hnode hcourse hexec he ha hind
    obtain ⟨t, ht⟩ := Option.isSome_iff_exists.1 (hs l (by simp))
    have hfits := hstands below l above rfl
    obtain ⟨y', w, hw, rfl⟩ := hnode.exists_cons hfits ht hexec
      (hcourse ▸ course_isPrefix below l above)
    obtain ⟨rfl, -⟩ := List.cons.inj hw
    -- the run goes on, so there is a level over this one
    cases above with
    | nil =>
      have := decisions_course hs
      rw [hcourse, decisions_told] at this
      have := hnode.length_eq hfits.below_selected
      simp at *
      omega
    | cons l' above =>
      have hG : below ++ l :: l' :: above = (below ++ [l]) ++ l' :: above := by simp
      have hfits' := hstands (below ++ [l]) l' above hG
      obtain ⟨pre', hnode'⟩ := exists_node plain.ordinary hfits'
      obtain ⟨y', rfl, hthread, hcan⟩ :=
        hnode.exists_snoc hfits ht hnode'.executes hnode'.course_eq
      obtain rfl : y' = y := by
        obtain ⟨w, hw⟩ := hnode'.isPrefix hexec (hcourse ▸ course_isPrefix below l _)
        simp only [List.append_assoc, List.append_cancel_left_eq, List.cons_append,
          List.cons.injEq] at hw
        exact hw.1.symm
      have hyx := hind y' List.mem_cons_self
      have tidy := hnode.executes.tidy (tidy_load plain)
      obtain ⟨rest, hnext⟩ := next_of_executes tidy (executes_append.1 hexec).2
        fun z hz => (hind z hz).ne
      -- what is run leaves the thread asleep
      have hsleep : x.thread ∈ inherited (below ++ [l]) := by
        obtain ⟨f, rest', hf, -, hshown⟩ := hnode.exists_entry hcan
        obtain ⟨script, hscript, hshown'⟩ := hnode.entry he
        obtain rfl : x.instruction :: rest = script := by simpa [hnext] using hscript
        rw [inherited_snoc ht hf, mem_sleepers]
        refine ⟨e, he, ha, ?_⟩
        rw [hshown, hshown', dependent_pending, Pending.dependent_comm]
        exact hyx.free
      obtain ⟨e', he'⟩ : ∃ e', l'.entries[x.thread]? = some e' := by
        have hexec' : (load scripts).Executes ((pre ++ [y']) ++ (u ++ x :: v)) := by
          simpa using hexec
        obtain ⟨rest', hnext'⟩ := next_of_executes (hnode'.executes.tidy (tidy_load plain))
          (executes_append.1 hexec').2 fun z hz => (hind z (List.mem_cons_of_mem y' hz)).ne
        have := l'.pendings_getElem? x.thread
        rw [hnode'.shown, getElem?_snapshot, hnext', Option.map_some] at this
        obtain ⟨e', he', -⟩ := Option.map_eq_some_iff.1 this.symm
        exact ⟨e', he'⟩
      exact ih hG hnode' (by simpa using hcourse) (by simpa using hexec) he'
        (hrest (below ++ [l]) l' above hG rfl x.thread hsleep e' he')
        fun z hz => hind z (List.mem_cons_of_mem y' hz)

/-- A run that was left behind is not equivalent to that of the iteration. -/
theorem not_equivalent_of_passed (plain : Plain scripts)
    (hstands : (setting scripts true reduction).Stands H) (hs : ∀ l ∈ H, l.selected.isSome)
    (hrest : Upward ((setting scripts true reduction).resting.Sweeps rs) H) {xs ys : List Move}
    (hxs : (load scripts).Executes xs) (hys : (load scripts).Executes ys)
    (hcourse : course H = told 0 ys) (hpassed : Passed H (told 0 xs)) :
    ¬ (load scripts).Equivalent xs ys := by
  intro hequiv
  obtain ⟨below, l, above, hH, hpassed⟩ := hpassed
  have hfits := hstands below l above hH
  obtain ⟨pre, hnode⟩ := exists_node plain.ordinary hfits
  have hbelow : course (below ++ [l]) <+: told 0 ys := by
    rw [← hcourse, hH]
    exact course_isPrefix below l above
  cases hpassed with
  | @asleep t e _ he ha hp =>
    obtain ⟨w, rfl, hw⟩ := hnode.isPrefix_told hfits.below_selected hxs hp
    obtain ⟨x, w, rfl, rfl, -⟩ := exists_cons_of_run_isPrefix hw
    rw [course_append] at hbelow
    obtain ⟨w', rfl⟩ := hnode.isPrefix hys ((List.prefix_append _ _).trans hbelow)
    obtain ⟨u, v, rfl, hind⟩ := hequiv.exists_append (tidy_load plain) hxs
    exact not_executes_of_asleep plain hstands hs hrest u hH hnode hcourse hys he ha hind
  | @drawn t ds rest ht hd hp =>
    have drawn {zs : List Move} {b : Bool} {ds' : List Draw} (hzs : (load scripts).Executes zs)
        (hp : course below ++ Interleaving.move t (below.length + 1) (ds ++ .ofBool b :: ds') <+:
          told 0 zs) : ∃ z w, zs = pre ++ z :: w ∧ z.thread = t ∧ z.toss = some b := by
      obtain ⟨w, rfl, hw⟩ := hnode.isPrefix_told hfits.below_selected hzs hp
      obtain ⟨z, w, rfl, hz, hdraws⟩ := exists_cons_of_run_isPrefix hw
      refine ⟨z, w, rfl, hz, @toss_of_bool_isPrefix _ _ (ds.map Draw.truth) b _
        (List.IsPrefix.trans ?_ hdraws)⟩
      simp
    -- the thread drew another value
    obtain ⟨x, w, rfl, hxt, hx⟩ := drawn hxs hp
    rw [hfits.course_eq ht, hd] at hbelow
    obtain ⟨y, w', rfl, hyt, hy⟩ := drawn hys hbelow
    have hmoves := hequiv.movesOf_eq t
    rw [movesOf_append, movesOf_append, List.append_cancel_left_eq] at hmoves
    simp only [movesOf, hxt, hyt, beq_self_eq_true, List.filter_cons_of_pos, List.cons.injEq]
      at hmoves
    rw [hmoves.1, hy] at hx
    simp at hx

end Asleep

/-- With sleep sets no class of runs is gone through twice, with reduction or without, and with any
limits. Every iteration makes a run of the plain scripts, and no two of them are equivalent. -/
theorem explore_completes_no_class_twice (plain : Plain scripts) {c : Config}
    (mode : c.mode = .depthFirst) (sleepSets : c.sleepSets = true) (fuel : Nat) :
    (∀ execution ∈ ((Campaign.mk [scripts] []).explore c fuel).state, ∃ xs ending,
      (load scripts).Executes xs ∧ execution = ⟨(load scripts).moves xs, some ending⟩) ∧
    ((Campaign.mk [scripts] []).explore c fuel).state.toList.Pairwise fun execution execution' =>
      ∀ xs ys, (load scripts).Executes xs → (load scripts).Executes ys →
        execution.state = (load scripts).moves xs → execution'.state = (load scripts).moves ys →
        ¬ (load scripts).Equivalent xs ys := by
  let S := (setting scripts true c.reduction).limited c.stepLimit
  obtain ⟨rs, ran, pairwise, hstate, -⟩ := S.resting_robust.explore
    (Campaign.mk [scripts] []).machine Machine.budget (plain.ordinary.tame.limited c.stepLimit)
    (fun G => markable_of_stands plain.ordinary) mode rfl sleepSets rfl (machine_single scripts)
    (lt_budget scripts) fuel
  change ((Campaign.mk [scripts] []).explore c fuel).state = _ at hstate
  have after (xs : List Move) : S.after (told 0 xs) = (load scripts).moves xs := by
    rw [Setting.after_limited]
    exact after_told xs
  rw [hstate]
  constructor
  · intro execution he
    obtain ⟨r, hr, rfl⟩ : ∃ r ∈ rs, S.execution r = execution := by simpa using he
    obtain ⟨xs, hxs, hr⟩ := exists_executes_of_ran plain.ordinary (ran r hr)
    exact ⟨xs, r.2, hxs, by rw [Setting.execution, hr, after]⟩
  · rw [List.pairwise_map]
    refine pairwise.imp_of_mem fun {r' r} hr' hr hsucceeds xs ys hxs hys hrx hry => ?_
    obtain ⟨xs', hxs', htold'⟩ := exists_executes_of_ran plain.ordinary (ran r' hr')
    obtain ⟨ys', hys', htold⟩ := exists_executes_of_ran plain.ordinary (ran r hr)
    have hx : (load scripts).moves xs' = (load scripts).moves xs := by
      rw [← hrx, Setting.execution, htold', after]
    have hy : (load scripts).moves ys' = (load scripts).moves ys := by
      rw [← hry, Setting.execution, htold, after]
    obtain rfl := hxs'.eq_of_moves_eq hxs hx
    obtain rfl := hys'.eq_of_moves_eq hys hy
    obtain ⟨rs', H, G, hmem, hsound, hends, hcourse⟩ := hsucceeds
    have hrest : Upward (S.resting.Sweeps rs') H := by
      rcases hends.eq_or_snoc with rfl | ⟨l, rfl, -⟩
      · exact hsound.swept
      · exact (upward_snoc.1 hsound.swept).1
    refine not_equivalent_of_passed plain ((hends.stands hsound.stands).of_limited rfl)
      hends.selected hrest hxs hys (hcourse.symm.trans htold) ?_
    rw [← htold']
    exact hends.passed (hsound.passed r' hmem)

/-- Two actors that toss coins and one that waits for the first, with reduction and a limit of
iterations. -/
theorem explore_completes_no_class_twice_of_tosses :
    (∀ execution ∈ ((Campaign.mk [[[.toss, .send 0], [.send 0, .toss], [.join 0, .receive 0]]]
        []).explore { maxIterations := some 50 } 100).state, ∃ xs ending,
      (load [[.toss, .send 0], [.send 0, .toss], [.join 0, .receive 0]]).Executes xs ∧
        execution = ⟨(load [[.toss, .send 0], [.send 0, .toss], [.join 0, .receive 0]]).moves xs,
          some ending⟩) ∧
    ((Campaign.mk [[[.toss, .send 0], [.send 0, .toss], [.join 0, .receive 0]]] []).explore
        { maxIterations := some 50 } 100).state.toList.Pairwise fun execution execution' =>
      ∀ xs ys, (load [[.toss, .send 0], [.send 0, .toss], [.join 0, .receive 0]]).Executes xs →
        (load [[.toss, .send 0], [.send 0, .toss], [.join 0, .receive 0]]).Executes ys →
        execution.state =
          (load [[.toss, .send 0], [.send 0, .toss], [.join 0, .receive 0]]).moves xs →
        execution'.state =
          (load [[.toss, .send 0], [.send 0, .toss], [.join 0, .receive 0]]).moves ys →
        ¬ (load [[.toss, .send 0], [.send 0, .toss], [.join 0, .receive 0]]).Equivalent xs ys :=
  explore_completes_no_class_twice (by simp [Plain, Instruction.plain]) rfl rfl 100

end Actors

end Interleaving
