import Interleaving.Proofs.PlainRuns

/-!
# Independent moves

Two machines are similar if their actors have the same left to do and the same numbers of messages
wait. Then they can make the same moves. Moves of different actors that do not depend on each
other do not stop each other and lead to similar machines, whichever comes first; so a move
that is independent of all before it can be made at once.

## Main definitions

* `Machine.Similar` — the same moves can be made from now on.
* `Move.Compatible` — moves that do not stop each other.
* `Move.Independent`, `Machine.Swap`, `Machine.Equivalent` — runs that differ in the order of
  independent moves.

## Main statements

* `Machine.Can.persists` — a move stays possible when a compatible one is made.
* `Machine.equivalent_front` — a move independent of those before it is moved to the front.
* `Machine.Equivalent.maximal` — what is equivalent to a maximal run is one.
-/

namespace Interleaving

theorem Pending.dependent_comm (p q : Pending) : p.dependent q = q.dependent p := by
  unfold Pending.dependent
  split
  · next h => rw [if_pos h.symm]
  · next h =>
    rw [if_neg (fun h' => h h'.symm)]
    cases p.target <;> cases q.target <;> simp only
    rename_i a b
    rw [Bool.eq_iff_iff]
    simp only [Bool.and_eq_true, Bool.or_eq_true, beq_iff_eq]
    constructor
    · rintro ⟨⟨rfl, hk⟩, hop⟩
      exact ⟨⟨rfl, hk.symm⟩, by tauto⟩
    · rintro ⟨⟨rfl, hk⟩, hop⟩
      exact ⟨⟨rfl, hk.symm⟩, by tauto⟩

namespace Actors

/-- Two moves of different actors whose operations do not depend on each other. -/
structure Move.Independent (x y : Move) : Prop where
  ne : x.thread ≠ y.thread
  free : x.operation.dependent y.operation = false

/-- Two moves of different actors that do not receive from the same inbox. -/
structure Move.Compatible (x y : Move) : Prop where
  ne : x.thread ≠ y.thread
  receive : ∀ inbox, x.instruction = .receive inbox → y.instruction ≠ .receive inbox

theorem Move.Compatible.symm {x y : Move} (h : x.Compatible y) : y.Compatible x :=
  ⟨h.ne.symm, fun inbox hy hx => h.receive inbox hx hy⟩

theorem Move.Independent.compatible {x y : Move} (h : x.Independent y) : x.Compatible y := by
  refine ⟨h.ne, fun inbox hx hy => ?_⟩
  have := h.free
  simp [Move.operation, Machine.pending, hx, hy, Pending.dependent] at this

/-- Whether operations depend on each other shows in their instructions. -/
theorem Machine.dependent_pending (m : Machine) (x y : Move) (rest rest' : Script) :
    (m.pending x.thread (x.instruction :: rest)).dependent
      (m.pending y.thread (y.instruction :: rest')) = x.operation.dependent y.operation := by
  have shown (x : Move) (rest : Script) :
      (m.pending x.thread (x.instruction :: rest)).op = x.operation.op ∧
      (m.pending x.thread (x.instruction :: rest)).kind = x.operation.kind ∧
      (m.pending x.thread (x.instruction :: rest)).target = x.operation.target := by
    unfold Move.operation
    cases x.instruction <;> exact ⟨rfl, rfl, rfl⟩
  obtain ⟨hop, hkind, htarget⟩ := shown x rest
  obtain ⟨hop', hkind', htarget'⟩ := shown y rest'
  simp only [Pending.dependent, hop, hkind, htarget, hop', hkind', htarget']

namespace Machine

/-- The actors have the same left to do, and the same numbers of messages wait. -/
structure Similar (m m' : Machine) : Prop where
  actors : m.actors = m'.actors
  demand : m.demand = m'.demand
  waiting : ∀ j, m.waiting j = m'.waiting j

namespace Similar

variable {m m' m'' : Machine}

theorem refl (m : Machine) : m.Similar m := ⟨rfl, rfl, fun _ => rfl⟩

theorem symm (h : m.Similar m') : m'.Similar m :=
  ⟨h.actors.symm, h.demand.symm, fun j => (h.waiting j).symm⟩

theorem trans (h : m.Similar m') (h' : m'.Similar m'') : m.Similar m'' :=
  ⟨h.actors.trans h'.actors, h.demand.trans h'.demand,
    fun j => (h.waiting j).trans (h'.waiting j)⟩

theorem can {x : Move} (h : m.Similar m') (hx : m.Can x) : m'.Can x := by
  obtain ⟨rest, ht, henabled⟩ := hx.next
  refine ⟨h.demand ▸ hx.idle, ⟨rest, h.actors ▸ ht, ?_⟩, hx.toss⟩
  cases hi : x.instruction with
  | receive inbox =>
    simp only [hi, pending, isSome_front?, h.waiting] at henabled ⊢
    exact henabled
  | join actor =>
    simp only [hi, pending, finished, h.actors] at henabled ⊢
    exact henabled
  | _ =>
    simp only [hi, pending] at henabled ⊢
    try exact henabled

theorem move {x : Move} (h : m.Similar m') (tidy : m.Tidy) (tidy' : m'.Tidy) (hx : m.Can x) :
    (m.move x).Similar (m'.move x) := by
  obtain ⟨rest, hm⟩ := hx.moved tidy
  obtain ⟨rest', hm'⟩ := (h.can hx).moved tidy'
  obtain rfl : rest = rest' := by
    have hnext := hm'.next
    rw [← h.actors, hm.next] at hnext
    simpa using hnext
  refine ⟨?_, ?_, fun j => ?_⟩
  · rw [hm.actors, hm'.actors, h.actors]
  · rw [hm.demand, hm'.demand]
  · rw [hm.waiting, hm'.waiting, h.waiting]

/-- Similar machines make the same runs, and are similar after them. -/
theorem executes {xs : List Move} (h : m.Similar m') (tidy : m.Tidy) (tidy' : m'.Tidy)
    (hxs : m.Executes xs) : m'.Executes xs ∧ (m.moves xs).Similar (m'.moves xs) := by
  induction xs generalizing m m' with
  | nil => exact ⟨trivial, h⟩
  | cons x xs ih =>
    obtain ⟨rest, hm⟩ := hxs.1.moved tidy
    obtain ⟨rest', hm'⟩ := (h.can hxs.1).moved tidy'
    obtain ⟨hexec, hsimilar⟩ := ih (h.move tidy tidy' hxs.1) hm.tidy hm'.tidy hxs.2
    exact ⟨⟨h.can hxs.1, hexec⟩, hsimilar⟩

end Similar

/-! ## Moves that commute -/

section Commute

variable {m : Machine} {x y : Move}

theorem waiting_pos_of_can (h : m.Can x) {inbox : Nat} (hi : x.instruction = .receive inbox) :
    0 < m.waiting inbox := by
  obtain ⟨rest, -, henabled⟩ := h.next
  simpa [hi, pending, isSome_front?] using henabled

/-- What can be done stays possible after a compatible move. -/
theorem Can.persists (hx : m.Can x) (hy : m.Can y) (orderly : m.Orderly) (h : x.Compatible y) :
    (m.move x).Can y := by
  obtain ⟨rest, hm⟩ := hx.advanced orderly
  obtain ⟨rest', hnext, henabled⟩ := hy.next
  refine ⟨hm.demand, ⟨rest', ?_, ?_⟩, hy.toss⟩
  · rw [hm.getElem?_of_ne (List.getElem?_eq_some_iff.1 hnext).1 h.ne, hnext]
  · cases hi : y.instruction with
    | receive inbox =>
      have hpos := waiting_pos_of_can hy hi
      simp only [pending, isSome_front?, hm.waiting, decide_eq_true_eq]
      unfold waitingAfter
      split
      · split <;> omega
      · next i hxi =>
        have hne : i ≠ inbox := by
          rintro rfl
          exact h.receive i hxi hi
        simpa [hne] using hpos
      · exact hpos
    | join actor =>
      -- a finished actor has no move left, and stays finished
      simp only [hi, pending, finished] at henabled ⊢
      obtain ⟨script, hscript, hempty⟩ := (Option.any_eq_true _ _).1 henabled
      have hne : x.thread ≠ actor := by
        rintro rfl
        obtain rfl : x.instruction :: rest = script := by simpa [hm.next] using hscript
        simp at hempty
      rw [hm.getElem?_of_ne (List.getElem?_eq_some_iff.1 hscript).1 hne]
      exact henabled
    | _ =>
      simp only [hi, pending] at henabled ⊢
      try exact henabled

/-- Moves of different actors lead to the same, whichever comes first. -/
theorem similar_swap (hx : m.Can x) (hy : m.Can y) (hxy : (m.move x).Can y) (hyx : (m.move y).Can x)
    (tidy : m.Tidy) (hne : x.thread ≠ y.thread) :
    ((m.move x).move y).Similar ((m.move y).move x) := by
  obtain ⟨restx, hmx⟩ := hx.moved tidy
  obtain ⟨resty, hmy⟩ := hy.moved tidy
  obtain ⟨resty', hmxy⟩ := hxy.moved hmx.tidy
  obtain ⟨restx', hmyx⟩ := hyx.moved hmy.tidy
  obtain rfl : resty = resty' := by
    have := hmxy.next
    rw [hmx.actors, List.getElem?_set_ne hne, hmy.next] at this
    simpa using this
  obtain rfl : restx = restx' := by
    have := hmyx.next
    rw [hmy.actors, List.getElem?_set_ne hne.symm, hmx.next] at this
    simpa using this
  refine ⟨?_, ?_, fun j => ?_⟩
  · rw [hmxy.actors, hmyx.actors, hmx.actors, hmy.actors, List.set_comm _ _ hne]
  · rw [hmxy.demand, hmyx.demand]
  · rw [hmxy.waiting, hmyx.waiting, hmx.waiting, hmy.waiting]
    have hposx : ∀ i, x.instruction = .receive i → 0 < m.waiting i :=
      fun i hi => waiting_pos_of_can hx hi
    have hposy : ∀ i, y.instruction = .receive i → 0 < m.waiting i :=
      fun i hi => waiting_pos_of_can hy hi
    unfold waitingAfter
    grind

/-- After two moves in one order the machine goes on as after the other order. -/
theorem executes_swap (tidy : m.Tidy) (h : x.Compatible y) {xs : List Move} (hy : m.Can y)
    (hxs : m.Executes (x :: y :: xs)) :
    m.Executes (y :: x :: xs) ∧ (m.moves (x :: y :: xs)).Similar (m.moves (y :: x :: xs)) := by
  obtain ⟨hx, hxy, hrest⟩ := hxs
  have hyx := hy.persists hx tidy.orderly h.symm
  have hsimilar := similar_swap hx hy hxy hyx tidy h.ne
  obtain ⟨_, hmx⟩ := hx.moved tidy
  obtain ⟨_, hmy⟩ := hy.moved tidy
  obtain ⟨_, hmxy⟩ := hxy.moved hmx.tidy
  obtain ⟨_, hmyx⟩ := hyx.moved hmy.tidy
  obtain ⟨hexec, hmoves⟩ := hsimilar.executes hmxy.tidy hmyx.tidy hrest
  exact ⟨⟨hy, hyx, hexec⟩, hmoves⟩

end Commute

theorem Similar.maximal {m : Machine} {xs ys : List Move} (h : (m.moves xs).Similar (m.moves ys))
    (hys : m.Executes ys) (hxs : m.Maximal xs) : m.Maximal ys :=
  ⟨hys, fun x hx => hxs.2 x (h.symm.can hx)⟩

theorem maximal_append {m : Machine} {xs ys : List Move} :
    m.Maximal (xs ++ ys) ↔ m.Executes xs ∧ (m.moves xs).Maximal ys := by
  rw [Maximal, Maximal, executes_append, moves_append, and_assoc]

/-! ## Equivalent runs -/

/-- Two runs that differ in the order of two independent moves, one right after the other. -/
inductive Swap (m : Machine) : List Move → List Move → Prop
  | mk {pre post : List Move} {x y : Move} : x.Independent y →
      m.Executes (pre ++ x :: y :: post) → m.Executes (pre ++ y :: x :: post) →
      Swap m (pre ++ x :: y :: post) (pre ++ y :: x :: post)

/-- Runs that come from each other by swapping independent moves. -/
def Equivalent (m : Machine) : List Move → List Move → Prop := Relation.EqvGen m.Swap

theorem Swap.similar {m : Machine} {xs ys : List Move} (tidy : m.Tidy) (h : m.Swap xs ys) :
    (m.moves xs).Similar (m.moves ys) := by
  cases h with
  | @mk pre post x y hind hxs hys =>
    obtain ⟨hpre, hxy⟩ := executes_append.1 hxs
    obtain ⟨-, hyx⟩ := executes_append.1 hys
    rw [moves_append, moves_append]
    exact (executes_swap (hpre.tidy tidy) hind.compatible hyx.1 hxy).2

/-- Equivalent runs are both executed or both not, and lead to similar machines. -/
theorem Equivalent.executes_iff {m : Machine} (tidy : m.Tidy) {xs ys : List Move}
    (h : m.Equivalent xs ys) :
    (m.Executes xs ↔ m.Executes ys) ∧ (m.moves xs).Similar (m.moves ys) := by
  induction h with
  | rel xs ys h =>
    refine ⟨?_, h.similar tidy⟩
    cases h with
    | mk _ hxs hys => exact ⟨fun _ => hys, fun _ => hxs⟩
  | refl xs => exact ⟨Iff.rfl, .refl _⟩
  | symm xs ys _ ih => exact ⟨ih.1.symm, ih.2.symm⟩
  | trans xs ys zs _ _ ih₁ ih₂ => exact ⟨ih₁.1.trans ih₂.1, ih₁.2.trans ih₂.2⟩

theorem Equivalent.maximal {m : Machine} (tidy : m.Tidy) {xs ys : List Move}
    (h : m.Equivalent xs ys) (hxs : m.Maximal xs) : m.Maximal ys := by
  obtain ⟨hiff, hsimilar⟩ := h.executes_iff tidy
  exact hsimilar.maximal (hiff.1 hxs.1) hxs

/-- A move that can be made and is independent of those before it can come first. -/
theorem equivalent_front {m : Machine} (tidy : m.Tidy) {x : Move} {v : List Move} (u : List Move) :
    ∀ {pre : List Move}, m.Executes (pre ++ (u ++ x :: v)) → (m.moves pre).Can x →
      (∀ y ∈ u, y.Independent x) → m.Equivalent (pre ++ (u ++ x :: v)) (pre ++ x :: (u ++ v)) := by
  induction u with
  | nil => intro pre _ _ _; exact .refl _
  | cons y u ih =>
    intro pre h hx hind
    obtain ⟨hpre, hrest⟩ := executes_append.1 h
    have hyx := hind y List.mem_cons_self
    have hafter : (m.moves (pre ++ [y])).Can x := by
      rw [moves_append]
      exact hrest.1.persists hx (hpre.tidy tidy).orderly hyx.compatible
    have hstep : m.Equivalent (pre ++ (y :: u ++ x :: v)) (pre ++ y :: x :: (u ++ v)) := by
      have := @ih (pre ++ [y]) (by simpa using h) hafter
        fun z hz => hind z (List.mem_cons_of_mem y hz)
      simpa using this
    have hexec := (hstep.executes_iff tidy).1.1 h
    refine hstep.trans _ _ _ (.rel _ _ (.mk hyx hexec ?_))
    obtain ⟨-, htail⟩ := executes_append.1 hexec
    exact executes_append.2 ⟨hpre, (executes_swap (hpre.tidy tidy) hyx.compatible hx htail).1⟩

/-! ## Moves that could come first -/

/-- The first move of an actor in a run, which is independent of all before it. -/
def Initial (t : ThreadId) (xs : List Move) : Prop :=
  ∃ u x v, xs = u ++ x :: v ∧ x.thread = t ∧ ∀ y ∈ u, y.Independent x

theorem initial_cons (x : Move) (xs : List Move) : Initial x.thread (x :: xs) :=
  ⟨[], x, xs, rfl, rfl, by simp⟩

/-- An actor's first move in a run is of the instruction that it is at. -/
theorem next_of_executes {m : Machine} (tidy : m.Tidy) {u v : List Move} {x : Move}
    (h : m.Executes (u ++ x :: v)) (hu : ∀ y ∈ u, y.thread ≠ x.thread) :
    ∃ rest, m.actors[x.thread]? = some (x.instruction :: rest) := by
  induction u generalizing m with
  | nil =>
    obtain ⟨rest, hnext, -⟩ := h.1.next
    exact ⟨rest, hnext⟩
  | cons y u ih =>
    obtain ⟨_, hm⟩ := h.1.moved tidy
    obtain ⟨rest, hnext⟩ := ih hm.tidy h.2 fun z hz => hu z (List.mem_cons_of_mem y hz)
    rw [hm.actors, List.getElem?_set_ne (hu y List.mem_cons_self)] at hnext
    exact ⟨rest, hnext⟩

theorem toss_of_executes {m : Machine} {u v : List Move} {x : Move}
    (h : m.Executes (u ++ x :: v)) : x.toss.isSome ↔ x.instruction = .toss :=
  (executes_append.1 h).2.1.toss

end Machine

end Actors

end Interleaving
