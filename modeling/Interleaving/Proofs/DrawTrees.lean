import Mathlib.Tactic
import Interleaving.Level.Draws

/-!
# Trees of drawn truth values

In depth-first mode a level goes through the truth values that are drawn there. Whether the program
draws another one may hang on all that it drew before, so what it may draw is a binary tree. The
program draws along the tree until it comes to a leaf, then the level goes on to the next
combination, and so on until there is none. Each leaf is met once, and in the order in which false
comes before true.

## Main definitions

* `DrawTree` — a program that draws truth values.
* `DrawTree.drawAlong` — one way through a tree.
* `DrawTree.enumerate` — one after another, as the level goes on.
* `DrawTree.Leaf`, `DrawTree.leaves` — the leaves of a tree.

## Main statements

* `DrawTree.enumerate_subtree` — a subtree is gone through before the value above it changes.
* `DrawTree.enumerate_exactly_once` — all leaves are met once and in order.
-/

namespace Interleaving

/-- A program that draws truth values: it is done, or it draws one and goes on as the value says. -/
inductive DrawTree where
  | done
  | draw (onFalse onTrue : DrawTree)

namespace DrawTree

/-- Draws at a level until the program is done. Gives the values drawn. -/
def drawAlong : DrawTree → Level → Except Fault (List Bool × Level)
  | done, l => .ok ([], l)
  | draw onFalse onTrue, l => do
    let (v, l, _) ← l.draw .bool 2 none
    let (path, l) ← if v == 1 then onTrue.drawAlong l else onFalse.drawAlong l
    return ((v == 1) :: path, l)

/-- Draws along the tree, and again for as long as the level goes on to another combination, but no
more than `rounds` times. Gives the values drawn each time. -/
def enumerate (tree : DrawTree) : Nat → Level → Except Fault (Option (List (List Bool) × Level))
  | 0, _ => .ok none
  | rounds + 1, l => do
    let (path, l) ← tree.drawAlong l
    match l.flipDraws with
    | (_, .error fault) => .error fault
    | (l, .ok false) => return some ([path], l)
    | (l, .ok true) => return (← tree.enumerate rounds l).map fun (paths, l) => (path :: paths, l)

/-! ## Leaves -/

/-- The values that lead from the root of a tree to a leaf. -/
inductive Leaf : DrawTree → List Bool → Prop
  | done : Leaf done []
  | onFalse {onFalse onTrue : DrawTree} {path : List Bool} :
      Leaf onFalse path → Leaf (draw onFalse onTrue) (false :: path)
  | onTrue {onFalse onTrue : DrawTree} {path : List Bool} :
      Leaf onTrue path → Leaf (draw onFalse onTrue) (true :: path)

/-- All of them, false coming before true. -/
def leaves : DrawTree → List (List Bool)
  | done => [[]]
  | draw onFalse onTrue => onFalse.leaves.map (false :: ·) ++ onTrue.leaves.map (true :: ·)

theorem mem_leaves {tree : DrawTree} {path : List Bool} : path ∈ tree.leaves ↔ tree.Leaf path := by
  induction tree generalizing path with
  | done =>
    constructor
    · intro h
      obtain rfl := List.mem_singleton.1 h
      exact .done
    · rintro ⟨⟩
      exact List.mem_singleton.2 rfl
  | draw onFalse onTrue ihf iht =>
    simp only [leaves, List.mem_append, List.mem_map, ihf, iht]
    constructor
    · rintro (⟨rest, h, rfl⟩ | ⟨rest, h, rfl⟩)
      · exact .onFalse h
      · exact .onTrue h
    · intro h
      cases h with
      | onFalse h => exact .inl ⟨_, h, rfl⟩
      | onTrue h => exact .inr ⟨_, h, rfl⟩

theorem pairwise_leaves (tree : DrawTree) : tree.leaves.Pairwise (· < ·) := by
  induction tree with
  | done => exact List.pairwise_singleton _ _
  | draw onFalse onTrue ihf iht =>
    refine List.pairwise_append.2 ⟨?_, ?_, ?_⟩
    · exact List.pairwise_map.2 (ihf.imp fun h => List.cons_lt_cons_self.2 h)
    · exact List.pairwise_map.2 (iht.imp fun h => List.cons_lt_cons_self.2 h)
    · rintro _ hp _ hq
      obtain ⟨p, -, rfl⟩ := List.mem_map.1 hp
      obtain ⟨q, -, rfl⟩ := List.mem_map.1 hq
      exact List.cons_lt_cons_iff.2 (.inl rfl)

/-- The leaf that is reached if all values are false. -/
def first : DrawTree → List Bool
  | done => []
  | draw onFalse _ => false :: onFalse.first

/-- What is left of the program once a value was drawn. -/
def child? : DrawTree → Bool → Option DrawTree
  | done, _ => none
  | draw onFalse onTrue, b => some (if b then onTrue else onFalse)

/-- The subtree that some values lead to. -/
def subtree? (tree : DrawTree) : List Bool → Option DrawTree
  | [] => some tree
  | b :: path => (tree.child? b).bind (·.subtree? path)

theorem subtree?_append {tree sub : DrawTree} {path : List Bool} (h : tree.subtree? path = some sub)
    (rest : List Bool) : tree.subtree? (path ++ rest) = sub.subtree? rest := by
  induction path generalizing tree with
  | nil =>
    obtain rfl := Option.some.inj h
    rfl
  | cons b path ih =>
    obtain ⟨child, hchild, hpath⟩ := Option.bind_eq_some_iff.1 h
    simpa [subtree?, hchild] using ih hpath

end DrawTree

/-! ## The draws of a level -/

namespace Level

/-- The level with some truth values drawn, of which so many were replayed. -/
def drawn (l : Level) (values : List Bool) (cursor : Nat) : Level :=
  { l with draws := values.map Draw.ofBool, cursor }

variable {l : Level} {values rest : List Bool} {b : Bool}

/-- A value that was drawn before is replayed. -/
theorem draw_drawn_replay :
    (l.drawn (values ++ b :: rest) values.length).draw .bool 2 none =
      .ok (b.toNat, l.drawn (values ++ b :: rest) (values.length + 1), none) := by
  simp only [draw, drawn]
  simp [Draw.ofBool]

/-- A value that was not drawn before is false. -/
theorem draw_drawn_fresh :
    (l.drawn values values.length).draw .bool 2 none =
      .ok (0, l.drawn (values ++ [false]) (values.length + 1), none) := by
  have hzero : fresh .bool 2 none = (0, none) := rfl
  simp only [draw, drawn]
  simp [hzero, record, Draw.ofBool]

theorem flipDraws_drawn_false {cursor : Nat} (h : cursor = values.length + 1) :
    (l.drawn (values ++ [false]) cursor).flipDraws = (l.drawn (values ++ [true]) 0, .ok true) := by
  simp [flipDraws, drawn, flipLast, Draw.ofBool, h]

/-- A true value at the end is dropped. -/
theorem flipDraws_drawn_true {cursor : Nat} (h : cursor = values.length + 1) :
    (l.drawn (values ++ [true]) cursor).flipDraws =
      (l.drawn values values.length).flipDraws := by
  simp [flipDraws, drawn, flipLast, Draw.ofBool, h]

theorem flipDraws_drawn_nil : (l.drawn [] 0).flipDraws = (l.drawn [] 0, .ok false) := rfl

end Level

namespace DrawTree

variable {tree sub : DrawTree} {l : Level} {path : List Bool}

/-- One value is drawn, and then those of the subtree that it leads to. -/
theorem drawAlong_of_draw {b : Bool} {child : DrawTree} {l' l'' : Level}
    (hdraw : l.draw .bool 2 none = .ok (b.toNat, l', none)) (hchild : tree.child? b = some child)
    (hrest : child.drawAlong l' = .ok (path, l'')) : tree.drawAlong l = .ok (b :: path, l'') := by
  cases tree with
  | done => simp [child?] at hchild
  | draw onFalse onTrue =>
    obtain rfl := Option.some.inj hchild
    cases b <;>
      simp only [Bool.false_eq_true, if_true, if_false] at hrest <;>
      simp [drawAlong, hdraw, hrest, bind, Except.bind, pure, Except.pure]

/-- What was drawn before leads to a subtree, in which all values are false then. -/
theorem drawAlong_drawn (l : Level) (values : List Bool) (h : tree.subtree? path = some sub) :
    tree.drawAlong (l.drawn (values ++ path) values.length) =
      .ok (path ++ sub.first,
        l.drawn (values ++ path ++ sub.first) (values ++ path ++ sub.first).length) := by
  induction tree generalizing path values sub with
  | done =>
    cases path with
    | nil =>
      obtain rfl := Option.some.inj h
      simp [drawAlong, first]
    | cons b path => simp [subtree?, child?] at h
  | draw onFalse onTrue ihf iht =>
    cases path with
    | nil =>
      obtain rfl := Option.some.inj h
      have hrest := @ihf onFalse [] (values ++ [false]) rfl
      rw [List.append_nil, List.length_append, List.length_singleton] at hrest
      rw [List.append_nil]
      simpa [first] using drawAlong_of_draw (b := false) Level.draw_drawn_fresh rfl hrest
    | cons b path =>
      obtain ⟨child, hchild, hpath⟩ := Option.bind_eq_some_iff.1 h
      have hrest : child.drawAlong (l.drawn (values ++ b :: path) (values.length + 1)) =
          .ok (path ++ sub.first, l.drawn (values ++ b :: path ++ sub.first)
            (values ++ b :: path ++ sub.first).length) := by
        rw [List.append_cons]
        cases b with
        | false =>
          obtain rfl := Option.some.inj hchild
          simpa using ihf (values ++ [false]) hpath
        | true =>
          obtain rfl := Option.some.inj hchild
          simpa using iht (values ++ [true]) hpath
      exact drawAlong_of_draw Level.draw_drawn_replay hchild hrest

/-- What is done after a way through the tree: the next one, if there is another combination. -/
def goOn (tree : DrawTree) (rounds : Nat) (l : Level) :
    Except Fault (Option (List (List Bool) × Level)) :=
  match l.flipDraws with
  | (_, .error fault) => .error fault
  | (l, .ok false) => .ok (some ([], l))
  | (l, .ok true) => tree.enumerate rounds l

/-- The same ways after some others. -/
def behind (paths : List (List Bool)) (r : Except Fault (Option (List (List Bool) × Level))) :
    Except Fault (Option (List (List Bool) × Level)) :=
  r.map (·.map fun (more, l) => (paths ++ more, l))

theorem behind_append (paths more : List (List Bool))
    (r : Except Fault (Option (List (List Bool) × Level))) :
    behind (paths ++ more) r = behind paths (behind more r) := by
  rcases r with fault | _ | ⟨rest, l⟩ <;> simp [behind, Except.map]

theorem enumerate_succ {l' : Level} (h : tree.drawAlong l = .ok (path, l')) (rounds : Nat) :
    tree.enumerate (rounds + 1) l = behind [path] (tree.goOn rounds l') := by
  simp only [enumerate, h, goOn, bind, Except.bind, pure, Except.pure]
  rcases l'.flipDraws with ⟨m, fault | _ | _⟩
  · rfl
  · rfl
  · simp only
    rcases tree.enumerate rounds m with fault | _ | ⟨paths, l⟩ <;> rfl

/-- From the values on that lead to a subtree, its leaves are met, and then it goes on as if the
subtree were a leaf. -/
theorem enumerate_subtree (l : Level) (h : tree.subtree? path = some sub) (rounds : Nat) :
    tree.enumerate (sub.leaves.length + rounds) (l.drawn path 0) =
      behind (sub.leaves.map (path ++ ·)) (tree.goOn rounds (l.drawn path path.length)) := by
  induction sub generalizing path rounds with
  | done =>
    have hpath := drawAlong_drawn l [] h
    simp only [first, List.append_nil, List.nil_append, List.length_nil] at hpath
    rw [leaves, List.length_singleton, Nat.add_comm, enumerate_succ hpath]
    simp
  | draw onFalse onTrue ihf iht =>
    have hfalse : tree.subtree? (path ++ [false]) = some onFalse := by
      rw [subtree?_append h]
      rfl
    have htrue : tree.subtree? (path ++ [true]) = some onTrue := by
      rw [subtree?_append h]
      rfl
    -- the first value of the subtree may as well have been drawn before
    have hsame :
        tree.drawAlong (l.drawn path 0) = tree.drawAlong (l.drawn (path ++ [false]) 0) := by
      have h₁ := drawAlong_drawn l [] h
      have h₂ := drawAlong_drawn l [] hfalse
      simp only [first, List.nil_append, List.length_nil, List.append_assoc,
        List.singleton_append] at h₁ h₂
      exact h₁.trans h₂.symm
    have hstart (n : Nat) : tree.enumerate n (l.drawn path 0) =
        tree.enumerate n (l.drawn (path ++ [false]) 0) := by
      cases n with
      | zero => rfl
      | succ n => simp only [enumerate, hsame]
    have hflip : tree.goOn (onTrue.leaves.length + rounds)
        (l.drawn (path ++ [false]) (path ++ [false]).length) =
          tree.enumerate (onTrue.leaves.length + rounds) (l.drawn (path ++ [true]) 0) := by
      rw [goOn, Level.flipDraws_drawn_false (by simp)]
    have hdrop : tree.goOn rounds (l.drawn (path ++ [true]) (path ++ [true]).length) =
        tree.goOn rounds (l.drawn path path.length) := by
      rw [goOn, Level.flipDraws_drawn_true (by simp), goOn]
    calc tree.enumerate ((draw onFalse onTrue).leaves.length + rounds) (l.drawn path 0)
        = tree.enumerate (onFalse.leaves.length + (onTrue.leaves.length + rounds))
            (l.drawn (path ++ [false]) 0) := by
          rw [hstart]
          simp [leaves, Nat.add_assoc]
      _ = behind (onFalse.leaves.map (path ++ [false] ++ ·))
            (behind (onTrue.leaves.map (path ++ [true] ++ ·))
              (tree.goOn rounds (l.drawn path path.length))) := by
          rw [ihf hfalse, hflip, iht htrue, hdrop]
      _ = behind ((draw onFalse onTrue).leaves.map (path ++ ·))
            (tree.goOn rounds (l.drawn path path.length)) := by
          rw [← behind_append]
          simp [leaves, Function.comp_def]

/-- From a level on at which nothing was drawn, the leaves of a tree are met each exactly once, in
the order in which false comes before true. No draw and no step to the next combination fails, and
in the end nothing is drawn at the level again. -/
theorem enumerate_exactly_once (tree : DrawTree) {l : Level} (undrawn : l.draws = [])
    (cursor : l.cursor ≤ l.draws.length) :
    ∃ paths : List (List Bool), (∀ rounds, paths.length ≤ rounds →
        tree.enumerate rounds l = .ok (some (paths, { l with draws := [], cursor := 0 }))) ∧
      paths.Pairwise (· < ·) ∧ ∀ path, path ∈ paths ↔ tree.Leaf path := by
  refine ⟨tree.leaves, fun rounds hrounds => ?_, tree.pairwise_leaves, fun path => mem_leaves⟩
  obtain ⟨more, rfl⟩ := Nat.exists_eq_add_of_le hrounds
  have hstart : l = l.drawn [] 0 := by
    have hzero : l.cursor = 0 := by simpa [undrawn] using cursor
    rw [Level.drawn, List.map_nil, ← undrawn, ← hzero]
  have hall := enumerate_subtree l (show tree.subtree? [] = some tree from rfl) more
  rw [← hstart] at hall
  rw [hall, goOn, List.length_nil, Level.flipDraws_drawn_nil]
  simp [behind, Except.map, Level.drawn]

/-- A second value is drawn only if the first one is false. -/
def lopsided : DrawTree := .draw (.draw .done .done) .done

/-- A level at which the only thread runs, and drew nothing yet. -/
def undrawn : Level where
  step := 1
  entries := [⟨⟨0, true, .yield, .thread, none, none⟩, false, true⟩]
  selected := some 0

/-- The leaves of this tree are met at this level. -/
theorem enumerate_lopsided_exactly_once :
    undrawn.draws = [] ∧ ∃ paths : List (List Bool), (∀ rounds, paths.length ≤ rounds →
        lopsided.enumerate rounds undrawn =
          .ok (some (paths, { undrawn with draws := [], cursor := 0 }))) ∧
      paths.Pairwise (· < ·) ∧ ∀ path, path ∈ paths ↔ lopsided.Leaf path :=
  ⟨rfl, lopsided.enumerate_exactly_once rfl le_rfl⟩

example : lopsided.enumerate 3 undrawn =
    .ok (some ([[false, false], [false, true], [true]], undrawn)) := by rfl

end DrawTree

end Interleaving
