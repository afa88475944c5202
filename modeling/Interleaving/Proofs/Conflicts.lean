import Interleaving.Proofs.Nodes
import Interleaving.Proofs.Shuffles
import Interleaving.Proofs.Walking

/-!
# Conflicts in runs of free scripts

Two moves of free scripts are tied if one actor makes them or both send to one inbox. The steps of
a run are ordered by chains of tied moves. Runs in which every actor makes the same moves and every
inbox gets the same sends have the same conflicts, even if the moves stand in another order.

## Main definitions

* `trace` — the steps of a run.
* `Matching` — runs that agree on every actor and every inbox.
* `cone` — the moves that come after others by chains.

## Main statements

* `mem_cone_of_reaches` — what a step reaches is in its cone.
* `Matching.thread_ne_of_mem_cone` — a cone keeps clear of what can be made before it.
* `races_of_cone` — two sends to one inbox race if the first one's cone keeps clear of the second.
-/

namespace Interleaving

namespace Actors

/-- The steps of a run as the analysis sees them. -/
def trace (xs : List Move) : Trace := xs.map Move.operation

/-- One actor makes the moves, or both are sends to one inbox. -/
def Move.tied (x y : Move) : Bool :=
  x.thread == y.thread || match x.instruction with
    | .send inbox => y.sends inbox
    | _ => false

theorem Move.tied_iff {x y : Move} : x.tied y ↔ x.thread = y.thread ∨
    ∃ inbox, x.instruction = .send inbox ∧ y.instruction = .send inbox := by
  unfold tied
  cases hx : x.instruction <;> simp [Move.sends_iff]

theorem Move.tied_of_thread {x y : Move} (h : x.thread = y.thread) : x.tied y :=
  tied_iff.2 (.inl h)

theorem Move.tied_of_sends {x y : Move} {inbox : Nat} (hx : x.instruction = .send inbox)
    (hy : y.instruction = .send inbox) : x.tied y :=
  tied_iff.2 (.inr ⟨inbox, hx, hy⟩)

/-! ## The order of the steps of a run -/

section Trace

variable {xs : List Move} {x y : Move} {i j : Nat}

theorem Move.thread_operation (x : Move) : x.operation.thread = x.thread :=
  Machine.thread_pending ..

theorem Move.operation_of_send {inbox : Nat} (h : x.instruction = .send inbox) :
    x.operation.op = .send ∧ x.operation.target = some inbox := by
  simp [operation, Machine.pending, h]

theorem Move.send_of_operation {inbox : Nat} (free : x.instruction.free)
    (hop : x.operation.op = .send) (htarget : x.operation.target = some inbox) :
    x.instruction = .send inbox := by
  cases hi : x.instruction <;>
    simp [operation, Machine.pending, hi, Instruction.free] at free hop htarget ⊢
  exact htarget

theorem Move.target_of_isLifecycle (free : x.instruction.free)
    (hop : x.operation.op.isLifecycle) : x.operation.target = some x.thread := by
  cases hi : x.instruction <;>
    simp [operation, Machine.pending, hi, Instruction.free, Operation.isLifecycle] at free hop ⊢

theorem Move.op_of_free (free : x.instruction.free) : x.operation.op ≠ .receive ∧
    x.operation.op ≠ .quiesce ∧ x.operation.op ≠ .create := by
  cases hi : x.instruction <;> simp [operation, Machine.pending, hi, Instruction.free] at free ⊢

theorem stepAt_trace (xs : List Move) (k : Nat) :
    (trace xs).stepAt (k + 1) = xs[k]?.map Move.operation := by
  simp [Trace.stepAt, trace]

theorem exists_of_stepAt {k : Nat} {p : Pending} (h : (trace xs).stepAt (k + 1) = some p) :
    ∃ x, xs[k]? = some x ∧ x.operation = p := by
  rw [stepAt_trace, Option.map_eq_some_iff] at h
  exact h

theorem ran_trace {k : Nat} {t : ThreadId} :
    (trace xs).Ran t (k + 1) ↔ ∃ x, xs[k]? = some x ∧ x.thread = t := by
  constructor
  · rintro ⟨p, hp, rfl⟩
    obtain ⟨x, hx, rfl⟩ := exists_of_stepAt hp
    exact ⟨x, hx, x.thread_operation.symm⟩
  · rintro ⟨x, hx, rfl⟩
    exact ⟨x.operation, by rw [stepAt_trace, hx, Option.map_some], x.thread_operation⟩

/-- The steps of a run are linked if their moves are tied. -/
theorem linked_trace (free : ∀ x ∈ xs, x.instruction.free) (hx : xs[i]? = some x)
    (hy : xs[j]? = some y) : (trace xs).Linked (i + 1) (j + 1) ↔ i < j ∧ x.tied y := by
  have hstep {k : Nat} {z : Move} (hz : xs[k]? = some z) :
      (trace xs).stepAt (k + 1) = some z.operation := by
    rw [stepAt_trace, hz, Option.map_some]
  have heq {k : Nat} {z : Move} (hz : xs[k]? = some z) {p : Pending}
      (hp : (trace xs).stepAt (k + 1) = some p) : z.operation = p := by
    simpa [hstep hz] using hp
  have hfree {k : Nat} {z : Move} (hz : xs[k]? = some z) : z.instruction.free :=
    free z (List.mem_of_getElem? hz)
  constructor
  · rintro ⟨hlt, ⟨t, hi, hj⟩ | ⟨inbox, ⟨p, hp, hop, htarget⟩, q, hq, hop', htarget'⟩ |
      ⟨target, ⟨p, hp, hop, htarget⟩, q, hq, hop', htarget'⟩ | ⟨q, hq, hop, -⟩⟩
    · obtain ⟨x', hx', rfl⟩ := ran_trace.1 hi
      obtain ⟨y', hy', hthread⟩ := ran_trace.1 hj
      obtain rfl : x = x' := by simpa [hx] using hx'
      obtain rfl : y = y' := by simpa [hy] using hy'
      exact ⟨by omega, Move.tied_of_thread hthread.symm⟩
    · obtain rfl := heq hx hp
      obtain rfl := heq hy hq
      exact ⟨by omega, Move.tied_of_sends (Move.send_of_operation (hfree hx) hop htarget)
        (Move.send_of_operation (hfree hy) hop' htarget')⟩
    · obtain rfl := heq hx hp
      obtain rfl := heq hy hq
      rw [Move.target_of_isLifecycle (hfree hx) hop] at htarget
      rw [Move.target_of_isLifecycle (hfree hy) hop'] at htarget'
      exact ⟨by omega, Move.tied_of_thread (Option.some.inj (htarget.trans htarget'.symm))⟩
    · obtain rfl := heq hy hq
      exact absurd hop (Move.op_of_free (hfree hy)).1
  · rintro ⟨hlt, htied⟩
    refine ⟨by omega, ?_⟩
    rcases Move.tied_iff.1 htied with hthread | ⟨inbox, hxi, hyi⟩
    · exact .inl ⟨x.thread, ran_trace.2 ⟨x, hx, rfl⟩, ran_trace.2 ⟨y, hy, hthread.symm⟩⟩
    · exact .inr (.inl ⟨inbox, ⟨_, hstep hx, Move.operation_of_send hxi⟩,
        ⟨_, hstep hy, Move.operation_of_send hyi⟩⟩)

end Trace

/-! ## Cones -/

/-- Of the moves `c` and those of a run after them: the moves that come after one of `c` by a chain
of tied moves. -/
def cone (c : List Move) : List Move → List Move
  | [] => c
  | y :: ys => if c.any (·.tied y) then cone (c ++ [y]) ys else cone c ys

theorem cone_append (c ys zs : List Move) : cone c (ys ++ zs) = cone (cone c ys) zs := by
  induction ys generalizing c with
  | nil => rfl
  | cons y ys ih =>
    simp only [List.cons_append, cone]
    split <;> exact ih _

theorem subset_cone (c ys : List Move) : c ⊆ cone c ys := by
  induction ys generalizing c with
  | nil => exact List.Subset.refl _
  | cons y ys ih =>
    simp only [cone]
    split
    · exact fun x hx => ih _ (List.mem_append_left _ hx)
    · exact ih c

theorem mem_or_mem_of_mem_cone {c ys : List Move} {x : Move} (h : x ∈ cone c ys) :
    x ∈ c ∨ x ∈ ys := by
  induction ys generalizing c with
  | nil => exact .inl h
  | cons y ys ih =>
    simp only [cone] at h
    split at h
    · rcases ih h with h | h
      · rcases List.mem_append.1 h with h | h
        · exact .inl h
        · exact .inr (List.mem_cons.2 (.inl (List.mem_singleton.1 h)))
      · exact .inr (List.mem_cons_of_mem y h)
    · exact (ih h).imp_right (List.mem_cons_of_mem y)

theorem mem_cone_snoc {c ys : List Move} {x y : Move} (hx : x ∈ cone c ys) (h : x.tied y) :
    y ∈ cone c (ys ++ [y]) := by
  have hany : (cone c ys).any (·.tied y) := List.any_eq_true.2 ⟨x, hx, h⟩
  simp [cone_append, cone, hany]

/-- A move that is tied to none before it does not matter to a cone. -/
theorem cone_skip {c ys zs : List Move} {y : Move} (hc : ∀ x ∈ c, ¬ x.tied y)
    (hys : ∀ x ∈ ys, ¬ x.tied y) : cone c (ys ++ y :: zs) = cone c (ys ++ zs) := by
  have hany : ¬ (cone c ys).any (·.tied y) := by
    rw [List.any_eq_true]
    rintro ⟨x, hx, htied⟩
    rcases mem_or_mem_of_mem_cone hx with hx | hx
    · exact hc x hx htied
    · exact hys x hx htied
  rw [cone_append, cone_append, cone, if_neg hany]

theorem getElem?_behind (pre z : List Move) (x : Move) (j : Nat) :
    (pre ++ x :: z)[pre.length + 1 + j]? = z[j]? := by
  rw [List.getElem?_append_right (by omega),
    show pre.length + 1 + j - pre.length = j + 1 by omega, List.getElem?_cons_succ]

/-- What a step reaches is in the cone of its move. -/
theorem mem_cone_of_reaches {pre z : List Move} {x y : Move}
    (free : ∀ y ∈ pre ++ x :: z, y.instruction.free) {j : Nat} (hy : z[j]? = some y)
    (h : (trace (pre ++ x :: z)).Reaches (pre.length + 1) (pre.length + 2 + j)) :
    y ∈ cone [x] (z.take (j + 1)) := by
  induction j using Nat.strong_induction_on generalizing y with
  | h j ih =>
    have hx : (pre ++ x :: z)[pre.length]? = some x := by simp
    have hz {k : Nat} {y : Move} (hy : z[k]? = some y) :
        (pre ++ x :: z)[pre.length + 1 + k]? = some y := by rw [getElem?_behind, hy]
    have htake : z.take (j + 1) = z.take j ++ [y] := by
      obtain ⟨hlt, rfl⟩ := List.getElem?_eq_some_iff.1 hy
      exact (List.take_append_getElem hlt).symm
    rw [htake]
    rcases Relation.ReflTransGen.cases_tail h with heq | ⟨k, hk, hl⟩
    · omega
    · have hle := Trace.Reaches.le hk
      have hlt := hl.1
      obtain ⟨n, rfl⟩ : ∃ n, k = n + 1 := ⟨k - 1, by omega⟩
      rcases Nat.lt_or_ge pre.length n with hn | hn
      · -- the step before is one of the moves behind `x`
        obtain ⟨i, rfl⟩ : ∃ i, n = pre.length + 1 + i := ⟨n - pre.length - 1, by omega⟩
        have hij : i < j := by omega
        have hjz := (List.getElem?_eq_some_iff.1 hy).1
        have hi : z[i]? = some z[i] := List.getElem?_eq_getElem (by omega)
        have hmem := ih i hij hi
          (by rwa [show pre.length + 2 + i = pre.length + 1 + i + 1 by omega])
        have htied := ((linked_trace free (hz hi) (hz hy)).1
          (by rwa [show pre.length + 1 + j + 1 = pre.length + 2 + j by omega])).2
        refine mem_cone_snoc ?_ htied
        rw [← List.take_append_drop (i + 1) (z.take j), List.take_take, Nat.min_eq_left hij,
          cone_append]
        exact subset_cone _ _ hmem
      · obtain rfl : n = pre.length := by omega
        have htied := ((linked_trace free hx (hz hy)).1
          (by rwa [show pre.length + 1 + j + 1 = pre.length + 2 + j by omega])).2
        exact mem_cone_snoc (subset_cone _ _ (List.mem_singleton.2 rfl)) htied

/-! ## Runs that match -/

/-- The runs agree on the moves of every actor and on the sends to every inbox. -/
structure Matching (xs ys : List Move) : Prop where
  moves : ∀ t, movesOf t xs = movesOf t ys
  sends : ∀ inbox, sendsTo inbox xs = sendsTo inbox ys

theorem Machine.Equivalent.matching {m : Machine} {xs ys : List Move} (h : m.Equivalent xs ys) :
    Matching xs ys :=
  ⟨h.movesOf_eq, h.sendsTo_eq⟩

namespace Matching

variable {xs ys zs : List Move} {x : Move}

theorem symm (h : Matching xs ys) : Matching ys xs :=
  ⟨fun t => (h.moves t).symm, fun inbox => (h.sends inbox).symm⟩

theorem of_append (h : Matching (zs ++ xs) (zs ++ ys)) : Matching xs ys := by
  refine ⟨fun t => ?_, fun inbox => ?_⟩
  · have := h.moves t
    rwa [movesOf_append, movesOf_append, List.append_cancel_left_eq] at this
  · have := h.sends inbox
    rwa [sendsTo_append, sendsTo_append, List.append_cancel_left_eq] at this

/-- What two lists have in common is left when the same item is taken from both. -/
theorem filter_of_front {f : Move → Bool} {u v : List Move}
    (h : (u ++ x :: v).filter f = (x :: xs).filter f) (hu : f x → ∀ y ∈ u, ¬ f y) :
    (u ++ v).filter f = xs.filter f := by
  by_cases hx : f x
  · have hnil : u.filter f = [] := List.filter_eq_nil_iff.2 (hu hx)
    simpa [List.filter_append, hnil, hx] using h
  · simpa [List.filter_append, hx] using h

/-- The move that a run begins with stands behind untied moves in a run that matches. -/
theorem exists_front (h : Matching zs (x :: xs)) : ∃ u v, zs = u ++ x :: v ∧
    (∀ y ∈ u, ¬ y.tied x) ∧ Matching (u ++ v) xs := by
  have hmoves := h.moves x.thread
  rw [movesOf_cons_self, movesOf, List.filter_eq_cons_iff] at hmoves
  obtain ⟨u, v, rfl, hu, -, -⟩ := hmoves
  simp only [beq_iff_eq] at hu
  have untied : ∀ y ∈ u, ¬ y.tied x := by
    intro y hy htied
    rcases Move.tied_iff.1 htied with hthread | ⟨inbox, hyi, hxi⟩
    · exact hu y hy hthread
    · -- the first send to the inbox is one of `u` there, and `x` here
      have hsends := h.sends inbox
      have hx : sendsTo inbox (x :: xs) = x :: sendsTo inbox xs :=
        sendsTo_first (u := []) hxi (by simp)
      rw [sendsTo_append, hx] at hsends
      cases hfirst : sendsTo inbox u with
      | nil =>
        have := mem_sendsTo.2 ⟨hy, hyi⟩
        simp [hfirst] at this
      | cons y' rest =>
        rw [hfirst] at hsends
        obtain ⟨rfl, -⟩ := List.cons.inj hsends
        have hmem : y' ∈ sendsTo inbox u := by simp [hfirst]
        exact hu y' (mem_sendsTo.1 hmem).1 rfl
  refine ⟨u, v, rfl, untied, fun t => filter_of_front (h.moves t) ?_,
    fun inbox => filter_of_front (h.sends inbox) ?_⟩
  · simp only [beq_iff_eq]
    rintro rfl
    exact hu
  · intro hx y hy hyi
    exact untied y hy (Move.tied_of_sends (Move.sends_iff.1 hyi) (Move.sends_iff.1 hx))

/-- A run begins with moves that are not tied to `x`, and with the first send `e` to an inbox. In a
run that matches, the cone of `x` does not come to the actor of `e` before that send. -/
theorem thread_ne_of_mem_cone {e : Move} {inbox : Nat} {p r : List Move}
    (he : e.instruction = .send inbox) (hp : ∀ y ∈ p, y.instruction ≠ .send inbox)
    (hx : ∀ y ∈ p, ¬ x.tied y) (hxe : x.thread ≠ e.thread) :
    ∀ {z₀ z₁ : List Move}, Matching (z₀ ++ e :: z₁) (p ++ e :: r) →
      (∀ y ∈ z₀, y.instruction ≠ .send inbox) → ∀ y ∈ cone [x] z₀, y.thread ≠ e.thread := by
  induction p with
  | nil =>
    intro z₀ z₁ h hz y hy hthread
    obtain ⟨u, v, huv, hu, -⟩ := h.exists_front
    -- the front `e` is the first send to the inbox in both runs
    have hz₀ : ∀ y ∈ z₀, y.thread ≠ e.thread := by
      intro y hy hthread
      rcases List.append_eq_append_iff.1 huv with ⟨c, rfl, -⟩ | ⟨c, rfl, hc⟩
      · exact hu y (List.mem_append_left _ hy) (Move.tied_of_thread hthread)
      · cases c with
        | nil => exact hu y (by simpa using hy) (Move.tied_of_thread hthread)
        | cons c cs =>
          obtain ⟨rfl, -⟩ := List.cons.inj hc
          exact hz e (by simp) he
    rcases mem_or_mem_of_mem_cone hy with hy | hy
    · rw [List.mem_singleton.1 hy] at hthread
      exact hxe hthread
    · exact hz₀ y hy hthread
  | cons y p ih =>
    intro z₀ z₁ h hz
    have ih' {z₀ z₁ : List Move} := @ih (fun z hz => hp z (List.mem_cons_of_mem y hz))
      (fun z hz => hx z (List.mem_cons_of_mem y hz)) z₀ z₁
    have hyi := hp y List.mem_cons_self
    obtain ⟨u, v, huv, hu, hmatch⟩ := h.exists_front
    rcases List.append_eq_append_iff.1 huv with ⟨c, rfl, hc⟩ | ⟨c, rfl, hc⟩
    · -- `y` stands behind the send
      cases c with
      | nil =>
        obtain ⟨rfl, -⟩ := List.cons.inj hc
        exact absurd he hyi
      | cons c cs =>
        obtain ⟨rfl, -⟩ := List.cons.inj hc
        exact ih' (by simpa using hmatch) hz
    · cases c with
      | nil =>
        obtain ⟨rfl, -⟩ := List.cons.inj hc
        exact absurd he hyi
      | cons c cs =>
        obtain ⟨rfl, rfl⟩ := List.cons.inj hc
        rw [cone_skip (by simpa using hx y List.mem_cons_self) hu]
        refine @ih' (u ++ cs) z₁ (by simpa using hmatch) fun z hz' => hz z ?_
        rcases List.mem_append.1 hz' with hz' | hz'
        · exact List.mem_append_left _ hz'
        · exact List.mem_append_right _ (List.mem_cons_of_mem _ hz')

end Matching

/-- Two sends to one inbox race if there is none between them and the cone of the first one does
not come to the actor of the second one before that. -/
theorem races_of_cone {pre z₀ z₁ : List Move} {x e : Move} {inbox : Nat}
    (free : ∀ y ∈ pre ++ x :: (z₀ ++ e :: z₁), y.instruction.free)
    (hx : x.instruction = .send inbox) (he : e.instruction = .send inbox)
    (hz : ∀ y ∈ z₀, y.instruction ≠ .send inbox)
    (hcone : ∀ y ∈ cone [x] z₀, y.thread ≠ e.thread) :
    (trace (pre ++ x :: (z₀ ++ e :: z₁))).Races (pre.length + 1) (pre.length + 2 + z₀.length)
      x.operation e.operation := by
  have hstep (j : Nat) : (trace (pre ++ x :: (z₀ ++ e :: z₁))).stepAt (pre.length + 2 + j) =
      (z₀ ++ e :: z₁)[j]?.map Move.operation := by
    rw [show pre.length + 2 + j = pre.length + 1 + j + 1 by omega, stepAt_trace, getElem?_behind]
  have hxop := Move.operation_of_send hx
  have heop := Move.operation_of_send he
  refine ⟨by rw [stepAt_trace]; simp, by rw [hstep]; simp, by omega, ⟨hxop.1, heop.1⟩,
    ⟨inbox, hxop.2, heop.2, ?_⟩, ?_⟩
  · rintro k hak hkb ⟨p, hp, hop, htarget⟩
    obtain ⟨j, rfl⟩ : ∃ j, k = pre.length + 2 + j := ⟨k - (pre.length + 2), by omega⟩
    rw [hstep, List.getElem?_append_left (by omega), Option.map_eq_some_iff] at hp
    obtain ⟨y, hy, rfl⟩ := hp
    have hmem := List.mem_of_getElem? hy
    exact hz y hmem (Move.send_of_operation (free y (by simp [hmem])) hop htarget)
  · rintro k hkb ⟨p, hp, hthread⟩ hreach
    have hak := hreach.le
    rw [Move.thread_operation] at hthread
    rcases Nat.eq_or_lt_of_le hak with rfl | hlt
    · rw [stepAt_trace] at hp
      obtain rfl : x.operation = p := by simpa using hp
      rw [Move.thread_operation] at hthread
      exact hcone x (subset_cone _ _ (List.mem_singleton.2 rfl)) hthread
    · obtain ⟨j, rfl⟩ : ∃ j, k = pre.length + 2 + j := ⟨k - (pre.length + 2), by omega⟩
      have hj : j < z₀.length := by omega
      rw [hstep, Option.map_eq_some_iff] at hp
      obtain ⟨y, hy, rfl⟩ := hp
      rw [Move.thread_operation] at hthread
      have hmem := mem_cone_of_reaches free hy hreach
      rw [List.take_append_of_le_length (by omega)] at hmem
      refine hcone y ?_ hthread
      rw [← List.take_append_drop (j + 1) z₀, cone_append]
      exact subset_cone _ _ hmem

end Actors

end Interleaving
