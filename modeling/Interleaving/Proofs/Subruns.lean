import Interleaving.Proofs.Causality
import Interleaving.Proofs.Deeds

/-!
# Runs from which steps fall away

From a run of actors some steps may fall away, as long as all steps that need them fall away, too.
What is left is a run in which the same actors do the same. Those that are not created any more are
missing, so the others have other numbers. A receive may get another message, but there always is
one: the message that it got before is still sent, and has no more competitors than it had.

## Main definitions

* `rank` — the number of an actor when others are missing.
* `Machine.kept` — what is left of a run.
* `Mirrors` — how the two runs correspond.

## Main statements

* `Mirrors.step` — one more step.
* `mirrors_of_closed` — what is left of a run is a run.
-/

namespace Interleaving

namespace Actors

open Machine

/-! ## Numbers of actors -/

/-- The number of an actor when some are missing: so many that are not missing come before it. -/
def rank (missing : List Nat) (t : Nat) : Nat :=
  (List.range t).countP fun u => decide (u ∉ missing)

section Rank

variable {missing : List Nat} {t u : Nat}

theorem rank_succ (missing : List Nat) (t : Nat) :
    rank missing (t + 1) = rank missing t + if t ∈ missing then 0 else 1 := by
  by_cases h : t ∈ missing <;> simp [rank, List.range_succ, h]

@[simp] theorem rank_nil (t : Nat) : rank [] t = t := by simp [rank]

theorem rank_mono (h : t ≤ u) : rank missing t ≤ rank missing u := by
  induction h with
  | refl => exact le_rfl
  | step _ ih => exact ih.trans (by rw [rank_succ]; exact Nat.le_add_right _ _)

theorem rank_lt_rank (h : t < u) (ht : t ∉ missing) : rank missing t < rank missing u := by
  refine Nat.lt_of_lt_of_le ?_ (rank_mono h)
  rw [rank_succ, if_neg ht]
  exact Nat.lt_succ_self _

theorem rank_ne_rank (h : t ≠ u) (ht : t ∉ missing) (hu : u ∉ missing) :
    rank missing t ≠ rank missing u := by
  rcases Nat.lt_or_gt_of_ne h with hlt | hlt
  · exact Nat.ne_of_lt (rank_lt_rank hlt ht)
  · exact Nat.ne_of_gt (rank_lt_rank hlt hu)

/-- Missing actors do not change the numbers before theirs. -/
theorem rank_append_of_le {more : List Nat} (h : ∀ u ∈ more, t ≤ u) (missing : List Nat) :
    rank (missing ++ more) t = rank missing t := by
  refine List.countP_congr fun u hu => ?_
  have hmore : u ∉ more := fun hmem => Nat.not_lt.2 (h u hmem) (List.mem_range.1 hu)
  simp [hmore]

end Rank

/-! ## Lists with an item for each actor -/

/-- Two lists with an item for each actor: the items of those that are alive stand in both, in the
second one at the numbers that they have when some are missing. -/
structure Thinned {α : Type} (missing : List Nat) (Alive : Nat → Prop) (l l' : List α) :
    Prop where
  length : l'.length = rank missing l.length
  get : ∀ t < l.length, Alive t → l'[rank missing t]? = l[t]?

section Thinned

variable {α : Type} {missing : List Nat} {Alive : Nat → Prop} {l l' : List α} {t : Nat}

/-- An actor that is alive makes its move in both runs. -/
theorem Thinned.both (h : Thinned missing Alive l l') (present : ∀ u, Alive u → u ∉ missing)
    (halive : Alive t) (hfresh : ∀ u ∈ missing, u < l.length) (a : α)
    {new : List α} (hnew : new.length ≤ 1) :
    Thinned missing Alive (l.set t a ++ new) (l'.set (rank missing t) a ++ new) := by
  have hlast : l.length ∉ missing := fun hmem => Nat.lt_irrefl _ (hfresh _ hmem)
  refine ⟨?_, fun u hu hlive => ?_⟩
  · rw [List.length_append, List.length_append, List.length_set, List.length_set, h.length]
    obtain hzero | hone : new.length = 0 ∨ new.length = 1 := by omega
    · rw [hzero]
      rfl
    · rw [hone, rank_succ, if_neg hlast]
  · rcases Nat.lt_or_ge u l.length with hlt | hge
    · have hrank : rank missing u < l'.length := h.length ▸ rank_lt_rank hlt (present u hlive)
      rw [List.getElem?_append_left (by simpa using hrank),
        List.getElem?_append_left (by simpa using hlt)]
      by_cases hut : t = u
      · subst hut
        rw [List.getElem?_set_self hrank, List.getElem?_set_self hlt]
      · rw [List.getElem?_set_ne (rank_ne_rank hut (present t halive) (present u hlive)),
          List.getElem?_set_ne hut]
        exact h.get u hlt hlive
    · -- the actor that is created
      obtain rfl : u = l.length := by
        rw [List.length_append, List.length_set] at hu
        omega
      rw [List.getElem?_append_right (by simp [h.length]), List.getElem?_append_right (by simp)]
      simp [h.length]

theorem Thinned.mono {Alive' : Nat → Prop} (h : Thinned missing Alive l l')
    (halive : ∀ t, Alive' t → Alive t) : Thinned missing Alive' l l' :=
  ⟨h.length, fun t ht hlive => h.get t ht (halive t hlive)⟩

/-- An actor makes its move in the first run only. From then on it is not alive, and whom it creates
is missing. -/
theorem Thinned.first (h : Thinned missing Alive l l') {Alive' : Nat → Prop} (a : α)
    {new : List α} (hnew : new.length ≤ 1)
    (halive : ∀ u, Alive' u → (u < l.length → Alive u ∧ u ≠ t) ∧ (new ≠ [] → u ≠ l.length)) :
    Thinned (missing ++ new.map fun _ => l.length) Alive' (l.set t a ++ new) l' := by
  have hrank {u : Nat} (hu : u ≤ l.length) :
      rank (missing ++ new.map fun _ => l.length) u = rank missing u :=
    rank_append_of_le (fun v hv => by
      obtain ⟨_, -, rfl⟩ := List.mem_map.1 hv
      exact hu) missing
  refine ⟨?_, fun u hu hlive => ?_⟩
  · rw [List.length_append, List.length_set, h.length]
    cases new with
    | nil => simp
    | cons b new =>
      obtain rfl : new = [] := List.length_eq_zero_iff.1 (by simpa using hnew)
      rw [List.length_singleton, rank_succ, hrank le_rfl, if_pos (by simp)]
      rfl
  · obtain ⟨hold, hnew'⟩ := halive u hlive
    have hlt : u < l.length := by
      by_contra hge
      rw [List.length_append, List.length_set] at hu
      refine hnew' ?_ (by omega)
      rintro rfl
      simp at hu
      exact hge hu
    obtain ⟨hlive, hne⟩ := hold hlt
    rw [hrank (Nat.le_of_lt hlt), List.getElem?_append_left (by simpa using hlt),
      List.getElem?_set_ne (Ne.symm hne)]
    exact h.get u hlt hlive

end Thinned

/-! ## Messages -/

/-- The messages under way after a move. -/
theorem Machine.Can.messages_move {m : Machine} {x : Move} (h : m.Can x) (orderly : m.Orderly) :
    (m.move x).messages = match x.instruction with
      | .send inbox => m.messages ++ [⟨inbox, m.order.length + 1, x.thread⟩]
      | .receive inbox => m.messages.eraseP (·.inbox == inbox)
      | _ => m.messages := by
  obtain ⟨rest, hnext, henabled⟩ := h.next
  have hordinary := orderly.ordinary_next hnext
  have hmove : (m.move x).messages = (m.step x.thread (m.order.length + 1)).messages := by
    unfold move
    split <;> rfl
  rw [hmove]
  simp only [step, hnext]
  cases hi : x.instruction with
  | receive inbox =>
    simp only [hi, pending] at henabled
    simp only [effect]
    cases hfront : Machine.front? _ inbox with
    | none => simp [show m.front? inbox = none from hfront] at henabled
    | some message => rfl
  | _ => simp [hi, effect, Instruction.ordinary] at hordinary ⊢

/-- The first item with a property is erased, so there is one item less with another property if it
has that one, too. -/
theorem countP_eraseP_of_find? {α : Type} {f p : α → Bool} {l : List α} {a : α}
    (h : l.find? f = some a) : (l.eraseP f).countP p + (if p a then 1 else 0) = l.countP p := by
  induction l with
  | nil => simp at h
  | cons b l ih =>
    by_cases hb : f b
    · obtain rfl : b = a := by simpa [hb] using h
      simp [hb, List.countP_cons]
    · rw [List.find?_cons_of_neg hb] at h
      rw [List.eraseP_cons_of_neg hb, List.countP_cons, List.countP_cons, ← ih h]
      omega

/-! ## What is left of a run -/

namespace Machine

variable (m : Machine) (falls : Step → Bool) (xs : List Move)

/-- The actors that are missing after the first `k` steps of a run, because their creation fell
away. -/
def lost : Nat → List Nat
  | 0 => []
  | k + 1 =>
    match xs[k]? with
    | some x =>
      if falls (k + 1) then
        lost k ++ x.instruction.created.map fun _ => (m.moves (xs.take k)).actors.length
      else lost k
    | none => lost k

/-- What is left of the first `k` steps of a run. -/
def kept : Nat → List Move
  | 0 => []
  | k + 1 =>
    match xs[k]? with
    | some x =>
      if falls (k + 1) then kept k
      else kept k ++ [{ x with thread := rank (m.lost falls xs k) x.thread }]
    | none => kept k

/-- An actor is there in what is left of the first `k` steps, and none of its steps fell away. -/
structure Alive (k : Nat) (t : Nat) : Prop where
  present : t ∉ m.lost falls xs k
  unfallen : ∀ i < k, ∀ x, xs[i]? = some x → falls (i + 1) → x.thread ≠ t

variable {m falls xs} {k : Nat} {x : Move}

theorem lost_succ_of_falls (hx : xs[k]? = some x) (hf : falls (k + 1)) :
    m.lost falls xs (k + 1) = m.lost falls xs k ++
      x.instruction.created.map fun _ => (m.moves (xs.take k)).actors.length := by
  simp [lost, hx, hf]

theorem lost_succ_of_not_falls (hf : falls (k + 1) = false) :
    m.lost falls xs (k + 1) = m.lost falls xs k := by
  simp only [lost, hf]
  split <;> rfl

theorem kept_succ_of_falls (hf : falls (k + 1)) : m.kept falls xs (k + 1) = m.kept falls xs k := by
  simp only [kept, hf]
  split <;> rfl

theorem kept_succ_of_not_falls (hx : xs[k]? = some x) (hf : falls (k + 1) = false) :
    m.kept falls xs (k + 1) =
      m.kept falls xs k ++ [{ x with thread := rank (m.lost falls xs k) x.thread }] := by
  simp [kept, hx, hf]

/-- The creation of a missing actor fell away. -/
theorem mem_lost {u : Nat} (h : u ∈ m.lost falls xs k) : ∃ i < k, ∃ x script, xs[i]? = some x ∧
    falls (i + 1) ∧ x.instruction = .create script ∧ u = (m.moves (xs.take i)).actors.length := by
  induction k with
  | zero => simp [lost] at h
  | succ k ih =>
    have hold (h : u ∈ m.lost falls xs k) : ∃ i < k + 1, ∃ x script, xs[i]? = some x ∧
        falls (i + 1) ∧ x.instruction = .create script ∧
        u = (m.moves (xs.take i)).actors.length := by
      obtain ⟨i, hi, rest⟩ := ih h
      exact ⟨i, Nat.lt_succ_of_lt hi, rest⟩
    cases hf : falls (k + 1) with
    | false => exact hold (lost_succ_of_not_falls hf ▸ h)
    | true =>
      cases hx : xs[k]? with
      | none => exact hold (by simpa [lost, hx] using h)
      | some x =>
        rw [lost_succ_of_falls hx hf, List.mem_append, List.mem_map] at h
        rcases h with h | ⟨script, hscript, rfl⟩
        · exact hold h
        · cases hi : x.instruction with
          | create script => exact ⟨k, Nat.lt_succ_self k, x, script, hx, hf, hi, rfl⟩
          | _ => simp [hi, Instruction.created] at hscript

theorem Alive.of_succ {t : Nat} (h : m.Alive falls xs (k + 1) t) : m.Alive falls xs k t := by
  refine ⟨fun hmem => h.present ?_, fun i hi => h.unfallen i (Nat.lt_succ_of_lt hi)⟩
  cases hx : xs[k]? with
  | none => simpa [lost, hx] using hmem
  | some x =>
    cases hf : falls (k + 1) with
    | false =>
      rw [lost_succ_of_not_falls hf]
      exact hmem
    | true =>
      rw [lost_succ_of_falls hx hf]
      exact List.mem_append_left _ hmem

end Machine

/-! ## Messages whose sends do not fall away -/

section Unfallen

variable {m : Machine} {falls : Step → Bool} {x : Move}

/-- The number of messages that wait in an inbox and whose sends do not fall away. -/
def Machine.unfallen (m : Machine) (falls : Step → Bool) (inbox : Nat) : Nat :=
  m.messages.countP fun message => message.inbox == inbox && !falls message.step

theorem waitingAfter_mono {n n' : Nat} (h : n ≤ n') (inbox : Nat) (i : Instruction) :
    waitingAfter n inbox i ≤ waitingAfter n' inbox i := by
  cases i with
  | send | receive =>
    simp only [waitingAfter]
    split <;> omega
  | _ => exact h

/-- A step that does not fall away, nor the send of the message if it receives one. -/
theorem unfallen_move (h : m.Can x) (orderly : m.Orderly) (hf : falls (m.order.length + 1) = false)
    (hreceive : ∀ inbox message, x.instruction = .receive inbox → m.front? inbox = some message →
      falls message.step = false) (inbox : Nat) :
    (m.move x).unfallen falls inbox =
      waitingAfter (m.unfallen falls inbox) inbox x.instruction := by
  simp only [unfallen, h.messages_move orderly]
  obtain ⟨rest, -, henabled⟩ := h.next
  cases hi : x.instruction with
  | send i =>
    simp only [List.countP_append, List.countP_singleton, hf, waitingAfter, Bool.not_false,
      Bool.and_true, beq_iff_eq]
    split <;> rfl
  | receive i =>
    simp only [hi, pending] at henabled
    obtain ⟨message, hfront⟩ := Option.isSome_iff_exists.1 henabled
    have hinbox : message.inbox = i := by simpa using List.find?_some hfront
    have herase := countP_eraseP_of_find?
      (p := fun message => message.inbox == inbox && !falls message.step) hfront
    simp only [hinbox, hreceive i message hi hfront, Bool.not_false, Bool.and_true, beq_iff_eq]
      at herase
    simp only [waitingAfter]
    by_cases hi : i = inbox
    · rw [if_pos hi] at herase ⊢
      omega
    · rw [if_neg hi] at herase ⊢
      omega
  | _ => rfl

/-- A step that falls away. -/
theorem unfallen_move_le (h : m.Can x) (orderly : m.Orderly) (hf : falls (m.order.length + 1))
    (inbox : Nat) : (m.move x).unfallen falls inbox ≤ m.unfallen falls inbox := by
  simp only [unfallen, h.messages_move orderly]
  cases x.instruction with
  | send i => simp [hf]
  | receive i => exact List.Sublist.countP_le List.eraseP_sublist
  | _ => exact le_rfl

end Unfallen

/-! ## The two runs -/

/-- What is left of the first `k` steps of a run is a run, in which the actors that are alive have
the scripts and the origins they have in the other run. As many messages wait in an inbox as in the
other run if those are left out whose sends fell away, or more. -/
structure Mirrors (scripts : List Script) (falls : Step → Bool) (xs : List Move) (k : Nat) :
    Prop where
  executes : (load scripts).Executes ((load scripts).kept falls xs k)
  actors : Thinned ((load scripts).lost falls xs k) ((load scripts).Alive falls xs k)
    ((load scripts).moves (xs.take k)).actors
    ((load scripts).moves ((load scripts).kept falls xs k)).actors
  lines : Thinned ((load scripts).lost falls xs k) ((load scripts).Alive falls xs k)
    (lineages (founders scripts.length) (xs.take k))
    (lineages (founders scripts.length) ((load scripts).kept falls xs k))
  waiting : ∀ inbox, ((load scripts).moves (xs.take k)).unfallen falls inbox ≤
    ((load scripts).moves ((load scripts).kept falls xs k)).waiting inbox
  deeds : (deeds (founders scripts.length) ((load scripts).kept falls xs k)).map some =
    ((List.range' 1 k).filter fun i => !falls i).map
      fun i => (deeds (founders scripts.length) xs)[i - 1]?

section Mirrors

variable {scripts : List Script} {falls : Step → Bool} {xs : List Move} {k : Nat} {x : Move}

theorem lt_of_mem_lost (ordinary : Ordinary scripts) (h : (load scripts).Executes xs) :
    ∀ u ∈ (load scripts).lost falls xs k,
      u < ((load scripts).moves (xs.take k)).actors.length := by
  intro u hu
  obtain ⟨i, hik, x, script, hx, -, hcreate, rfl⟩ := mem_lost hu
  have := length_actors_take ordinary h hik hx
  simpa [hcreate, Instruction.created] using this

/-- An actor whose step does not fall away is alive. -/
theorem alive_of_not_falls (closed : ∀ i j, (load scripts).Precedes xs i j → falls i → falls j)
    (hx : xs[k]? = some x) (hf : falls (k + 1) = false) :
    (load scripts).Alive falls xs k x.thread := by
  refine ⟨fun hmem => ?_, fun i hi y hy hfi heq => ?_⟩
  · obtain ⟨i, hik, y, script, hy, hfi, hcreate, heq⟩ := mem_lost hmem
    have := closed _ _ (.created hik hy hx hcreate heq) hfi
    simp [hf] at this
  · have := closed _ _ (.own hi hy hx heq) hfi
    simp [hf] at this

theorem length_lineages_take (ordinary : Ordinary scripts) (h : (load scripts).Executes xs) :
    (lineages (founders scripts.length) xs).length = ((load scripts).moves xs).actors.length :=
  length_lineages (orderly_load ordinary) (by simp [founders, load]) h

/-- The actor of a step has a lineage. -/
theorem exists_lineage (ordinary : Ordinary scripts) (h : (load scripts).Executes xs)
    (hx : xs[k]? = some x) :
    ∃ l, (lineages (founders scripts.length) (xs.take k))[x.thread]? = some l := by
  have hlt := thread_lt_length_actors h hx
  rw [← length_lineages_take ordinary (h.take k)] at hlt
  exact ⟨_, List.getElem?_eq_getElem hlt⟩

/-- A step that does not fall away can be made in what is left. -/
theorem Mirrors.can (joinless : Joinless scripts) (h : (load scripts).Executes xs)
    (closed : ∀ i j, (load scripts).Precedes xs i j → falls i → falls j)
    (mirrors : Mirrors scripts falls xs k) (hx : xs[k]? = some x) (hf : falls (k + 1) = false) :
    ((load scripts).moves ((load scripts).kept falls xs k)).Can
      { x with thread := rank ((load scripts).lost falls xs k) x.thread } := by
  obtain ⟨-, hcan⟩ := h.can_at hx
  obtain ⟨rest, hnext, henabled⟩ := hcan.next
  have hpasses := h.passes_at (orderly_load joinless.ordinary) rfl joinless hx
  refine ⟨mirrors.executes.idle (orderly_load joinless.ordinary) rfl, ⟨rest, ?_, ?_⟩, hcan.toss⟩
  · have halive := alive_of_not_falls closed hx hf
    rw [mirrors.actors.get _ (List.getElem?_eq_some_iff.1 hnext).1 halive]
    exact hnext
  · cases hi : x.instruction with
    | receive inbox =>
      simp only [hi, pending] at henabled ⊢
      obtain ⟨message, hfront⟩ := Option.isSome_iff_exists.1 henabled
      -- the message that was received is still sent
      have hsent : falls message.step = false := by
        by_contra hfalls
        have := closed _ _ (.received hx hi hfront) (by simpa using hfalls)
        simp [hf] at this
      rw [isSome_front?, decide_eq_true_iff]
      refine Nat.lt_of_lt_of_le (List.countP_pos_iff.2 ⟨message, ?_, ?_⟩) (mirrors.waiting inbox)
      · exact List.mem_of_find?_eq_some hfront
      · have := List.find?_some hfront
        simp_all
    | _ => simp [hi, pending, Instruction.joinless] at hpasses ⊢

theorem order_length_take (hx : xs[k]? = some x) :
    ((load scripts).moves (xs.take k)).order.length = k := by
  rw [length_order_moves, List.length_take,
    Nat.min_eq_left (Nat.le_of_lt (List.getElem?_eq_some_iff.1 hx).1)]
  simp [load]

theorem moves_take_succ {m : Machine} (hx : xs[k]? = some x) :
    m.moves (xs.take (k + 1)) = (m.moves (xs.take k)).move x := by
  rw [List.take_add_one, hx, moves_append]
  rfl

/-- One more step, which does not fall away. -/
theorem Mirrors.step_kept (joinless : Joinless scripts) (h : (load scripts).Executes xs)
    (closed : ∀ i j, (load scripts).Precedes xs i j → falls i → falls j)
    (mirrors : Mirrors scripts falls xs k) (hx : xs[k]? = some x) (hf : falls (k + 1) = false) :
    Mirrors scripts falls xs (k + 1) := by
  have orderly := orderly_load joinless.ordinary
  obtain ⟨htake, hcan⟩ := h.can_at hx
  have hcan' := mirrors.can joinless h closed hx hf
  obtain ⟨rest, hm⟩ := hcan.advanced (htake.orderly orderly)
  obtain ⟨rest', hm'⟩ := hcan'.advanced (mirrors.executes.orderly orderly)
  have halive := alive_of_not_falls closed hx hf
  have hlt := (List.getElem?_eq_some_iff.1 hm.next).1
  obtain rfl : rest = rest' := by
    have := mirrors.actors.get _ hlt halive
    rw [hm.next, hm'.next] at this
    simpa using this.symm
  have hlength := length_lineages_take joinless.ordinary htake
  obtain ⟨l, hline⟩ := exists_lineage joinless.ordinary h hx
  have hline' := mirrors.lines.get _ (hlength ▸ hlt) halive
  rw [hline] at hline'
  have hfresh : ∀ u ∈ (load scripts).lost falls xs k, u < _ := lt_of_mem_lost joinless.ordinary h
  have hkept := kept_succ_of_not_falls (m := load scripts) hx hf
  have htake' : xs.take (k + 1) = xs.take k ++ [x] := by
    rw [List.take_add_one, hx]
    rfl
  refine ⟨?_, ?_, ?_, fun inbox => ?_, ?_⟩
  · rw [hkept]
    exact executes_snoc.2 ⟨mirrors.executes, hcan'⟩
  · rw [lost_succ_of_not_falls hf, htake', hkept, moves_append, moves_append]
    refine Thinned.mono ?_ fun t ht => ht.of_succ
    rw [moves_cons, moves_nil, moves_cons, moves_nil, hm.actors, hm'.actors]
    exact mirrors.actors.both (fun u hu => hu.present) halive hfresh rest
      (by cases x.instruction <;> simp [Instruction.created])
  · rw [lost_succ_of_not_falls hf, htake', hkept, lineages_append, lineages_append]
    refine Thinned.mono ?_ fun t ht => ht.of_succ
    change Thinned _ _ (enrol _ x) (enrol _ _)
    rw [enrol_eq hline, enrol_eq hline']
    refine mirrors.lines.both (fun u hu => hu.present) halive ?_ _ ?_
    · rw [hlength]
      exact hfresh
    · rw [Lineage.length_offspring]
      cases x.instruction <;> simp [Instruction.created]
  · rw [hkept, moves_append, moves_take_succ hx, moves_cons, moves_nil, hm'.waiting inbox,
      unfallen_move hcan (htake.orderly orderly) (by rwa [order_length_take hx])]
    · exact waitingAfter_mono (mirrors.waiting inbox) inbox x.instruction
    · intro i message hi hfront
      by_contra hfalls
      have := closed _ _ (.received hx hi hfront) (by simpa using hfalls)
      simp [hf] at this
  · rw [hkept, deeds_snoc, List.map_append, mirrors.deeds, List.range'_1_concat, Nat.add_comm 1,
      List.filter_append, List.map_append]
    congr 1
    simp [hf, getElem?_deeds, hx, deed, hline, hline']

/-- One more step, which falls away. -/
theorem Mirrors.step_fallen (ordinary : Ordinary scripts) (h : (load scripts).Executes xs)
    (mirrors : Mirrors scripts falls xs k) (hx : xs[k]? = some x) (hf : falls (k + 1)) :
    Mirrors scripts falls xs (k + 1) := by
  have orderly := orderly_load ordinary
  obtain ⟨htake, hcan⟩ := h.can_at hx
  obtain ⟨rest, hm⟩ := hcan.advanced (htake.orderly orderly)
  have hlt := (List.getElem?_eq_some_iff.1 hm.next).1
  have hlength := length_lineages_take ordinary htake
  obtain ⟨l, hline⟩ := exists_lineage ordinary h hx
  have hkept : (load scripts).kept falls xs (k + 1) = _ := kept_succ_of_falls hf
  have hlost := lost_succ_of_falls (m := load scripts) hx hf
  have htake' : xs.take (k + 1) = xs.take k ++ [x] := by
    rw [List.take_add_one, hx]
    rfl
  -- who is alive afterwards was alive before and is neither the actor nor created by it
  have halive : ∀ u, (load scripts).Alive falls xs (k + 1) u →
      ((load scripts).Alive falls xs k u ∧ u ≠ x.thread) ∧
        (x.instruction.created ≠ [] →
          u ≠ ((load scripts).moves (xs.take k)).actors.length) := by
    intro u hu
    refine ⟨⟨hu.of_succ, (hu.unfallen k (Nat.lt_succ_self k) x hx hf).symm⟩, ?_⟩
    rintro hne rfl
    refine hu.present ?_
    rw [hlost, List.mem_append, List.mem_map]
    obtain ⟨script, hscript⟩ := List.exists_mem_of_ne_nil _ hne
    exact .inr ⟨script, hscript, rfl⟩
  refine ⟨?_, ?_, ?_, fun inbox => ?_, ?_⟩
  · rw [hkept]
    exact mirrors.executes
  · rw [hlost, htake', hkept, moves_append, moves_cons, moves_nil, hm.actors]
    exact mirrors.actors.first rest (by cases x.instruction <;> simp [Instruction.created])
      fun u hu => ⟨fun _ => (halive u hu).1, (halive u hu).2⟩
  · have hnew : x.instruction.created.map (fun _ =>
        ((load scripts).moves (xs.take k)).actors.length) =
        (l.offspring x.instruction).map fun _ =>
          (lineages (founders scripts.length) (xs.take k)).length := by
      rw [hlength]
      cases x.instruction <;> rfl
    rw [hlost, htake', hkept, lineages_append, hnew]
    change Thinned _ _ (enrol _ x) _
    rw [enrol_eq hline]
    refine mirrors.lines.first _ ?_ fun u hu => ⟨fun _ => (halive u hu).1, fun hne => ?_⟩
    · rw [Lineage.length_offspring]
      cases x.instruction <;> simp [Instruction.created]
    · rw [hlength]
      refine (halive u hu).2 fun hnil => hne ?_
      rw [← List.length_eq_zero_iff, Lineage.length_offspring, hnil]
      rfl
  · rw [hkept, moves_take_succ hx]
    exact (unfallen_move_le hcan (htake.orderly orderly) (by rwa [order_length_take hx])
      inbox).trans (mirrors.waiting inbox)
  · rw [hkept, mirrors.deeds, List.range'_1_concat, Nat.add_comm 1, List.filter_append,
      List.map_append]
    simp [hf]

/-- What is left of a run is a run, if with each step all that need it fall away. -/
theorem mirrors_of_closed (joinless : Joinless scripts) (h : (load scripts).Executes xs)
    (closed : ∀ i j, (load scripts).Precedes xs i j → falls i → falls j) (hk : k ≤ xs.length) :
    Mirrors scripts falls xs k := by
  induction k with
  | zero =>
    refine ⟨trivial, ⟨?_, fun t ht _ => ?_⟩, ⟨?_, fun t ht _ => ?_⟩, fun inbox => ?_, rfl⟩
    all_goals simp [lost, kept, unfallen, load]
  | succ k ih =>
    have hx : xs[k]? = some xs[k] := List.getElem?_eq_getElem hk
    cases hf : falls (k + 1) with
    | false => exact (ih (Nat.le_of_lt hk)).step_kept joinless h closed hx hf
    | true => exact (ih (Nat.le_of_lt hk)).step_fallen joinless.ordinary h hx hf

end Mirrors

end Actors

end Interleaving
