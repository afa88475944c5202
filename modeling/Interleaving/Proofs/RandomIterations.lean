import Interleaving.Proofs.Directives
import Interleaving.Proofs.Iteration
import Interleaving.Proofs.RandomCalls

/-!
# One iteration in random mode

An iteration in random mode is given the moves that it begins with: those of the levels that are
there, which are replayed, and those of the directives. When all of these are made it goes on at
random, and its levels record what it does.

## Main definitions

* `Client.Passes` — requests that are granted in the course of an execution.
* `Guided` — the levels and the directives give the moves that an iteration begins with.
* `Roamed` — the levels at the end of an iteration record its run.

## Main statements

* `Guided.follow`, `Guided.roam` — one more move, which was given or is picked at random.
* `Guided.execute` — a whole iteration makes the moves that it was given, and ends well.
-/

namespace Interleaving

open Interleaving.Action

namespace Client

variable {σ : Type} {client : Client σ}

/-- So many requests are granted between two states of the scheduler and the client, and what an
execution comes to from the second one it comes to from the first. -/
def Passes (client : Client σ) (n : Nat) (a b : Scheduler × σ) : Prop :=
  ∀ (budget : Nat) (ending : Ending) (c : Scheduler × σ),
    (client.execute budget).Yields b ending c → (client.execute (budget + n)).Yields a ending c

theorem passes_of_grant {s : Scheduler} {x : σ} {b : Scheduler × σ}
    (h : (client.grant (client.request x)).Yields (s, x) none b) : client.Passes 1 (s, x) b :=
  fun _ _ _ hx => (yields_get _).bind (h.bind hx)

theorem Passes.trans {n k : Nat} {a b c : Scheduler × σ} (hab : client.Passes n a b)
    (hbc : client.Passes k b c) : client.Passes (k + n) a c := by
  intro budget ending d hd
  rw [← Nat.add_assoc]
  exact hab _ _ _ (hbc _ _ _ hd)

end Client

namespace Actors

open Machine

/-! ## Levels that record a run -/

section Recorded

variable {scripts : List Script} {G below rest : List Level} {top l : Level} {xs : List Move}

/-- What is recorded does not depend on what was replayed. -/
theorem Recorded.replace (h : Recorded scripts (below ++ top :: rest) xs)
    (hpendings : l.pendings = top.pendings) (hselected : l.selected = top.selected)
    (hdraws : l.draws = top.draws) : Recorded scripts (below ++ l :: rest) xs := by
  -- a level at a place is the one that was there, up to what was replayed
  have hsame {k : Nat} {l' : Level} (hl' : (below ++ l :: rest)[k]? = some l') :
      ∃ t, (below ++ top :: rest)[k]? = some t ∧ l'.pendings = t.pendings ∧
        l'.selected = t.selected ∧ l'.draws = t.draws := by
    rcases Nat.lt_trichotomy k below.length with hlt | rfl | hgt
    · rw [List.getElem?_append_left hlt] at hl' ⊢
      exact ⟨l', hl', rfl, rfl, rfl⟩
    · obtain rfl : l = l' := by simpa using hl'
      exact ⟨top, by simp, hpendings, hselected, hdraws⟩
    · obtain ⟨n, rfl⟩ : ∃ n, k = below.length + (n + 1) := ⟨k - below.length - 1, by omega⟩
      rw [List.getElem?_append_right (Nat.le_add_right _ _), Nat.add_sub_cancel_left] at hl' ⊢
      exact ⟨l', hl', rfl, rfl, rfl⟩
  refine ⟨⟨h.executes, by simpa using h.length_le, fun {k l'} hl' => ?_, fun {k l' x} hl' hx => ?_⟩,
    fun {k l' x} hl' hx => ?_⟩
  · obtain ⟨t, ht, hp, -⟩ := hsame hl'
    rw [hp, h.shown ht]
  · obtain ⟨t, ht, -, hs, -⟩ := hsame hl'
    rw [hs, h.selected ht hx]
  · obtain ⟨t, ht, -, -, hd⟩ := hsame hl'
    rw [hd, h.draws ht hx]

theorem Recorded.take (h : Recorded scripts G xs) (n : Nat) :
    Recorded scripts (G.take n) (xs.take n) := by
  have hlevel {k : Nat} {l : Level} (hl : (G.take n)[k]? = some l) : k < n ∧ G[k]? = some l := by
    have hk : k < n := by
      have := (List.getElem?_eq_some_iff.1 hl).1
      rw [List.length_take] at this
      omega
    exact ⟨hk, by rwa [List.getElem?_take_of_lt hk] at hl⟩
  refine ⟨⟨h.executes.take n, ?_, fun {k l} hl => ?_, fun {k l x} hl hx => ?_⟩,
    fun {k l x} hl hx => ?_⟩
  · have := h.length_le
    rw [List.length_take, List.length_take]
    omega
  all_goals obtain ⟨hk, hl⟩ := hlevel hl
  · rw [h.shown hl, List.take_take, Nat.min_eq_left (Nat.le_of_lt hk)]
  · rw [List.getElem?_take_of_lt hk] at hx
    exact h.selected hl hx
  · rw [List.getElem?_take_of_lt hk] at hx
    exact h.draws hl hx

/-- A level is added for one more move. -/
theorem Recorded.snoc (h : Recorded scripts G xs) (hlength : G.length = xs.length) {x : Move}
    (hcan : ((load scripts).moves xs).Can x)
    (hpendings : l.pendings = ((load scripts).moves xs).snapshot)
    (hselected : l.selected = some x.thread) (hdraws : l.draws = x.draws) :
    Recorded scripts (G ++ [l]) (xs ++ [x]) := by
  refine ⟨⟨executes_snoc.2 ⟨h.executes, hcan⟩, by simp [hlength], fun {k l'} hl' => ?_,
    fun {k l' y} hl' hy => ?_⟩, fun {k l' y} hl' hy => ?_⟩
  all_goals rcases of_getElem?_snoc hl' with hl' | ⟨rfl, rfl⟩
  · have hk := (List.getElem?_eq_some_iff.1 hl').1
    rw [List.take_append_of_le_length (by omega), h.shown hl']
  · rw [hlength, List.take_left, hpendings]
  · have hk := (List.getElem?_eq_some_iff.1 hl').1
    rw [List.getElem?_append_left (by omega)] at hy
    exact h.selected hl' hy
  · obtain rfl : x = y := by simpa [hlength] using hy
    exact hselected
  · have hk := (List.getElem?_eq_some_iff.1 hl').1
    rw [List.getElem?_append_left (by omega)] at hy
    exact h.draws hl' hy
  · obtain rfl : x = y := by simpa [hlength] using hy
    exact hdraws

/-- A level is added at which nothing is run. -/
theorem Recorded.over (h : Recorded scripts G xs) (hlength : G.length = xs.length)
    (hpendings : l.pendings = ((load scripts).moves xs).snapshot) :
    Recorded scripts (G ++ [l]) xs := by
  refine ⟨⟨h.executes, by simp [hlength], fun {k l'} hl' => ?_, fun {k l' x} hl' hx => ?_⟩,
    fun {k l' x} hl' hx => ?_⟩
  all_goals rcases of_getElem?_snoc hl' with hl' | ⟨rfl, rfl⟩
  · exact h.shown hl'
  · rw [List.take_of_length_le hlength.ge, hpendings]
  · exact h.selected hl' hx
  · simp [hlength] at hx
  · exact h.draws hl' hx
  · simp [hlength] at hx

end Recorded

/-! ## Moves that are given -/

/-- The moves that an iteration begins with are given: those for which there is a level are recorded
there, and for each of the others there is a directive. -/
structure Guided (scripts : List Script) (limit : Option Nat) (s : Scheduler) (G : List Level)
    (xs : List Move) : Prop where
  roams : s.Roams limit
  executes : (load scripts).Executes xs
  length_le : G.length ≤ xs.length
  recorded : Recorded scripts G (xs.take G.length)
  pending : s.pending = (xs.drop G.length).map Move.directive
  within : ∀ bound ∈ limit, xs.length ≤ bound

/-- What an iteration leaves: its levels record the run that it made, perhaps with one more level at
which nothing could be run. -/
structure Roamed (scripts : List Script) (limit : Option Nat) (s : Scheduler) (G : List Level)
    (xs : List Move) : Prop where
  roams : s.Roams limit
  recorded : Recorded scripts G xs
  steps : ∀ w : Workspace, w.schedule.levels = G → w.steps = xs.length
  within : ∀ bound ∈ limit, xs.length ≤ bound

section Guided

variable {scripts : List Script} {limit : Option Nat} {s : Scheduler} {G : List Level}
  {xs : List Move} {k : Nat} {x : Move}

/-- A level is replaced by one with the same pending operations, selection and draws. -/
theorem Guided.replace {below rest : List Level} {l l' : Level}
    (h : Guided scripts limit s (below ++ l :: rest) xs) (hpendings : l'.pendings = l.pendings)
    (hselected : l'.selected = l.selected) (hdraws : l'.draws = l.draws) :
    Guided scripts limit s (below ++ l' :: rest) xs := by
  have hsize : (below ++ l' :: rest).length = (below ++ l :: rest).length := by simp
  refine ⟨h.roams, h.executes, hsize ▸ h.length_le, ?_, hsize ▸ h.pending, h.within⟩
  rw [hsize]
  exact h.recorded.replace hpendings hselected hdraws

/-- The thread of the next move that is given is run where there is a level for it. -/
theorem Guided.next_level (joinless : Joinless scripts) (h : Guided scripts limit s G xs)
    (hx : xs[k]? = some x) (hk : k < G.length) :
    ∃ below top rest,
      (Scheduler.next ((load scripts).moves (xs.take k)).snapshot
        ((load scripts).moves (xs.take k)).current).Yields (s.on G k) (.run x.thread)
        (s.on (below ++ top :: rest) (k + 1)) ∧ below.length = k ∧
      Guided scripts limit s (below ++ top :: rest) xs ∧ top.draws = x.draws ∧ top.cursor = 0 := by
  obtain ⟨htake, hcan⟩ := h.executes.can_at hx
  have unstick := (htake.orderly (orderly_load joinless.ordinary)).unstick_snapshot
  obtain ⟨script, hscript, henabled⟩ := hcan.next
  have hl : G[k]? = some G[k] := List.getElem?_eq_getElem hk
  have hx' : (xs.take G.length)[k]? = some x := by rwa [List.getElem?_take_of_lt hk]
  have htake' : (xs.take G.length).take k = xs.take k := by
    rw [List.take_take, Nat.min_eq_left hk.le]
  have hpendings := h.recorded.shown hl
  rw [htake'] at hpendings
  obtain ⟨e, he, hpending⟩ := h.recorded.toAlong.entry (t := x.thread) hl
    (by rw [htake']; exact hscript)
  have hrunnable : e.runnable := by
    rw [hpending, htake']
    simp [Pending.runnable, henabled]
  have hsplit := eq_take_append hl
  have hlength : (G.take k).length = k := by
    rw [List.length_take, Nat.min_eq_left hk.le]
  have hdraws := h.recorded.draws hl hx'
  refine ⟨G.take k, G[k].rewindDraws, G.drop (k + 1), ?_, hlength, ?_, hdraws, rfl⟩
  · have hnext : (Scheduler.next _ ((load scripts).moves (xs.take k)).current).Yields
        (s.on (G.take k ++ G[k] :: G.drop (k + 1)) (G.take k).length) _ _ :=
      Scheduler.next_replay (dense_snapshot _) (hpendings.trans unstick.symm)
        (h.recorded.selected hl hx') he hrunnable
    rwa [hlength, ← hsplit] at hnext
  · rw [hsplit] at h
    have hrewound : G[k].rewindDraws.pendings = G[k].pendings := rfl
    exact h.replace hrewound rfl rfl

/-- The thread of the next move that is given is run where there is a directive for it. -/
theorem Guided.next_directive (joinless : Joinless scripts) (h : Guided scripts limit s G xs)
    (hx : xs[G.length]? = some x) :
    ∃ s' top,
      (Scheduler.next ((load scripts).moves (xs.take G.length)).snapshot
        ((load scripts).moves (xs.take G.length)).current).Yields (s.on G G.length) (.run x.thread)
        (s'.on (G ++ [top]) (G.length + 1)) ∧
      Guided scripts limit s' (G ++ [top]) xs ∧ top.draws = x.draws ∧ top.cursor = 0 := by
  obtain ⟨htake, hcan⟩ := h.executes.can_at hx
  have unstick := (htake.orderly (orderly_load joinless.ordinary)).unstick_snapshot
  have hlt := (List.getElem?_eq_some_iff.1 hx).1
  obtain ⟨script, hscript, henabled⟩ := hcan.next
  have hdirected : s.pending = x.directive :: (xs.drop (G.length + 1)).map Move.directive := by
    rw [h.pending, ← List.map_cons, ← (List.getElem?_eq_some_iff.1 hx).2,
      List.getElem_cons_drop]
  refine ⟨s.followed, _, h.roams.next_directive (dense_snapshot _) hdirected
    (p := (Machine.pending _ x.thread (x.instruction :: script))) ?_ henabled,
    ⟨h.roams.followed, h.executes, ?_, ?_, ?_, h.within⟩, rfl, rfl⟩
  · rw [unstick, getElem?_snapshot]
    exact congrArg _ hscript
  · simpa using hlt
  · rw [List.length_append, List.length_singleton, List.take_add_one, hx]
    refine h.recorded.snoc ?_ hcan ?_ rfl rfl
    · rw [List.length_take, Nat.min_eq_left h.length_le]
    · rw [Level.pendings_picked, unstick]
  · rw [Scheduler.pending_followed hdirected, List.length_append, List.length_singleton]

/-- The thread of the next move that is given is run. Its draws are to be replayed. -/
theorem Guided.next (joinless : Joinless scripts) (h : Guided scripts limit s G xs)
    (hx : xs[k]? = some x) (hk : k ≤ G.length) :
    ∃ s' below top rest,
      (Scheduler.next ((load scripts).moves (xs.take k)).snapshot
        ((load scripts).moves (xs.take k)).current).Yields (s.on G k) (.run x.thread)
        (s'.on (below ++ top :: rest) (k + 1)) ∧ below.length = k ∧
      Guided scripts limit s' (below ++ top :: rest) xs ∧ top.draws = x.draws ∧ top.cursor = 0 := by
  rcases Nat.lt_or_eq_of_le hk with hreplayed | rfl
  · exact ⟨s, h.next_level joinless hx hreplayed⟩
  · obtain ⟨s', top, hnext, h', htop⟩ := h.next_directive joinless hx
    exact ⟨s', G, top, [], hnext, rfl, h', htop⟩

/-- The next move that is given is made. -/
theorem Guided.follow (joinless : Joinless scripts) (h : Guided scripts limit s G xs)
    (hx : xs[k]? = some x) (hk : k ≤ G.length) :
    ∃ s' G' n, Guided scripts limit s' G' xs ∧ k + 1 ≤ G'.length ∧ n ≤ 2 ∧
      Machine.client.Passes n (s.on G k, (load scripts).moves (xs.take k))
        (s'.on G' (k + 1), (load scripts).moves (xs.take (k + 1))) := by
  obtain ⟨htake, hcan⟩ := h.executes.can_at hx
  have orderly := htake.orderly (orderly_load joinless.ordinary)
  have hmove := moves_take_succ (m := load scripts) hx
  have horder : ((load scripts).moves (xs.take k)).order.length = k := order_length_take hx
  obtain ⟨script, hscript, -⟩ := hcan.next
  obtain ⟨s', below, top, rest, hnext, rfl, hguided, hdraws, hcursor⟩ := h.next joinless hx hk
  rw [hmove]
  generalize (load scripts).moves (xs.take below.length) = m at *
  have hlimit : (s.on G below.length).atStepLimit = false := by
    rw [h.roams.atStepLimit_on, Option.any_eq_false]
    intro bound hbound
    have hlt := (List.getElem?_eq_some_iff.1 hx).1
    simpa using Nat.lt_of_lt_of_le hlt (h.within bound hbound)
  have hrun : Machine.client.Passes 1 (s.on G below.length, m)
      (s'.on (below ++ top :: rest) (below.length + 1), m.step x.thread (below.length + 1)) := by
    refine Client.passes_of_grant ?_
    rw [show Machine.client.request m = _ from orderly.request_eq hcan.idle hscript]
    exact Machine.client.grant_run hlimit hnext m
  cases htoss : x.toss with
  | none =>
    refine ⟨s', _, 1, hguided, by simp, by omega, ?_⟩
    simpa [Machine.move, htoss, horder] using hrun
  | some b =>
    -- the value that was drawn before is drawn again
    have hdraw : top.draws[top.cursor]? = some (.ofBool b) := by
      simp [hdraws, hcursor, Move.draws, htoss]
    rw [hcan.toss.1 (by simp [htoss])] at hscript
    refine ⟨s', below ++ { top with cursor := top.cursor + 1 } :: rest, 2,
      hguided.replace rfl rfl rfl, by simp, le_rfl, hrun.trans (Client.passes_of_grant ?_)⟩
    rw [show Machine.client.request (m.step x.thread (below.length + 1)) = _ from
      orderly.request_toss hscript _]
    simp only [Machine.move, htoss, horder]
    exact Machine.client.grant_drawBool (Scheduler.drawBool_replay hdraw) _

/-- All moves that were given are recorded. -/
theorem Guided.recorded_all (h : Guided scripts limit s G xs) (hlength : G.length = xs.length) :
    Recorded scripts G xs := by
  have := h.recorded
  rwa [hlength, List.take_length] at this

/-- An iteration ends where all moves that were given are made. -/
theorem Guided.roamed (h : Guided scripts limit s G xs) (hlength : G.length = xs.length) :
    Roamed scripts limit s G xs := by
  refine ⟨h.roams, h.recorded_all hlength, fun w hw => ?_, h.within⟩
  unfold Workspace.steps Schedule.last?
  rw [Schedule.size, hw, hlength]
  split
  · next l hl =>
    rw [List.getLast?_eq_getElem?] at hl
    have hlt : G.length - 1 < xs.length := hlength ▸ (List.getElem?_eq_some_iff.1 hl).1
    have hselected := (h.recorded_all hlength).selected hl (List.getElem?_eq_getElem hlt)
    rw [if_neg (by simp [hselected])]
  · rfl

/-- An iteration goes on with a move that was not given. -/
theorem Guided.snoc (h : Guided scripts limit s G xs) (hlength : G.length = xs.length)
    {s' : Scheduler} (roams : s'.Roams limit) (hpending : s'.pending = [])
    (hwithin : ∀ bound ∈ limit, xs.length < bound) {l : Level}
    (hcan : ((load scripts).moves xs).Can x)
    (hpendings : l.pendings = ((load scripts).moves xs).snapshot)
    (hselected : l.selected = some x.thread) (hdraws : l.draws = x.draws) :
    Guided scripts limit s' (G ++ [l]) (xs ++ [x]) := by
  have hsize : (G ++ [l]).length = (xs ++ [x]).length := by simp [hlength]
  refine ⟨roams, executes_snoc.2 ⟨h.executes, hcan⟩, hsize.le, ?_, ?_, ?_⟩
  · rw [hsize, List.take_length]
    exact (h.recorded_all hlength).snoc hlength hcan hpendings hselected hdraws
  · rw [hsize, List.drop_length, hpending]
    rfl
  · simpa using hwithin

/-- A thread that was picked at random makes its move. -/
theorem Guided.roam_run (joinless : Joinless scripts) (h : Guided scripts limit s G xs)
    (hlength : G.length = xs.length) (hpending : s.pending = [])
    (hwithin : ∀ bound ∈ limit, xs.length < bound) {m : Machine} (hm : (load scripts).moves xs = m)
    {t : ThreadId} {i : Instruction} {script : Script} (hscript : m.actors[t]? = some (i :: script))
    (henabled : (m.pending t (i :: script)).enabled) {g : Pcg}
    (hgrant : (Machine.client.grant m.request).Yields (s.on G G.length, m) none
      ((s.regenerated g).on (G ++ [Level.picked (G.length + 1) m.snapshot t []]) (G.length + 1),
        m.step t (G.length + 1))) :
    ∃ x s' G' n, Guided scripts limit s' G' (xs ++ [x]) ∧ xs.length + 1 ≤ G'.length ∧ n ≤ 2 ∧
      Machine.client.Passes n (s.on G G.length, m) (s'.on G' (xs.length + 1), m.move x) := by
  have orderly : m.Orderly := hm ▸ h.executes.orderly (orderly_load joinless.ordinary)
  have idle : m.demand = none := hm ▸ h.executes.idle (orderly_load joinless.ordinary) rfl
  have horder : m.order.length = G.length := by
    simp [← hm, length_order_moves, load, hlength]
  have hpendings : (Level.picked (G.length + 1) m.snapshot t []).pendings =
      ((load scripts).moves xs).snapshot := by rw [Level.pendings_picked, hm]
  have hrun := Client.passes_of_grant hgrant
  have roams := h.roams.regenerated g
  by_cases hi : i = .toss
  · -- the value is drawn at random
    obtain ⟨g', b, hdraw⟩ :=
      roams.drawBool_random G [] (Level.picked (G.length + 1) m.snapshot t []) rfl
    have hcan : m.Can ⟨t, .toss, some b⟩ := ⟨idle, ⟨script, hi ▸ hscript, rfl⟩, by simp⟩
    refine ⟨_, _, _, 2, h.snoc hlength (roams.regenerated g') hpending hwithin (hm ▸ hcan)
      (l := (Level.picked (G.length + 1) m.snapshot t []).record (.ofBool b)) hpendings rfl rfl,
      by simp [hlength], le_rfl, hrun.trans (Client.passes_of_grant ?_)⟩
    · rw [show Machine.client.request (m.step t (G.length + 1)) = _ from
        orderly.request_toss (hi ▸ hscript) _]
      simp only [Machine.move, horder, ← hlength]
      exact Machine.client.grant_drawBool hdraw (m.step t (G.length + 1))
  · have hcan : m.Can ⟨t, i, none⟩ := ⟨idle, ⟨script, hscript, henabled⟩, by simp [hi]⟩
    refine ⟨_, _, _, 1, h.snoc hlength roams hpending hwithin (hm ▸ hcan)
      hpendings rfl rfl, by simp [hlength], by omega, ?_⟩
    simpa [Machine.move, horder, ← hlength] using hrun

/-- When all moves that were given are made, one more is made at random, or the iteration ends. -/
theorem Guided.roam (joinless : Joinless scripts) (h : Guided scripts limit s G xs)
    (hlength : G.length = xs.length) :
    (∃ x s' G' n, Guided scripts limit s' G' (xs ++ [x]) ∧ xs.length + 1 ≤ G'.length ∧ n ≤ 2 ∧
      Machine.client.Passes n (s.on G xs.length, (load scripts).moves xs)
        (s'.on G' (xs.length + 1), (load scripts).moves (xs ++ [x]))) ∨
    ∃ s' G' ending, (Machine.client.grant ((load scripts).moves xs).request).Yields
        (s.on G xs.length, (load scripts).moves xs) (some ending)
        (s'.on G' G'.length, (load scripts).moves xs) ∧
      Roamed scripts limit s' G' xs := by
  have orderly := h.executes.orderly (orderly_load joinless.ordinary)
  have idle := h.executes.idle (orderly_load joinless.ordinary) rfl
  have hpending : s.pending = [] := by
    rw [h.pending, hlength, List.drop_length]
    rfl
  have hmove (x : Move) : (load scripts).moves (xs ++ [x]) = ((load scripts).moves xs).move x := by
    rw [moves_append]
    rfl
  simp only [hmove]
  generalize hm : (load scripts).moves xs = m at orderly idle
  rw [← hlength]
  rcases orderly.request_cases idle with hrequest | hrequest
  · refine .inr ⟨s, G, .allFinished, ?_, h.roamed hlength⟩
    rw [hrequest]
    exact yields_pure _ _
  by_cases hcut : ∃ bound ∈ limit, bound ≤ xs.length
  · refine .inr ⟨s, G, .stepLimit, ?_, h.roamed hlength⟩
    rw [hrequest]
    refine Machine.client.grant_cut ?_ _
    rw [h.roams.atStepLimit_on, Option.any_eq_true, hlength]
    simpa using hcut
  push Not at hcut
  have hlimit : (s.on G G.length).atStepLimit = false := by
    rw [h.roams.atStepLimit_on, Option.any_eq_false, hlength]
    simpa using hcut
  obtain ⟨g, ⟨t, p, hp, henabled, hnext⟩ | ⟨-, hnext⟩⟩ :=
    h.roams.next_random m.dense_snapshot hpending G m.current
  · rw [orderly.unstick_snapshot] at hp hnext
    rw [getElem?_snapshot, Option.map_eq_some_iff] at hp
    obtain ⟨script, hscript, rfl⟩ := hp
    have hgrant := Machine.client.grant_run hlimit hnext m
    rw [← hrequest] at hgrant
    cases script with
    | nil => simp [Machine.pending] at henabled
    | cons i script =>
      left
      have := h.roam_run joinless hlength hpending hcut hm hscript henabled hgrant
      rwa [← hlength] at this
  · rw [orderly.unstick_snapshot] at hnext
    have hgrant := Machine.client.grant_deadlock hlimit hnext m
    rw [← hrequest] at hgrant
    refine .inr ⟨_, G ++ [_], .deadlock, by simpa using hgrant, h.roams.regenerated g, ?_,
      fun w hw => ?_, h.within⟩
    · refine (h.recorded_all hlength).over hlength ?_
      simp [Level.pendings, hm, Function.comp_def]
    · simp [Workspace.steps, Schedule.last?, Schedule.size, hw, hlength]

/-- Each move of a run does some of the work that is left. -/
theorem work_take_succ (ordinary : Ordinary scripts) (h : (load scripts).Executes xs)
    (hk : k < xs.length) :
    Script.work ((load scripts).moves (xs.take (k + 1))).actors.flatten + 1 =
      Script.work ((load scripts).moves (xs.take k)).actors.flatten := by
  have hbefore := work_moves (orderly_load ordinary) (h.take k)
  have hafter := work_moves (orderly_load ordinary) (h.take (k + 1))
  rw [List.length_take, Nat.min_eq_left (by omega)] at hbefore hafter
  omega

/-- An iteration makes the moves that it was given, goes on at random, and ends well. -/
theorem Guided.execute (joinless : Joinless scripts) {budget : Nat}
    (h : Guided scripts limit s G xs) (hk : k ≤ G.length)
    (hbudget : 2 * Script.work ((load scripts).moves (xs.take k)).actors.flatten < budget) :
    ∃ s' G' ys ending, (Machine.client.execute budget).Yields
        (s.on G k, (load scripts).moves (xs.take k)) ending
        (s'.on G' G'.length, (load scripts).moves ys) ∧
      Roamed scripts limit s' G' ys ∧ xs <+: ys := by
  -- with every move there is less work left
  induction hw : Script.work ((load scripts).moves (xs.take k)).actors.flatten
    using Nat.strong_induction_on generalizing s G xs k budget with
  | _ w ih =>
    have go_on {s' : Scheduler} {G' : List Level} {xs' : List Move} {k' n : Nat}
        (h' : Guided scripts limit s' G' xs') (hk' : k' ≤ G'.length) (hn : n ≤ 2)
        (hwork : Script.work ((load scripts).moves (xs'.take k')).actors.flatten + 1 = w)
        (hpasses : Machine.client.Passes n (s.on G k, (load scripts).moves (xs.take k))
          (s'.on G' k', (load scripts).moves (xs'.take k'))) (hbegins : xs <+: xs') :
        ∃ s'' G'' ys ending, (Machine.client.execute budget).Yields
            (s.on G k, (load scripts).moves (xs.take k)) ending
            (s''.on G'' G''.length, (load scripts).moves ys) ∧
          Roamed scripts limit s'' G'' ys ∧ xs <+: ys := by
      obtain ⟨s'', G'', ys, ending, hyields, hroamed, hys⟩ :=
        ih _ (by omega) h' hk' (show _ < budget - n by omega) rfl
      refine ⟨s'', G'', ys, ending, ?_, hroamed, hbegins.trans hys⟩
      have := hpasses _ _ _ hyields
      rwa [Nat.sub_add_cancel (by omega)] at this
    rcases Nat.lt_or_ge k xs.length with hlt | hge
    · obtain ⟨s', G', n, h', hk', hn, hpasses⟩ :=
        h.follow joinless (List.getElem?_eq_getElem hlt) hk
      have hwork := work_take_succ joinless.ordinary h.executes hlt
      exact go_on h' hk' hn (hwork.trans hw) hpasses (List.prefix_refl xs)
    · obtain rfl : k = xs.length := Nat.le_antisymm (hk.trans h.length_le) hge
      have hlength := Nat.le_antisymm h.length_le hk
      rw [List.take_length] at hw go_on ⊢
      rcases h.roam joinless hlength with
        ⟨x, s', G', n, h', hk', hn, hpasses⟩ | ⟨s', G', ending, hgrant, hroamed⟩
      · have hwork := work_take_succ (k := xs.length) joinless.ordinary h'.executes (by simp)
        have htake : (xs ++ [x]).take (xs.length + 1) = xs ++ [x] :=
          List.take_of_length_le (by simp)
        rw [List.take_left, htake] at hwork
        refine go_on h' hk' hn (htake.symm ▸ hwork.trans hw) ?_ (List.prefix_append xs [x])
        rwa [htake]
      · refine ⟨s', G', xs, ending, ?_, hroamed, List.prefix_refl xs⟩
        obtain ⟨budget, rfl⟩ : ∃ b, budget = b + 1 := ⟨budget - 1, by omega⟩
        exact (yields_get _).bind (hgrant.bind (yields_pure _ _))

end Guided

end Actors

end Interleaving
