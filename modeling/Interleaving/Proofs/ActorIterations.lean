import Interleaving.Proofs.ActorSteps
import Interleaving.Proofs.Attempts
import Interleaving.Proofs.Nodes

/-!
# Iterations of actors

An iteration of an exploration of ordinary scripts tells a run of the actors, and the levels of the
schedule show, one after the other, what the actors are about to do along this run.

## Main statements

* `exists_executes_of_ran` — an iteration tells a run.
* `exists_along` — the levels at the end of an iteration stand along its run.
-/

namespace Interleaving

namespace Actors

open Machine

variable {scripts : List Script} {sleepSets reduction : Bool} {limit : Option Nat}

/-- An iteration tells a run. -/
theorem exists_executes_of_ran (ordinary : Ordinary scripts) {r : Record}
    (h : ((setting scripts sleepSets reduction).limited limit).Ran r) :
    ∃ xs, (load scripts).Executes xs ∧ r.1 = told 0 xs := by
  obtain ⟨H, G, hG, hends, hr⟩ := h
  obtain ⟨xs, hxs, hc | ⟨t, rest, ht, hc⟩⟩ :=
    exists_executes_of_follows ordinary (hends.stands hG).follows.of_limited
  · exact ⟨xs, hxs, hr.trans hc⟩
  · -- an iteration does not end in the middle of a toss
    have hdraw : ((setting scripts sleepSets reduction).limited limit).request (course H) =
        .drawBool := by
      rw [Setting.request_limited, hc]
      exact request_told_toss ordinary hxs ht
    generalize r.2 = ending at hends
    cases hends <;> simp_all

/-- Ordinary scripts show only yields that are enabled. -/
theorem markable_of_stands (ordinary : Ordinary scripts) {G : List Level}
    (h : ((setting scripts sleepSets reduction).limited limit).Stands G) :
    Markable ((setting scripts sleepSets reduction).limited limit) G := by
  refine ⟨fun l hl => ?_, fun l hl e he hrunnable => ?_⟩
  · obtain ⟨below, above, rfl⟩ := List.append_of_mem hl
    exact (h below l above rfl).dense (ordinary.tame.limited limit)
  · obtain ⟨below, above, rfl⟩ := List.append_of_mem hl
    obtain ⟨pre, hnode⟩ := exists_node ordinary (h.of_limited rfl below l above rfl)
    obtain ⟨i, hi⟩ := List.mem_iff_getElem?.1 he
    obtain ⟨script, hscript, hshown⟩ := hnode.entry hi
    change e.toPending.enabled
    change e.toPending.runnable at hrunnable
    rw [hshown] at hrunnable ⊢
    cases script with
    | nil => simp [Machine.pending, Pending.runnable] at hrunnable
    | cons instruction rest =>
      have hi := (hnode.executes.orderly (orderly_load ordinary)).ordinary_next hscript
      cases instruction <;>
        simp_all [Machine.pending, Pending.runnable, Instruction.ordinary]

/-- The levels at the end of an iteration stand along its run. -/
theorem exists_along (ordinary : Ordinary scripts) {H G : List Level} {ending : Ending}
    (hG : ((setting scripts sleepSets reduction).limited limit).Stands G)
    (h : ((setting scripts sleepSets reduction).limited limit).Ends H G ending) :
    ∃ xs, Along scripts G xs ∧ xs.length = H.length := by
  obtain ⟨xs, hxs, hcourse⟩ : ∃ xs, (load scripts).Executes xs ∧ course H = told 0 xs :=
    exists_executes_of_ran ordinary (r := (course H, ending)) ⟨H, G, hG, h, rfl⟩
  have hlength : xs.length = H.length := by
    rw [← decisions_course h.selected, hcourse, decisions_told]
  obtain ⟨more, hmore, hone⟩ : ∃ more, G = H ++ more ∧ more.length ≤ 1 := by
    rcases h.eq_or_snoc with rfl | ⟨l, rfl, -⟩
    · exact ⟨[], (List.append_nil _).symm, by simp⟩
    · exact ⟨[l], rfl, by simp⟩
  -- a level stands over those that the iteration went along, after the run up to there
  have at_level {k : Nat} {l : Level} (hl : G[k]? = some l) :
      (setting scripts sleepSets reduction).Fits (H.take k) l ∧
        Node scripts (H.take k) l (xs.take k) := by
    have hk : k ≤ H.length := by
      have := (List.getElem?_eq_some_iff.1 hl).1
      rw [hmore, List.length_append] at this
      omega
    have htake : G.take k = H.take k := by rw [hmore, List.take_append_of_le_length hk]
    have hfits := hG.of_limited rfl _ _ _ (eq_take_append hl)
    rw [htake] at hfits
    obtain ⟨pre, hnode⟩ := exists_node ordinary hfits
    have hprefix : course (H.take k) <+: told 0 xs :=
      ⟨course (H.drop k), by rw [← course_append, List.take_append_drop, hcourse]⟩
    obtain ⟨w, rfl⟩ := hnode.isPrefix hxs hprefix
    have hpre : pre.length = k := by
      rw [hnode.length_eq hfits.below_selected, List.length_take, Nat.min_eq_left hk]
    rw [← hpre, List.take_left, hpre]
    exact ⟨hfits, hnode⟩
  refine ⟨xs, ⟨hxs, ?_, fun hl => (at_level hl).2.shown, fun {k l x} hl hx => ?_⟩, hlength⟩
  · rw [hlength, hmore, List.length_append]
    exact Nat.le_add_right _ _
  · obtain ⟨hfits, hnode⟩ := at_level hl
    have hlt := (List.getElem?_eq_some_iff.1 hx).1
    have hl' : H[k]? = some l := by
      rwa [hmore, List.getElem?_append_left (hlength ▸ hlt)] at hl
    obtain ⟨t, ht⟩ := Option.isSome_iff_exists.1 (h.selected l (List.mem_of_getElem? hl'))
    have hprefix : course (H.take k ++ [l]) <+: told 0 (xs.take k ++ xs.drop k) := by
      rw [List.take_append_drop, ← hcourse]
      nth_rewrite 2 [eq_take_append hl']
      exact course_isPrefix _ _ _
    obtain ⟨x', w, hw, rfl⟩ := hnode.exists_cons hfits ht (by rwa [List.take_append_drop]) hprefix
    obtain rfl : x' = x := by
      have hdrop : (xs.drop k)[0]? = some x := by simpa using hx
      simpa [hw] using hdrop
    exact ht

end Actors

end Interleaving
