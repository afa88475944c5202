import Interleaving.Action

/-!
# Actions that succeed, and actions that fail

`x.Yields s a t` says that the action `x`, started in the state `s`, ends well with the value `a` in
the state `t`, whatever notices it gives on the way; `x.Fails s t` says that it ends with a fault.
One rule per way of building an action lets a longer one be run step by step without opening it.
`x.Ensures s Q` says what holds if the action ends well, and has such rules, too. `x.ComesTo s y t`
says that two actions end alike, and `x.Keeps s P E` what holds of the state that an action leaves
even where it ends with a fault. `x.Alike s y t R E` says that two actions end alike in states that
are related.
-/

namespace Interleaving

namespace Action

variable {σ τ α β ι : Type}

/-- The action ends well, in the given state and with the given value. -/
def Yields (x : Action σ α) (s : σ) (a : α) (t : σ) : Prop := ∃ notices, x s = ⟨.ok a, t, notices⟩

theorem Yields.of_eq {x : Action σ α} {s t : σ} {a : α} {notices : List Notice}
    (h : x s = ⟨.ok a, t, notices⟩) : x.Yields s a t := ⟨notices, h⟩

theorem yields_pure (a : α) (s : σ) : (pure a : Action σ α).Yields s a s := ⟨[], rfl⟩

theorem yields_get (s : σ) : (get : Action σ σ).Yields s s s := ⟨[], rfl⟩

theorem yields_set (s t : σ) : (set t).Yields s () t := ⟨[], rfl⟩

theorem yields_modify (f : σ → σ) (s : σ) : (modify f).Yields s () (f s) := ⟨[], rfl⟩

theorem yields_notify (notices : List Notice) (s : σ) : (notify notices).Yields s () s :=
  ⟨notices, rfl⟩

theorem yields_lift {x : Except Fault α} {a : α} (h : x = .ok a) (s : σ) :
    (lift x : Action σ α).Yields s a s := ⟨[], by rw [lift_apply, h]⟩

theorem Yields.bind {x : Action σ α} {f : α → Action σ β} {s t u : σ} {a : α} {b : β}
    (hx : x.Yields s a t) (hf : (f a).Yields t b u) : (x >>= f).Yields s b u := by
  obtain ⟨before, hx⟩ := hx
  obtain ⟨after, hf⟩ := hf
  refine ⟨before ++ after, ?_⟩
  rw [bind_apply_of_ok hx, hf]

theorem Yields.within {get : σ → τ} {put : τ → σ → σ} {x : Action τ α} {s : σ} {t : τ} {a : α}
    (hx : x.Yields (get s) a t) : (Action.within get put x).Yields s a (put t s) := by
  obtain ⟨notices, hx⟩ := hx
  refine ⟨notices, ?_⟩
  rw [within_apply, hx]

theorem Yields.result {x : Action σ α} {s t : σ} {a : α} (h : x.Yields s a t) :
    (x s).result = .ok a := by
  obtain ⟨notices, h⟩ := h
  rw [h]

theorem Yields.state {x : Action σ α} {s t : σ} {a : α} (h : x.Yields s a t) :
    (x s).state = t := by
  obtain ⟨notices, h⟩ := h
  rw [h]

theorem yields_of_result {x : Action σ α} {s : σ} {a : α} (h : (x s).result = .ok a) :
    x.Yields s a (x s).state := by
  refine ⟨(x s).notices, ?_⟩
  rw [← h]

/-- An invariant that every item keeps, `P k` holding after the first `k` items, holds at the end
of the list. -/
theorem yields_each {f : ι → Action σ Unit} {items : List ι} {s : σ} (P : Nat → σ → Prop)
    (start : P 0 s)
    (step : ∀ k i s, items[k]? = some i → P k s → ∃ t, (f i).Yields s () t ∧ P (k + 1) t) :
    ∃ t, (each f items).Yields s () t ∧ P items.length t := by
  induction items generalizing P s with
  | nil => exact ⟨s, yields_pure () s, start⟩
  | cons i rest ih =>
    obtain ⟨t, ht, hP⟩ := step 0 i s rfl start
    obtain ⟨u, hu, hQ⟩ := ih (fun k => P (k + 1)) hP
      fun k j s hj hs => step (k + 1) j s (by simpa using hj) hs
    exact ⟨u, ht.bind hu, hQ⟩

/-! ## Failure -/

/-- The action ends with a fault, in the given state. -/
def Fails (x : Action σ α) (s t : σ) : Prop := ∃ fault notices, x s = ⟨.error fault, t, notices⟩

theorem yields_or_fails (x : Action σ α) (s : σ) :
    (∃ a t, x.Yields s a t) ∨ ∃ t, x.Fails s t := by
  cases h : x s with
  | mk result t notices =>
    cases result with
    | ok a => exact .inl ⟨a, t, notices, h⟩
    | error fault => exact .inr ⟨t, fault, notices, h⟩

theorem Fails.bind {x : Action σ α} {s t : σ} (hx : x.Fails s t) (f : α → Action σ β) :
    (x >>= f).Fails s t := by
  obtain ⟨fault, notices, hx⟩ := hx
  exact ⟨fault, notices, bind_apply_of_error hx⟩

theorem Yields.bind_fails {x : Action σ α} {f : α → Action σ β} {s t u : σ} {a : α}
    (hx : x.Yields s a t) (hf : (f a).Fails t u) : (x >>= f).Fails s u := by
  obtain ⟨before, hx⟩ := hx
  obtain ⟨fault, after, hf⟩ := hf
  refine ⟨fault, before ++ after, ?_⟩
  rw [bind_apply_of_ok hx, hf]

theorem Fails.within {get : σ → τ} {put : τ → σ → σ} {x : Action τ α} {s : σ} {t : τ}
    (hx : x.Fails (get s) t) : (Action.within get put x).Fails s (put t s) := by
  obtain ⟨fault, notices, hx⟩ := hx
  refine ⟨fault, notices, ?_⟩
  rw [within_apply, hx]

/-! ## What an action ensures -/

/-- If the action ends well, its value and the state it leaves have the property. -/
def Ensures (x : Action σ α) (s : σ) (Q : α → σ → Prop) : Prop := ∀ a t, x.Yields s a t → Q a t

theorem Yields.value_eq {x : Action σ α} {s t u : σ} {a b : α} (h : x.Yields s a t)
    (h' : x.Yields s b u) : a = b ∧ t = u := by
  obtain ⟨before, h⟩ := h
  obtain ⟨after, h'⟩ := h'
  obtain ⟨hab, htu, -⟩ := Outcome.mk.inj (h.symm.trans h')
  exact ⟨Except.ok.inj hab, htu⟩

theorem Yields.ensures {x : Action σ α} {s t : σ} {a : α} {Q : α → σ → Prop}
    (h : x.Yields s a t) (hQ : Q a t) : x.Ensures s Q := by
  intro b u hb
  obtain ⟨rfl, rfl⟩ := h.value_eq hb
  exact hQ

theorem Fails.ensures {x : Action σ α} {s t : σ} (h : x.Fails s t) (Q : α → σ → Prop) :
    x.Ensures s Q := by
  rintro a u ⟨notices, hu⟩
  obtain ⟨fault, before, h⟩ := h
  simp [h] at hu

theorem ensures_pure {a : α} {s : σ} {Q : α → σ → Prop} (h : Q a s) :
    (pure a : Action σ α).Ensures s Q := (yields_pure a s).ensures h

theorem ensures_fail (fault : Fault) (s : σ) (Q : α → σ → Prop) :
    (fail fault : Action σ α).Ensures s Q :=
  Fails.ensures (t := s) ⟨fault, [], rfl⟩ Q

theorem Yields.of_bind {x : Action σ α} {f : α → Action σ β} {s u : σ} {b : β}
    (h : (x >>= f).Yields s b u) : ∃ a t, x.Yields s a t ∧ (f a).Yields t b u := by
  obtain ⟨notices, h⟩ := h
  obtain ⟨a, t, before, after, hx, hf, -⟩ := bind_eq_ok h
  exact ⟨a, t, ⟨before, hx⟩, ⟨after, hf⟩⟩

theorem Ensures.bind {x : Action σ α} {f : α → Action σ β} {s : σ} {Q : β → σ → Prop}
    (h : x.Ensures s fun a t => (f a).Ensures t Q) : (x >>= f).Ensures s Q := by
  intro b u hb
  obtain ⟨a, t, hx, hf⟩ := hb.of_bind
  exact h a t hx b u hf

theorem Ensures.bind_pure {x : Action σ α} {f : α → β} {s : σ} {Q : β → σ → Prop}
    (h : x.Ensures s fun a t => Q (f a) t) : (x >>= fun a => pure (f a)).Ensures s Q := by
  intro b u hb
  obtain ⟨a, t, hx, hf⟩ := hb.of_bind
  exact ensures_pure (h a t hx) b u hf

theorem Yields.bind_ensures {x : Action σ α} {f : α → Action σ β} {s t : σ} {a : α}
    {Q : β → σ → Prop} (hx : x.Yields s a t) (hf : (f a).Ensures t Q) : (x >>= f).Ensures s Q :=
  (hx.ensures hf).bind

/-- After a value was lifted it is known where it came from. -/
theorem bind_lift_ensures {x : Except Fault α} {f : α → Action σ β} {s : σ} {Q : β → σ → Prop}
    (h : ∀ a, x = .ok a → (f a).Ensures s Q) : ((lift x : Action σ α) >>= f).Ensures s Q := by
  refine Ensures.bind ?_
  rintro a t ⟨notices, ha⟩
  obtain ⟨hx, rfl, -⟩ := Outcome.mk.inj ha
  exact h a hx

theorem Ensures.mono {x : Action σ α} {s : σ} {Q R : α → σ → Prop} (h : x.Ensures s Q)
    (hQR : ∀ a t, Q a t → R a t) : x.Ensures s R :=
  fun a t ht => hQR a t (h a t ht)

theorem Ensures.and {x : Action σ α} {s : σ} {Q R : α → σ → Prop} (h : x.Ensures s Q)
    (h' : x.Ensures s R) : x.Ensures s fun a t => Q a t ∧ R a t :=
  fun a t ht => ⟨h a t ht, h' a t ht⟩

theorem Ensures.within {get : σ → τ} {put : τ → σ → σ} {x : Action τ α} {s : σ}
    {Q : α → σ → Prop} (h : x.Ensures (get s) fun a t => Q a (put t s)) :
    (Action.within get put x).Ensures s Q := by
  rintro a u ⟨notices, hu⟩
  rw [within_apply] at hu
  obtain ⟨hr, rfl, hn⟩ := Outcome.mk.inj hu
  refine h a _ ⟨notices, ?_⟩
  rw [← hr, ← hn]

/-- An invariant that every item keeps if it ends well, `P k` holding after the first `k` items,
holds at the end of the list. -/
theorem ensures_each_at {f : ι → Action σ Unit} {items : List ι} {s : σ} (P : Nat → σ → Prop)
    (start : P 0 s)
    (step : ∀ k i s, items[k]? = some i → P k s → (f i).Ensures s fun _ t => P (k + 1) t) :
    (each f items).Ensures s fun _ t => P items.length t := by
  induction items generalizing P s with
  | nil => exact ensures_pure start
  | cons i rest ih =>
    refine ((step 0 i s rfl start).mono fun _ t ht => ?_).bind
    exact ih (fun k => P (k + 1)) ht fun k j s hj hs => step (k + 1) j s (by simpa using hj) hs

/-- What every item keeps holds at the end of the list. -/
theorem ensures_each {f : ι → Action σ Unit} {P : σ → Prop}
    (step : ∀ i s, P s → (f i).Ensures s fun _ t => P t) {items : List ι} {s : σ} (h : P s) :
    (each f items).Ensures s fun _ t => P t :=
  ensures_each_at (fun _ => P) h fun _ i s _ => step i s

/-! ## Actions that end alike -/

/-- The first action, started in the first state, ends as the second one does in the second state.
They may give other notices. -/
def ComesTo (x : Action σ α) (s : σ) (y : Action σ α) (t : σ) : Prop :=
  (x s).result = (y t).result ∧ (x s).state = (y t).state

theorem ComesTo.refl (x : Action σ α) (s : σ) : x.ComesTo s x s := ⟨rfl, rfl⟩

theorem ComesTo.trans {x y z : Action σ α} {s t u : σ} (h : x.ComesTo s y t)
    (h' : y.ComesTo t z u) : x.ComesTo s z u :=
  ⟨h.1.trans h'.1, h.2.trans h'.2⟩

theorem yields_iff {x : Action σ α} {s t : σ} {a : α} :
    x.Yields s a t ↔ (x s).result = .ok a ∧ (x s).state = t := by
  refine ⟨fun h => ⟨h.result, h.state⟩, ?_⟩
  rintro ⟨hresult, rfl⟩
  exact yields_of_result hresult

theorem ComesTo.yields_iff {x y : Action σ α} {s t u : σ} {a : α} (h : x.ComesTo s y t) :
    x.Yields s a u ↔ y.Yields t a u := by
  rw [Action.yields_iff, Action.yields_iff, h.1, h.2]

theorem ComesTo.ensures {x y : Action σ α} {s t : σ} {Q : α → σ → Prop} (h : x.ComesTo s y t)
    (hy : y.Ensures t Q) : x.Ensures s Q :=
  fun a u hu => hy a u (h.yields_iff.1 hu)

/-- What was done before does not matter to how an action goes on. -/
theorem Yields.bind_comesTo {x : Action σ α} {s t : σ} {a : α} (hx : x.Yields s a t)
    (f : α → Action σ β) : (x >>= f).ComesTo s (f a) t := by
  obtain ⟨before, hx⟩ := hx
  rw [ComesTo, bind_apply_of_ok hx]
  exact ⟨rfl, rfl⟩

/-! ## What an action keeps -/

/-- However the action ends, the state that it leaves has the property `P`; and if it ends with a
fault, the fault has the property `E`. -/
def Keeps (x : Action σ α) (s : σ) (P : σ → Prop) (E : Fault → Prop) : Prop :=
  P (x s).state ∧ ∀ fault, (x s).result = .error fault → E fault

section Keeps

variable {P : σ → Prop} {E : Fault → Prop}

theorem keeps_pure {s : σ} (a : α) (h : P s) : (pure a : Action σ α).Keeps s P E := ⟨h, by simp⟩

theorem keeps_fail {s : σ} {fault : Fault} (h : P s) (hE : E fault) :
    (fail fault : Action σ α).Keeps s P E := by
  refine ⟨h, fun found hfound => ?_⟩
  obtain rfl : fault = found := by simpa using hfound
  exact hE

theorem Yields.keeps {x : Action σ α} {s t : σ} {a : α} (h : x.Yields s a t) (hP : P t) :
    x.Keeps s P E := by
  rw [yields_iff] at h
  exact ⟨h.2 ▸ hP, by simp [h.1]⟩

theorem Keeps.ensures {x : Action σ α} {s : σ} (h : x.Keeps s P E) : x.Ensures s fun _ t => P t :=
  fun _ _ ht => ht.state ▸ h.1

theorem ComesTo.keeps {x y : Action σ α} {s t : σ} (h : x.ComesTo s y t) (hy : y.Keeps t P E) :
    x.Keeps s P E := by
  rw [Keeps, h.1, h.2]
  exact hy

theorem Keeps.bind {x : Action σ α} {f : α → Action σ β} {s : σ} (hx : x.Keeps s P E)
    (hf : ∀ a t, x.Yields s a t → P t → (f a).Keeps t P E) : (x >>= f).Keeps s P E := by
  cases h : x s with
  | mk result t before =>
    rw [Keeps, h] at hx
    cases result with
    | ok a => exact ((Yields.of_eq h).bind_comesTo f).keeps (hf a t (.of_eq h) hx.1)
    | error fault =>
      rw [Keeps, bind_apply_of_error h]
      refine ⟨hx.1, fun found hfound => hx.2 found ?_⟩
      simpa using hfound

theorem bind_lift_keeps {x : Except Fault α} {f : α → Action σ β} {s : σ} (hP : P s)
    (hE : ∀ fault, x = .error fault → E fault) (hf : ∀ a, x = .ok a → (f a).Keeps s P E) :
    ((lift x : Action σ α) >>= f).Keeps s P E := by
  refine Keeps.bind ⟨hP, hE⟩ ?_
  rintro a t ⟨notices, ha⟩ -
  obtain ⟨hx, rfl, -⟩ := Outcome.mk.inj ha
  exact hf a hx

/-- What every item keeps is kept up to the first fault, or to the end of the list. -/
theorem keeps_each {f : ι → Action σ Unit} (step : ∀ i s, P s → (f i).Keeps s P E) {items : List ι}
    {s : σ} (h : P s) : (each f items).Keeps s P E := by
  induction items generalizing s with
  | nil => exact keeps_pure () h
  | cons i rest ih => exact (step i s h).bind fun _ t _ ht => ih ht

end Keeps

/-! ## Two actions in related states -/

section Alike

/-- Two actions, each started in its own state, end with the same value or the same fault and give
the same notices. The states that they leave are related by `R`, and by `E` if it is a fault. -/
structure Alike (x : Action σ α) (s : σ) (y : Action σ α) (t : σ) (R E : σ → σ → Prop) : Prop where
  result : (x s).result = (y t).result
  notices : (x s).notices = (y t).notices
  ok : ∀ a, (x s).result = .ok a → R (x s).state (y t).state
  error : ∀ fault, (x s).result = .error fault → E (x s).state (y t).state

variable {x y : Action σ α} {f g : α → Action σ β} {s t : σ} {R Q E : σ → σ → Prop}

theorem alike_pure (a : α) (h : R s t) : (pure a : Action σ α).Alike s (pure a) t R E :=
  ⟨rfl, rfl, fun _ _ => h, by simp⟩

theorem alike_fail (fault : Fault) (h : E s t) :
    (fail fault : Action σ α).Alike s (fail fault) t R E :=
  ⟨rfl, rfl, by simp, fun _ _ => h⟩

theorem alike_set {s' t' : σ} (h : R s' t') : (set s').Alike s (set t') t R E :=
  ⟨rfl, rfl, fun _ _ => h, by simp⟩

theorem alike_modify {f g : σ → σ} (h : R (f s) (g t)) : (modify f).Alike s (modify g) t R E :=
  ⟨rfl, rfl, fun _ _ => h, by simp⟩

theorem alike_notify (notices : List Notice) (h : R s t) :
    (notify notices).Alike s (notify notices) t R E :=
  ⟨rfl, rfl, fun _ _ => h, by simp⟩

theorem Alike.bind (hx : x.Alike s y t R E)
    (hf : ∀ a s' t', R s' t' → (f a).Alike s' (g a) t' Q E) :
    (x >>= f).Alike s (y >>= g) t Q E := by
  obtain ⟨hresult, hnotices, hok, herror⟩ := hx
  cases h : x s with
  | mk result s' before =>
    cases h' : y t with
    | mk result' t' before' =>
      simp only [h, h'] at hresult hnotices hok herror
      subst hresult hnotices
      cases result with
      | error fault =>
        have hE := herror fault rfl
        refine ⟨?_, ?_, ?_, ?_⟩ <;> rw [bind_apply_of_error h, bind_apply_of_error h']
        · simp
        · exact fun _ _ => hE
      | ok a =>
        obtain ⟨hresult, hnotices, hok, herror⟩ := hf a s' t' (hok a rfl)
        refine ⟨?_, ?_, ?_, ?_⟩ <;> rw [bind_apply_of_ok h, bind_apply_of_ok h']
        · exact hresult
        · exact congrArg (before ++ ·) hnotices
        · exact hok
        · exact herror

theorem Alike.mono (h : x.Alike s y t R E) (hRQ : ∀ s' t', R s' t' → Q s' t') :
    x.Alike s y t Q E :=
  ⟨h.result, h.notices, fun a ha => hRQ _ _ (h.ok a ha), h.error⟩

theorem Alike.of_eq {x' y' : Action σ α} {s' t' : σ} (h : x'.Alike s' y' t' R E)
    (hx : x s = x' s') (hy : y t = y' t') : x.Alike s y t R E := by
  refine ⟨?_, ?_, ?_, ?_⟩ <;> rw [hx, hy]
  · exact h.result
  · exact h.notices
  · exact h.ok
  · exact h.error

/-- Each of the two goes on from its own state. -/
theorem alike_get_bind {f g : σ → Action σ β} (h : (f s).Alike s (g t) t R E) :
    (get >>= f).Alike s (get >>= g) t R E :=
  h.of_eq rfl rfl

theorem alike_set_bind {s' t' : σ} {f g : Unit → Action σ β}
    (h : (f ()).Alike s' (g ()) t' R E) : (set s' >>= f).Alike s (set t' >>= g) t R E :=
  h.of_eq rfl rfl

theorem alike_notify_bind (notices : List Notice) {f g : Unit → Action σ β}
    (h : (f ()).Alike s (g ()) t R E) :
    (notify notices >>= f).Alike s (notify notices >>= g) t R E :=
  (alike_notify (R := fun s' t' => s' = s ∧ t' = t) notices ⟨rfl, rfl⟩).bind
    fun _ _ _ h' => h'.1 ▸ h'.2 ▸ h

/-- What the second one looks up is made of what the first one does. -/
theorem alike_lift_map_bind {v : Except Fault α} {φ : α → α} (hE : E s t)
    (hf : ∀ a, v = .ok a → (f a).Alike s (g (φ a)) t R E) :
    ((lift v : Action σ α) >>= f).Alike s (lift (v.map φ) >>= g) t R E := by
  cases v with
  | error fault =>
    have hfail : (fail fault : Action σ β).Alike s (fail fault) t R E := alike_fail fault hE
    exact hfail.of_eq rfl rfl
  | ok a => exact (hf a rfl).of_eq rfl rfl

/-- Both look up the same. -/
theorem alike_lift_bind {v w : Except Fault α} (h : w = v) (hE : E s t)
    (hf : ∀ a, v = .ok a → (f a).Alike s (g a) t R E) :
    ((lift v : Action σ α) >>= f).Alike s (lift w >>= g) t R E := by
  have hmap : ((lift v : Action σ α) >>= f).Alike s (lift (v.map id) >>= g) t R E :=
    alike_lift_map_bind hE hf
  rw [Except.map_id] at hmap
  exact h ▸ hmap

/-- An invariant of two runs through a list, `P k` holding after the first `k` items. -/
theorem alike_each_at {f g : ι → Action σ Unit} {items : List ι} (P : Nat → σ → σ → Prop)
    (start : P 0 s t)
    (step : ∀ k i s t, items[k]? = some i → P k s t → (f i).Alike s (g i) t (P (k + 1)) E) :
    (each f items).Alike s (each g items) t (P items.length) E := by
  induction items generalizing P s t with
  | nil => exact alike_pure () start
  | cons i rest ih =>
    refine (step 0 i s t rfl start).bind fun _ s' t' h => ?_
    exact ih (fun k => P (k + 1)) h fun k j s t hj hP => step (k + 1) j s t (by simpa using hj) hP

end Alike

end Action

end Interleaving
