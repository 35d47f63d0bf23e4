import LayeredViews.Proofs.Ending

/-!
# Related states — programs that give the same from either of two states

`Respects r x` is a simulation of a program by itself: from states that `r` relates it gives one result
and leaves states that `r` relates.  Sequencing keeps it, and the second program needs it only for
results that the first one can give.  `Matches r g x y` is the same for two programs, whose errors need only
be the same as far as `g` tells.
-/

namespace LayeredViews

/-- Gives the same from related states, and leaves them related. -/
def Respects {ε σ α : Type} (r : σ → σ → Prop) (x : EStateM ε σ α) : Prop :=
  ∀ s s', r s s' → (ending x s).1 = (ending x s').1 ∧ r (ending x s).2 (ending x s').2

namespace Respects

variable {ε ε' σ α β : Type} {r : σ → σ → Prop}

theorem pure (a : α) : Respects r (pure a : EStateM ε σ α) :=
  fun _ _ h => ⟨rfl, h⟩

theorem throw (e : ε) : Respects r (throw e : EStateM ε σ α) :=
  fun _ _ h => ⟨rfl, h⟩

theorem modify {f : σ → σ} (hf : ∀ s s', r s s' → r (f s) (f s')) :
    Respects r (modify f : EStateM ε σ PUnit) :=
  fun s s' h => ⟨rfl, hf s s' h⟩

theorem bind_of {x : EStateM ε σ α} {f : α → EStateM ε σ β} (hx : Respects r x)
    (hf : ∀ a s, (ending x s).1 = .ok a → Respects r (f a)) : Respects r (x >>= f) := by
  intro s s' h
  obtain ⟨hresult, hstates⟩ := hx s s' h
  have hf := fun a => hf a s
  rw [ending_bind, ending_bind]
  rcases hs : ending x s with ⟨e | a, t⟩ <;> rcases hs' : ending x s' with ⟨e' | a', t'⟩ <;>
    rw [hs, hs'] at hresult hstates <;> rw [hs] at hf <;> cases hresult
  · exact ⟨rfl, hstates⟩
  · exact hf a rfl t t' hstates

theorem bind {x : EStateM ε σ α} {f : α → EStateM ε σ β} (hx : Respects r x)
    (hf : ∀ a, Respects r (f a)) : Respects r (x >>= f) :=
  hx.bind_of fun a _ _ => hf a

theorem adaptExcept {x : EStateM ε σ α} (hx : Respects r x) (f : ε → ε') :
    Respects r (x.adaptExcept f) := by
  intro s s' h
  obtain ⟨hresult, hstates⟩ := hx s s' h
  rw [ending_adaptExcept, ending_adaptExcept, hresult]
  exact ⟨rfl, hstates⟩

/-- Looking at a part of the state that related states share. -/
theorem get_bind {τ : Type} (part : σ → τ) (hpart : ∀ s s', r s s' → part s = part s')
    {f : τ → EStateM ε σ α} (hf : ∀ t, Respects r (f t)) :
    Respects r (do f (part (← get))) := by
  intro s s' h
  rw [ending_get_bind fun s => f (part s), ending_get_bind fun s => f (part s), hpart s s' h]
  exact hf (part s') s s' h

end Respects

/-- Two programs that give the same from related states, but for what `g` leaves out of errors, and leave
them related. -/
def Matches {ε κ σ α : Type} (r : σ → σ → Prop) (g : ε → κ) (x y : EStateM ε σ α) : Prop :=
  ∀ s s', r s s' →
    (ending x s).1.mapError g = (ending y s').1.mapError g ∧ r (ending x s).2 (ending y s').2

theorem Respects.matches {ε κ σ α : Type} {r : σ → σ → Prop} {x : EStateM ε σ α}
    (hx : Respects r x) (g : ε → κ) : Matches r g x x := by
  intro s s' h
  obtain ⟨hresult, hstates⟩ := hx s s' h
  exact ⟨congrArg (Except.mapError g) hresult, hstates⟩

namespace Matches

variable {ε κ σ α β : Type} {r : σ → σ → Prop} {g : ε → κ}

theorem pure (a : α) : Matches r g (pure a : EStateM ε σ α) (pure a) :=
  fun _ _ h => ⟨rfl, h⟩

theorem throw {e e' : ε} (he : g e = g e') :
    Matches r g (throw e : EStateM ε σ α) (throw e') :=
  fun _ _ h => ⟨congrArg Except.error he, h⟩

theorem bind_of {x y : EStateM ε σ α} {f f' : α → EStateM ε σ β} (hx : Matches r g x y)
    (hf : ∀ a s s' t, r s s' → ending x s = (.ok a, t) → Matches r g (f a) (f' a)) :
    Matches r g (x >>= f) (y >>= f') := by
  intro s s' h
  obtain ⟨hresult, hstates⟩ := hx s s' h
  have hf := fun a t => hf a s s' t h
  rw [ending_bind, ending_bind]
  rcases hs : ending x s with ⟨e | a, t⟩ <;> rcases hs' : ending y s' with ⟨e' | a', t'⟩ <;>
    rw [hs, hs'] at hresult hstates
  · exact ⟨congrArg Except.error (Except.error.inj hresult), hstates⟩
  · cases hresult
  · cases hresult
  · obtain rfl := Except.ok.inj hresult
    exact hf a t hs t t' hstates

theorem bind {x y : EStateM ε σ α} {f f' : α → EStateM ε σ β} (hx : Matches r g x y)
    (hf : ∀ a, Matches r g (f a) (f' a)) : Matches r g (x >>= f) (y >>= f') :=
  hx.bind_of fun a _ _ _ _ _ => hf a

/-- Programs whose errors are the same altogether give the same. -/
theorem result_eq {x y : EStateM ε σ α} (h : Matches r id x y) {s s' : σ} (hs : r s s') :
    (ending x s).1 = (ending y s').1 := by
  have hresult := (h s s' hs).1
  revert hresult
  cases (ending x s).1 <;> cases (ending y s').1 <;> exact id

/-- A program whose errors are the same altogether respects the relation. -/
theorem respects {x : EStateM ε σ α} (h : Matches r id x x) : Respects r x :=
  fun s s' hs => ⟨h.result_eq hs, (h s s' hs).2⟩

/-- The first program may begin with a step that does not count. -/
theorem skip {x : EStateM ε σ Unit} {y z : EStateM ε σ α}
    (hx : ∀ s s', r s s' → ∃ t, ending x s = (.ok (), t) ∧ r t s') (hy : Matches r g y z) :
    Matches r g (x >>= fun _ => y) z := by
  intro s s' h
  obtain ⟨t, ht, hstates⟩ := hx s s' h
  rw [ending_bind_ok ht]
  exact hy t s' hstates

theorem symm {x y : EStateM ε σ α} (hr : ∀ s s', r s s' → r s' s) (h : Matches r g x y) :
    Matches r g y x := by
  intro s s' hs
  obtain ⟨hresult, hstates⟩ := h s' s (hr s s' hs)
  exact ⟨hresult.symm, hr _ _ hstates⟩

end Matches

end LayeredViews
