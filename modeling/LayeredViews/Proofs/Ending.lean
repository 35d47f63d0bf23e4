/-!
# Endings — what a computation with a state gives, and where it leaves the state

`ending x s` puts the two ways in which `x` can end from `s` into one pair, so that statements about
runs need no case for each way.  There is one rule for each form of program.
-/

namespace LayeredViews

variable {ε ε' σ α β : Type}

/-- What a computation gives, and the state in which it ends. -/
def ending (x : EStateM ε σ α) (s : σ) : Except ε α × σ :=
  match x s with
  | .ok a s' => (.ok a, s')
  | .error e s' => (.error e, s')

theorem ending_get_bind (f : σ → EStateM ε σ α) (s : σ) :
    ending (do f (← get)) s = ending (f s) s := rfl

theorem ending_bind (x : EStateM ε σ α) (f : α → EStateM ε σ β) (s : σ) :
    ending (x >>= f) s =
      match ending x s with
      | (.ok a, s') => ending (f a) s'
      | (.error e, s') => (.error e, s') := by
  show ending (EStateM.bind x f) s = _
  unfold ending EStateM.bind
  cases x s <;> simp only

theorem ending_bind_ok {x : EStateM ε σ α} {s s' : σ} {a : α} (h : ending x s = (.ok a, s'))
    (f : α → EStateM ε σ β) : ending (x >>= f) s = ending (f a) s' := by
  rw [ending_bind, h]

theorem ending_bind_error {x : EStateM ε σ α} {s s' : σ} {e : ε} (h : ending x s = (.error e, s'))
    (f : α → EStateM ε σ β) : ending (x >>= f) s = (.error e, s') := by
  rw [ending_bind, h]

theorem ending_bind_eq_ok_iff {x : EStateM ε σ α} {f : α → EStateM ε σ β} {s s' : σ} {b : β} :
    ending (x >>= f) s = (.ok b, s') ↔ ∃ a t, ending x s = (.ok a, t) ∧ ending (f a) t = (.ok b, s') := by
  rw [ending_bind]
  rcases ending x s with ⟨_ | a, t⟩
  · simp
  · exact ⟨fun h => ⟨a, t, rfl, h⟩, by rintro ⟨_, _, ⟨⟩, h⟩; exact h⟩

theorem ending_adaptExcept (f : ε → ε') (x : EStateM ε σ α) (s : σ) :
    ending (x.adaptExcept f) s = ((ending x s).1.mapError f, (ending x s).2) := by
  unfold ending EStateM.adaptExcept
  cases x s <;> rfl

theorem ending_adaptExcept_ok {x : EStateM ε σ α} {s s' : σ} {a : α}
    (h : ending x s = (.ok a, s')) (f : ε → ε') : ending (x.adaptExcept f) s = (.ok a, s') := by
  rw [ending_adaptExcept, h]
  rfl

theorem ending_adaptExcept_error {x : EStateM ε σ α} {s s' : σ} {e : ε}
    (h : ending x s = (.error e, s')) (f : ε → ε') :
    ending (x.adaptExcept f) s = (.error (f e), s') := by
  rw [ending_adaptExcept, h]
  rfl

end LayeredViews
