import LayeredViews.Proofs.Output.Carried
import LayeredViews.Proofs.Render.Closed

/-!
# Writing — which steps of a render touch its output

Most steps of a render neither look at the output nor change it: they do the same on any output
(`Apart`).  A look at the cancel flag depends on whether the sink has raised it, and a write is a write on
the output alone.
-/

namespace LayeredViews

namespace State

/-- The state with another output. -/
def withOut (st : State) (out : Output) : State := { st with out }

variable (st : State) (out out' : Output)

@[simp] theorem withOut_out : (st.withOut out).out = out := rfl

@[simp] theorem withOut_bench : (st.withOut out).bench = st.bench := rfl

theorem withOut_noteLookup (raises : Nat → Address → Bool) (a : Address) :
    noteLookup raises (st.withOut out) a = (noteLookup raises st a).withOut out := rfl

theorem out_noteLookups (raises : Nat → Address → Bool) (asked : List Address) :
    (asked.foldl (noteLookup raises) st).out = st.out := by
  induction asked generalizing st with
  | nil => rfl
  | cons a asked ih =>
    rw [List.foldl_cons, ih]
    rfl

theorem withOut_noteLookups (raises : Nat → Address → Bool) (asked : List Address) :
    asked.foldl (noteLookup raises) (st.withOut out) =
      (asked.foldl (noteLookup raises) st).withOut out := by
  induction asked generalizing st with
  | nil => rfl
  | cons a asked ih => rw [List.foldl_cons, List.foldl_cons, withOut_noteLookup, ih]

end State

/-! ### Steps on a part of the state -/

theorem State.ending_search {α : Type} (raises : Nat → Address → Bool) (x : Search α) (st : State) :
    ending (search raises x) st =
      ((ending x .empty).1, (ending x .empty).2.toList.foldl (noteLookup raises) st) := by
  unfold ending search EStateM.run
  cases x .empty <;> rfl

theorem State.ending_compose {α : Type} (x : Compose α) (st : State) :
    ending (compose x) st = ((ending x st.bench).1, { st with bench := (ending x st.bench).2 }) := by
  unfold ending compose EStateM.run
  cases x st.bench <;> rfl

theorem State.ending_write {α : Type} (x : Output.Write α) (st : State) :
    ending (write x) st = ((ending x st.out).1, st.withOut (ending x st.out).2) := by
  unfold ending write EStateM.run
  cases x st.out <;> rfl

theorem Render.ending_writeText (text : String) (st : State) :
    ending (writeText text) st =
      ((ending (Output.write text) st.out).1.mapError .sink,
        st.withOut (ending (Output.write text) st.out).2) := by
  unfold writeText
  rw [ending_adaptExcept, State.ending_write]

/-- A sink that refuses no call takes whatever is written. -/
theorem Render.ending_writeText_accepting {sink : Sink} {limit : Nat} {before : String} {st : State}
    (h : Output.Carries sink limit before st.out) (hsink : sink.Accepting) (text : String) :
    ∃ out, ending (writeText text) st = (.ok (), st.withOut out) ∧
      Output.Carries sink limit (before ++ text) out := by
  rw [ending_writeText]
  rcases h.write text with ⟨out, hout, h'⟩ | ⟨hn, -⟩
  · exact ⟨out, by rw [hout]; rfl, h'⟩
  · exact absurd hsink hn

theorem Render.ending_checkCancelled (heeds : Bool) (st : State) :
    ending (checkCancelled heeds) st =
      if heeds && st.cancelRequested then (.error .cancelled, st.note .refused) else (.ok (), st) := by
  unfold ending checkCancelled
  split_ifs <;> rfl

/-! ### Steps apart from the output -/

/-- A computation that leaves the output as it is and does the same on any other output. -/
structure Apart {ε α : Type} (x : EStateM ε State α) : Prop where
  out_eq : ∀ st, (ending x st).2.out = st.out
  on_withOut : ∀ st out, ending x (st.withOut out) = ((ending x st).1, (ending x st).2.withOut out)

namespace Apart

variable {ε ε' α β : Type}

theorem pure (a : α) : Apart (Pure.pure a : EStateM ε State α) :=
  ⟨fun _ => rfl, fun _ _ => rfl⟩

theorem throw (e : ε) : Apart (MonadExcept.throw e : EStateM ε State α) :=
  ⟨fun _ => rfl, fun _ _ => rfl⟩

theorem bind {x : EStateM ε State α} {f : α → EStateM ε State β} (hx : Apart x)
    (hf : ∀ a, Apart (f a)) : Apart (x >>= f) where
  out_eq st := by
    have h := hx.out_eq st
    rw [ending_bind]
    rcases hr : ending x st with ⟨_ | a, st'⟩
    · simpa [hr] using h
    · rw [hr] at h
      exact ((hf a).out_eq st').trans h
  on_withOut st out := by
    rw [ending_bind, ending_bind, hx.on_withOut]
    rcases ending x st with ⟨_ | a, st'⟩
    · rfl
    · exact (hf a).on_withOut st' out

theorem adaptExcept {x : EStateM ε State α} (hx : Apart x) (f : ε → ε') :
    Apart (x.adaptExcept f) where
  out_eq st := by
    rw [ending_adaptExcept]
    exact hx.out_eq st
  on_withOut st out := by rw [ending_adaptExcept, ending_adaptExcept, hx.on_withOut]

theorem search (raises : Nat → Address → Bool) (x : Search α) : Apart (State.search raises x) where
  out_eq st := by
    rw [State.ending_search]
    exact st.out_noteLookups raises _
  on_withOut st out := by rw [State.ending_search, State.ending_search, State.withOut_noteLookups]

theorem compose (x : Compose α) : Apart (State.compose x) where
  out_eq st := by rw [State.ending_compose]
  on_withOut st out := by
    rw [State.ending_compose, State.ending_compose]
    rfl

theorem partialLayers (s : Session) (name : String) : Apart (s.partialLayers name) :=
  bind ((search s.raises _).adaptExcept _) fun layering =>
    (compose (Compose.layers layering)).adaptExcept _

end Apart

/-! ### Where errors come from -/

/-- A partial view that cannot be found, read or compiled gives no other error. -/
theorem partialLayers_error {s : Session} {name : String} {st : State} {e : ExecError}
    (h : (ending (s.partialLayers name) st).1 = .error e) :
    e = .notFound name ∨ (∃ c, e = .content c) ∨ ∃ f, e = .compilation f := by
  unfold Session.partialLayers at h
  rcases hs : ending (State.search s.raises (s.resolvePartial name)) st with ⟨c | layering, st'⟩
  · rw [ending_bind_error (ending_adaptExcept_error hs _)] at h
    obtain rfl := Except.error.inj h
    cases c with
    | notFound path => exact Or.inl rfl
    | unavailable path fault => exact Or.inr (Or.inl ⟨_, rfl⟩)
  · rw [ending_bind_ok (ending_adaptExcept_ok hs _)] at h
    rcases hc : ending (State.compose (Compose.layers layering)) st' with ⟨c | layers, st''⟩
    · rw [ending_adaptExcept_error hc] at h
      obtain rfl := Except.error.inj h
      cases c with
      | failure f => exact Or.inr (Or.inr ⟨f, rfl⟩)
      | content c => exact Or.inr (Or.inl ⟨c, rfl⟩)
    · rw [ending_adaptExcept_ok hc] at h
      cases h

/-- Ends as cancelled only if it heeds the cancel flag and that is raised. -/
def CancelledIfRequested (heeds : Bool) {α : Type} (x : Render α) : Prop :=
  ∀ st, (ending x st).1 = .error .cancelled →
    heeds = true ∧ (ending x st).2.cancelRequested = true

theorem cancelledIfRequested_closed (s : Session) :
    Render.Closed s (CancelledIfRequested s.heedsFlag) where
  pure a st h := by cases h
  bind {α β x f} hx hf st h := by
    rw [ending_bind] at h ⊢
    rcases hr : ending x st with ⟨e | a, st'⟩
    · rw [hr] at h
      obtain rfl := Except.error.inj h
      simpa [hr] using hx st (by rw [hr])
    · rw [hr] at h
      exact hf a st' h
  fault template pos f st h := by cases h
  withBag f hf st h := hf st.bag st h
  setBag f st h := by cases h
  write text st h := by
    rw [Render.ending_writeText] at h
    rcases hr : (ending (Output.write text) st.out).1 with e | a <;> rw [hr] at h <;> cases h
  check st h := by
    rw [Render.ending_checkCancelled] at h ⊢
    split_ifs at h ⊢ with hc
    exact Bool.and_eq_true_iff.mp hc
  start template depth st h := by cases h
  partialLayers name st h := by
    rcases partialLayers_error h with h | ⟨c, h⟩ | ⟨f, h⟩ <;> cases h

/-- Keeps what its output carries, unless the sink refuses a chunk. -/
def KeepsCarrying (sink : Sink) (limit : Nat) {α : Type} (x : Render α) : Prop :=
  ∀ st text, Output.Carries sink limit text st.out →
    (∃ text', Output.Carries sink limit text' (ending x st).2.out ∧
        ∀ fault, (ending x st).1 ≠ .error (.sink fault)) ∨
      ¬ sink.Accepting ∧ ∃ fault, (ending x st).1 = .error (.sink fault)

theorem Apart.keepsCarrying {α : Type} {x : Render α} (hx : Apart x)
    (he : ∀ st fault, (ending x st).1 ≠ .error (.sink fault)) (sink : Sink) (limit : Nat) :
    KeepsCarrying sink limit x := by
  intro st text h
  rw [← hx.out_eq st] at h
  exact Or.inl ⟨text, h, he st⟩

theorem keepsCarrying_closed (s : Session) (sink : Sink) (limit : Nat) :
    Render.Closed s (KeepsCarrying sink limit) where
  pure a := (Apart.pure a).keepsCarrying (fun _ _ => nofun) sink limit
  bind {α β x f} hx hf st text h := by
    rw [ending_bind]
    have hx := hx st text h
    rcases hr : ending x st with ⟨e | a, st'⟩ <;> rw [hr] at hx
    · simpa using hx
    · rcases hx with ⟨text', h', -⟩ | ⟨-, fault, hfault⟩
      · exact hf a st' text' h'
      · cases hfault
  fault _ _ _ := (Apart.throw _).keepsCarrying (fun _ _ h => by cases h) sink limit
  withBag f hf st text h := hf st.bag st text h
  setBag f st text h := Or.inl ⟨text, h, fun _ => nofun⟩
  write more st text h := by
    rw [Render.ending_writeText]
    rcases h.write more with ⟨out, hout, h'⟩ | ⟨hn, out, hout⟩
    · rw [hout]
      exact Or.inl ⟨text ++ more, h', fun _ => nofun⟩
    · rw [hout]
      exact Or.inr ⟨hn, .closed, rfl⟩
  check st text h := by
    rw [Render.ending_checkCancelled]
    split_ifs
    · exact Or.inl ⟨text, h, fun _ => nofun⟩
    · exact Or.inl ⟨text, h, fun _ => nofun⟩
  start template depth st text h := Or.inl ⟨text, h, fun _ => nofun⟩
  partialLayers name := by
    refine (Apart.partialLayers s name).keepsCarrying (fun st fault h => ?_) sink limit
    rcases partialLayers_error h with h | ⟨c, h⟩ | ⟨f, h⟩ <;> cases h

end LayeredViews
