import LayeredViews.Proofs.Output.Account
import LayeredViews.Proofs.Render.Serving

/-!
# Phases — where a session stands when it has ended

What a render gives tells the phase its session should end in (`phaseOf`).  Every way out of a render enters that
phase first, except one: the sink may refuse the rest of the output, or its flush, after the layers have run, and
the session is then still executing.  `settled_run_iff` says that there is no other exception.
-/

namespace LayeredViews

/-! ### Steps that keep the phase -/

/-- Ends in the phase in which it starts. -/
def KeepsPhase {ε α : Type} (x : EStateM ε State α) : Prop :=
  ∀ st, (ending x st).2.phase = st.phase

namespace KeepsPhase

variable {ε ε' α β : Type}

theorem bind {x : EStateM ε State α} {f : α → EStateM ε State β} (hx : KeepsPhase x)
    (hf : ∀ a, KeepsPhase (f a)) : KeepsPhase (x >>= f) := by
  intro st
  have hfirst := hx st
  rw [ending_bind]
  rcases hr : ending x st with ⟨e | a, st'⟩ <;> rw [hr] at hfirst
  · exact hfirst
  · exact (hf a st').trans hfirst

theorem adaptExcept {x : EStateM ε State α} (hx : KeepsPhase x) (f : ε → ε') :
    KeepsPhase (x.adaptExcept f) := by
  intro st
  rw [ending_adaptExcept]
  exact hx st

theorem search (raises : Nat → Address → Bool) (x : Search α) : KeepsPhase (State.search raises x) := by
  intro st
  rw [State.ending_search]
  dsimp only
  induction (ending x .empty).2.toList generalizing st with
  | nil => rfl
  | cons a asked ih => exact ih (State.noteLookup raises st a)

theorem compose (x : Compose α) : KeepsPhase (State.compose x) := by
  intro st
  rw [State.ending_compose]

theorem partialLayers (s : Session) (name : String) : KeepsPhase (s.partialLayers name) :=
  ((search s.raises _).adaptExcept _).bind fun layering =>
    (compose (Compose.layers layering)).adaptExcept _

end KeepsPhase

theorem keepsPhase_closed (s : Session) : Render.Closed s KeepsPhase where
  pure _ _ := rfl
  bind := .bind
  fault _ _ _ _ := rfl
  withBag _ hf st := hf st.bag st
  setBag _ _ := rfl
  write text st := by rw [Render.ending_writeText]; rfl
  check st := by
    rw [Render.ending_checkCancelled]
    split_ifs <;> rfl
  start _ _ _ := rfl
  partialLayers := .partialLayers s

namespace Session

/-! ### Phases that match results -/

/-- The phase that matches what a render gives. -/
def phaseOf : Except RenderError Outcome → Phase
  | .ok (.completed _) => .completed
  | .ok (.diagnosticPage _) => .failed
  | .error _ => .failed

/-- A render that has ended in the phase that matches what it gives. -/
def Settled (render : Except RenderError Outcome × State) : Prop :=
  render.2.phase = phaseOf render.1

theorem phaseOf_eq_completed_iff (result : Except RenderError Outcome) :
    phaseOf result = .completed ↔ ∃ bytes, result = .ok (.completed bytes) := by
  rcases result with e | bytes | f <;> simp [phaseOf]

theorem not_settled_of_executing {render : Except RenderError Outcome × State}
    (h : render.2.phase = .executing) : ¬ Settled render := by
  unfold Settled
  rw [h]
  rcases render.1 with e | bytes | f <;> simp [phaseOf]

/-- The view can be resolved and composed and its layers run to their end, but then the sink refuses what is left of
the output, or its flush. -/
def Unfinished (s : Session) (start : State) : Prop :=
  ∃ layers st st', s.composed? start = some (layers, st) ∧
    ending (Render.runLayers s.scene layers) st = (.ok (), st') ∧
      (st'.out.buffer ≠ "" ∧ st'.out.sink.failsOn (st'.out.sink.writeCalls + 1) = true ∨
        st'.out.sink.flushFails = true)

variable {s : Session}

/-! ### Ways out of a render -/

/-- The page of a failure is written in the failed phase, and the sink may refuse it. -/
theorem settled_showFailure (f : Failure) (st : State) : Settled (ending (showFailure f) st) := by
  rw [ending_showFailure]
  unfold showPage
  rcases onOutput_bind_cases (Output.write f.page) (fun _ => do
    let _ ← onOutput Output.finish
    return .diagnosticPage f) { st with phase := .failed, out := st.out.discard.2 } with
    ⟨fault, out, hwrite⟩ | ⟨_, out, hwrite⟩ <;> rw [hwrite]
  · rfl
  rcases onOutput_bind_cases Output.finish (fun _ => pure (.diagnosticPage f)) _ with
    ⟨fault, out', hfinish⟩ | ⟨_, out', hfinish⟩ <;> rw [hfinish] <;> rfl

theorem settled_executionFailed (e : ExecError) (st : State) :
    Settled (ending (s.executionFailed e) st) := by
  rw [ending_executionFailed]
  split
  · exact settled_showFailure _ st
  · rfl

/-- Has failed whenever it ends with an error. -/
def FailsEntered {α : Type} (x : Run α) : Prop :=
  ∀ st e st', ending x st = (.error e, st') → st'.phase = .failed

theorem FailsEntered.bind {α β : Type} {x : Run α} {f : α → Run β} (hx : FailsEntered x)
    (hf : ∀ a, FailsEntered (f a)) : FailsEntered (x >>= f) := by
  intro st e st' h
  rw [ending_bind] at h
  rcases hr : ending x st with ⟨e' | a, st₁⟩ <;> rw [hr] at h
  · obtain ⟨-, rfl⟩ := Prod.mk.inj h
    exact hx st e' st₁ hr
  · exact hf a st₁ e st' h

theorem failsEntered_fatal {α : Type} (e : RenderError) : FailsEntered (fatal e : Run α) := by
  intro st e' st' h
  rw [ending_fatal] at h
  rw [← (Prod.mk.inj h).2]

theorem failsEntered_attempt {ε α : Type} (x : EStateM ε State α) : FailsEntered (attempt x) := by
  intro st e st' h
  rw [ending_attempt] at h
  cases h

/-- A view that cannot be resolved fails. -/
theorem failsEntered_resolve (s : Session) : FailsEntered s.resolve := by
  intro st e st' h
  rw [ending_resolve] at h
  refine (?_ : FailsEntered (s.resolveUnless _)) _ e st' h
  unfold resolveUnless
  split
  · exact failsEntered_fatal _
  refine (failsEntered_attempt _).bind fun result => ?_
  rcases result with (_ | _) | layering
  · exact failsEntered_fatal _
  · exact failsEntered_fatal _
  · exact fun _ _ _ h => by cases h

/-- A render that does not come to its layers is settled. -/
theorem settled_of_not_composed {start : State} (h : s.composed? start = none) :
    Settled (ending s.run start) := by
  have hprepare := s.ending_prepare start
  unfold composed? at h
  rcases hresolve : ending s.resolve start with ⟨e | layering, st⟩ <;> rw [hresolve] at h hprepare
  · rw [ending_run_of_prepare_error hprepare]
    exact s.failsEntered_resolve start e st hresolve
  · dsimp only at h hprepare
    rcases hcompose : ending (Compose.layers layering) st.bench with ⟨c | layers, bench⟩ <;>
      rw [hcompose] at h hprepare
    · rw [run_eq, ending_bind_ok hprepare]
      cases c with
      | failure f => exact settled_showFailure f _
      | content e => rfl
    · cases h

/-- A render whose layers have run is settled if its output can be finished, and otherwise still executing. -/
theorem complete_settles {st : State} (hphase : st.phase = .executing) :
    ((∃ n, (ending Output.finish st.out).1 = .ok n) → Settled (ending complete st)) ∧
      ((¬ ∃ n, (ending Output.finish st.out).1 = .ok n) →
        (∃ fault, (ending complete st).1 = .error (.sink fault)) ∧
          (ending complete st).2.phase = .executing) := by
  have hfinish := ending_onOutput st Output.finish
  rcases hr : (ending Output.finish st.out).1 with fault | n <;> rw [hr] at hfinish
  · have hend : ending complete st = (.error (.sink fault), _) := ending_bind_error hfinish _
    rw [hend]
    refine ⟨fun hn => ?_, fun _ => ⟨⟨fault, rfl⟩, hphase⟩⟩
    obtain ⟨n, hn⟩ := hn
    cases hn
  · have hend : ending complete st = (.ok (.completed n), _) := ending_bind_ok hfinish _
    rw [hend]
    exact ⟨fun _ => rfl, fun hrefused => absurd ⟨n, rfl⟩ hrefused⟩

/-! ### Whole renders -/

theorem unfinished_iff {start st st' : State} {layers : List Layer} {r : Except ExecError Unit}
    (hcomposed : s.composed? start = some (layers, st))
    (hlayers : ending (Render.runLayers s.scene layers) st = (r, st')) :
    s.Unfinished start ↔ r = .ok () ∧ ¬ ∃ n, (ending Output.finish st'.out).1 = .ok n := by
  rw [Output.finish_refused_iff]
  constructor
  · rintro ⟨layers', st₁, st₂, hsome, hrun, hrefuses⟩
    rw [hcomposed] at hsome
    obtain ⟨rfl, rfl⟩ := Prod.mk.inj (Option.some.inj hsome)
    rw [hlayers] at hrun
    obtain ⟨rfl, rfl⟩ := Prod.mk.inj hrun
    exact ⟨rfl, hrefuses⟩
  · rintro ⟨rfl, hrefuses⟩
    exact ⟨layers, st, st', hcomposed, hlayers, hrefuses⟩

/-- A render is settled, unless its output cannot be finished after its layers have run. -/
theorem run_settles (s : Session) (start : State) :
    ¬ s.Unfinished start ∧ Settled (ending s.run start) ∨
      s.Unfinished start ∧ (∃ fault, (ending s.run start).1 = .error (.sink fault)) ∧
        (ending s.run start).2.phase = .executing := by
  rcases hcomposed : s.composed? start with _ | ⟨layers, st⟩
  · refine Or.inl ⟨?_, settled_of_not_composed hcomposed⟩
    rintro ⟨layers, st, st', hsome, -⟩
    rw [hcomposed] at hsome
    cases hsome
  have hexecuting : st.phase = .executing := phase_composed hcomposed
  have hentered : { st with phase := .executing } = st := by rw [← hexecuting]
  have hkept := (keepsPhase_closed s).layers layers st
  rw [ending_run_composed hcomposed, ending_execute, hentered]
  rcases hlayers : ending (Render.runLayers s.scene layers) st with ⟨e | u, st'⟩ <;> rw [hlayers] at hkept
  · refine Or.inl ⟨fun hunfinished => ?_, settled_executionFailed e st'⟩
    have hok := ((unfinished_iff hcomposed hlayers).mp hunfinished).1
    cases hok
  · obtain ⟨hsettled, hstuck⟩ := complete_settles (hkept.trans hexecuting)
    by_cases hfinishes : ∃ n, (ending Output.finish st'.out).1 = .ok n
    · refine Or.inl ⟨fun hunfinished => ?_, hsettled hfinishes⟩
      exact ((unfinished_iff hcomposed hlayers).mp hunfinished).2 hfinishes
    · exact Or.inr ⟨(unfinished_iff hcomposed hlayers).mpr ⟨rfl, hfinishes⟩, hstuck hfinishes⟩

/-- A session ends as completed exactly if its render is completed.  It ends as failed in every other case but one:
if the layers have run and the sink then refuses what is left of the output, or its flush, the refusal is what the
render gives and the session is still executing. -/
theorem settled_run_iff (s : Session) (sink : Sink) (flag : Bool) (bench : Bench) :
    let start := s.start sink flag bench
    let render := ending s.run start
    (render.2.phase = .completed ↔ ∃ bytes, render.1 = .ok (.completed bytes)) ∧
      (Settled render ↔ ¬ s.Unfinished start) ∧
      (s.Unfinished start →
        (∃ fault, render.1 = .error (.sink fault)) ∧ render.2.phase = .executing) := by
  intro start render
  rcases s.run_settles start with ⟨hfinished, hsettled⟩ | ⟨hunfinished, ⟨fault, hrefused⟩, hphase⟩
  · refine ⟨?_, iff_of_true hsettled hfinished, fun hunfinished => absurd hunfinished hfinished⟩
    rw [← phaseOf_eq_completed_iff, ← hsettled]
  · have hstuck : ¬ Settled render := not_settled_of_executing hphase
    refine ⟨?_, iff_of_false hstuck (not_not_intro hunfinished), fun _ => ⟨⟨fault, hrefused⟩, hphase⟩⟩
    rw [hphase, hrefused]
    simp

/-- Renders a page of a few letters. -/
def shortPage : Session where
  catalog :=
    { locate := fun _ a => .ok (if a.name = "page" then some ⟨a, "html", .text "hi"⟩ else none)
      list := fun _ => .ok [] }
  settings := .default
  view := "page"
  model := .obj []
  heedsFlag := true
  raises _ _ := false

/-- A sink that refuses the only call of a render leaves its session executing. -/
theorem not_settled_shortPage :
    let start := shortPage.start (.new (· == 1) false fun _ => false) false .empty
    shortPage.Unfinished start ∧ ¬ Settled (ending shortPage.run start) := by
  intro start
  have hphase : (ending shortPage.run start).2.phase = .executing := by decide +kernel
  have hstuck := not_settled_of_executing hphase
  refine ⟨?_, hstuck⟩
  by_contra hfinished
  exact hstuck ((settled_run_iff shortPage _ false .empty).2.1.mpr hfinished)

end Session

end LayeredViews
