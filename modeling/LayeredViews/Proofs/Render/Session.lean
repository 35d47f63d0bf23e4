import LayeredViews.Proofs.Render.Writing

/-!
# Sessions step by step — how a render ends, by how its parts end

A render that resolves and composes ends as its layers and its output let it: `ending_run_composed`
and `ending_execute` lead to them, `ending_executionFailed` says what becomes of an error, and
`complete_cases` and `showFailure_cases` what the sink makes of a render that ends well.  `complete_ends`,
`showFailure_ends` and `executionFailed_ends` say how the last step may end on any output.
-/

namespace LayeredViews

/-- The failure that an execution error shows if nothing is committed. -/
def ExecError.failure? : ExecError → Option Failure
  | .compilation f => some f
  | .runtime template pos fault =>
    some ⟨template, .execution, [Template.diagnosticAt pos fault.message]⟩
  | _ => none

namespace Session

/-- What an execution error is to the caller of a render that shows no failure. -/
def errorOf (s : Session) (committed : Bool) : ExecError → RenderError
  | .cancelled => .cancelled s.view committed
  | .content e => .content e
  | .sink fault => .sink fault
  | .notFound name =>
    if committed then .committed s.view (.notFound name) else .viewNotFound name
  | e => .committed s.view e

variable {ε α : Type} (s : Session) (st : State)

theorem ending_enter (phase : Phase) : ending (enter phase) st = (.ok (), { st with phase }) := rfl

theorem ending_fatal (e : RenderError) :
    ending (fatal e : Run α) st = (.error e, { st with phase := .failed }) := rfl

theorem ending_attempt (x : EStateM ε State α) :
    ending (attempt x) st = (.ok (ending x st).1, (ending x st).2) := by
  unfold ending attempt EStateM.run
  cases x st <;> rfl

theorem ending_onOutput (x : Output.Write α) :
    ending (onOutput x) st = ((ending x st.out).1.mapError .sink, st.withOut (ending x st.out).2) := by
  unfold onOutput
  rw [ending_adaptExcept, State.ending_write]

/-! ### Before the layers run -/

/-- Resolves the view, unless the render has been cancelled. -/
def resolveUnless (s : Session) (cancelled : Bool) : Run Layering := do
  if cancelled then fatal (.cancelled s.view false)
  else
    match ← attempt (State.search s.raises
        (Layering.resolve s.finder s.settings.layoutName s.view)) with
    | .ok layering => return layering
    | .error (.notFound _) => fatal (.viewNotFound s.view)
    | .error e => fatal (.content e)

theorem ending_resolve :
    ending s.resolve st =
      ending (s.resolveUnless (s.heedsFlag && st.cancelRequested)) { st with phase := .resolving } :=
  rfl

theorem apart_attempt {x : EStateM ε State α} (hx : Apart x) : Apart (attempt x) where
  out_eq st := by
    rw [ending_attempt]
    exact hx.out_eq st
  on_withOut st out := by rw [ending_attempt, ending_attempt, hx.on_withOut]

theorem apart_fatal (e : RenderError) : Apart (fatal e : Run α) :=
  ⟨fun _ => rfl, fun _ _ => rfl⟩

theorem apart_resolveUnless (cancelled : Bool) : Apart (s.resolveUnless cancelled) := by
  unfold resolveUnless
  split
  · exact apart_fatal _
  · refine .bind (apart_attempt (.search s.raises _)) fun result => ?_
    rcases result with (_ | _) | layering
    · exact apart_fatal _
    · exact apart_fatal _
    · exact .pure layering

/-- Resolving looks no further at the output than whether its sink has raised the cancel flag. -/
theorem ending_resolve_withOut {out : Output} (h : out.sink.raised = st.out.sink.raised) :
    ending s.resolve (st.withOut out) =
      ((ending s.resolve st).1, (ending s.resolve st).2.withOut out) := by
  have hcancel : (st.withOut out).cancelRequested = st.cancelRequested := by
    unfold State.cancelRequested
    rw [State.withOut_out, h]
    rfl
  rw [ending_resolve, ending_resolve, hcancel]
  exact (s.apart_resolveUnless _).on_withOut { st with phase := .resolving } out

theorem out_resolve : (ending s.resolve st).2.out = st.out :=
  (s.apart_resolveUnless _).out_eq { st with phase := .resolving }

/-- The layers of the view and the state in which they run, if the view can be resolved and
composed. -/
def composed? (s : Session) (start : State) : Option (List Layer × State) :=
  match ending s.resolve start with
  | (.ok layering, st) =>
    match ending (Compose.layers layering) st.bench with
    | (.ok layers, bench) => some (layers, { st with phase := .executing, bench })
    | _ => none
  | _ => none

theorem composed?_withOut {out : Output} (h : out.sink.raised = st.out.sink.raised) :
    s.composed? (st.withOut out) = (s.composed? st).map fun c => (c.1, c.2.withOut out) := by
  unfold composed?
  rw [s.ending_resolve_withOut st h]
  rcases ending s.resolve st with ⟨_ | layering, st'⟩
  · rfl
  · dsimp only [State.withOut_bench]
    rcases ending (Compose.layers layering) st'.bench with ⟨_ | layers, bench⟩ <;> rfl

variable {s st}

theorem phase_composed {st' : State} {layers : List Layer}
    (h : s.composed? st = some (layers, st')) : st'.phase = .executing := by
  unfold composed? at h
  split at h
  · split at h
    · obtain ⟨-, rfl⟩ := Prod.mk.inj (Option.some.inj h)
      rfl
    · cases h
  · cases h

theorem ending_run_composed {st' : State} {layers : List Layer}
    (h : s.composed? st = some (layers, st')) :
    ending s.run st = ending (s.execute layers) st' := by
  unfold composed? at h
  rcases hresolve : ending s.resolve st with ⟨_ | layering, st₁⟩ <;> rw [hresolve] at h
  · cases h
  rcases hcompose : ending (Compose.layers layering) st₁.bench with ⟨_ | layers', bench⟩ <;>
    simp only [hcompose] at h
  · cases h
  obtain ⟨rfl, rfl⟩ := Prod.mk.inj (Option.some.inj h)
  unfold run
  rw [ending_bind_ok hresolve, ending_bind_ok (ending_enter st₁ .composing), ending_bind,
    ending_attempt, State.ending_compose]
  dsimp only
  rw [hcompose]
  rfl

/-- Ends a render whose layers are done. -/
def complete : Run Outcome := do
  let bytes ← onOutput Output.finish
  enter .completed
  return .completed bytes

theorem ending_execute (layers : List Layer) :
    ending (s.execute layers) st =
      match ending (Render.runLayers s.scene layers) { st with phase := .executing } with
      | (.ok _, st') => ending complete st'
      | (.error e, st') => ending (s.executionFailed e) st' := by
  unfold execute
  rw [ending_bind_ok (ending_enter st .executing), ending_bind, ending_attempt]
  rcases ending (Render.runLayers s.scene layers) { st with phase := .executing } with ⟨_ | _, st'⟩ <;>
    rfl

/-! ### After the layers have run -/

theorem ending_executionFailed (e : ExecError) :
    ending (s.executionFailed e) st =
      match st.out.committed, e.failure? with
      | false, some f => ending (showFailure f) st
      | committed, _ => (.error (s.errorOf committed e), { st with phase := .failed }) := by
  unfold executionFailed
  rw [ending_get_bind (fun st => _)]
  cases st.out.committed <;> cases e <;> simp [ExecError.failure?, errorOf, ending_fatal]

/-- Writes the page of a failure. -/
def showPage (f : Failure) : Run Outcome := do
  onOutput (Output.write f.page)
  let _ ← onOutput Output.finish
  return .diagnosticPage f

theorem ending_showFailure (f : Failure) :
    ending (showFailure f) st =
      ending (showPage f) { st with phase := .failed, out := st.out.discard.2 } :=
  rfl

section Sinks

variable {sink : Sink} {limit : Nat} {text : String}

/-- A render whose layers are done is completed, unless the sink refuses a call. -/
theorem complete_cases (h : Output.Carries sink limit text st.out) :
    (∃ st', ending complete st = (.ok (.completed text.utf8ByteSize), st') ∧
        sink.Took text st'.out.sink) ∨
      ¬ sink.Accepting ∧ ∃ fault st', ending complete st = (.error (.sink fault), st') := by
  have hfinish := ending_onOutput st Output.finish
  rcases h.finish with ⟨out, hout, ht⟩ | ⟨hn, fault, out, hout⟩
  · rw [hout] at hfinish
    exact Or.inl ⟨_, (ending_bind_ok hfinish _).trans rfl, ht⟩
  · rw [hout] at hfinish
    exact Or.inr ⟨hn, fault, _, ending_bind_error hfinish _⟩

/-- The page of a failure replaces what was held back, unless the sink refuses a call. -/
theorem showFailure_cases (f : Failure) (h : st.out = .holding sink limit text) :
    (∃ st', ending (showFailure f) st = (.ok (.diagnosticPage f), st') ∧
        sink.Took f.page st'.out.sink) ∨
      ¬ sink.Accepting ∧ ∃ fault st', ending (showFailure f) st = (.error (.sink fault), st') := by
  have hdiscard : st.out.discard.2 = .on sink limit := by rw [h]; rfl
  rw [ending_showFailure, hdiscard]
  generalize hst : ({ st with phase := .failed, out := .on sink limit } : State) = st₁
  have hwrite := ending_onOutput st₁ (Output.write f.page)
  have hon : st₁.out = .on sink limit := by rw [← hst]
  rw [hon] at hwrite
  unfold showPage
  rcases (Output.on_carries sink limit).write f.page with ⟨out, hout, hc⟩ | ⟨hn, out, hout⟩
  · rw [hout] at hwrite
    rw [String.empty_append] at hc
    rw [ending_bind_ok hwrite]
    have hfinish := ending_onOutput (st₁.withOut out) Output.finish
    rcases hc.finish with ⟨out', hout', ht⟩ | ⟨hn, fault, out', hout'⟩
    · rw [State.withOut_out, hout'] at hfinish
      exact Or.inl ⟨_, (ending_bind_ok hfinish _).trans rfl, ht⟩
    · rw [State.withOut_out, hout'] at hfinish
      exact Or.inr ⟨hn, fault, _, ending_bind_error hfinish _⟩
  · rw [hout] at hwrite
    exact Or.inr ⟨hn, .closed, _, ending_bind_error hwrite _⟩

end Sinks

/-! ### The last step -/

/-- A write on the output is refused by the sink, or what follows goes on. -/
theorem onOutput_bind_cases (x : Output.Write α) (g : α → Run Outcome) (st : State) :
    (∃ fault out, ending (onOutput x >>= g) st = (.error (.sink fault), st.withOut out)) ∨
      ∃ a out, ending (onOutput x >>= g) st = ending (g a) (st.withOut out) := by
  have hx := ending_onOutput st x
  rcases hr : (ending x st.out).1 with fault | a <;> rw [hr] at hx
  · exact Or.inl ⟨fault, _, ending_bind_error hx g⟩
  · exact Or.inr ⟨a, _, ending_bind_ok hx g⟩

theorem complete_ends (st : State) :
    (ending complete st).2.bench = st.bench ∧
      ((∃ bytes, (ending complete st).1 = .ok (.completed bytes)) ∨
        ∃ fault, (ending complete st).1 = .error (.sink fault)) := by
  rcases onOutput_bind_cases Output.finish (fun bytes => do
    enter .completed
    return .completed bytes) st with ⟨fault, out, hend⟩ | ⟨bytes, out, hend⟩
  · exact ⟨congrArg (·.2.bench) hend, Or.inr ⟨fault, congrArg Prod.fst hend⟩⟩
  · exact ⟨congrArg (·.2.bench) hend, Or.inl ⟨bytes, congrArg Prod.fst hend⟩⟩

theorem showFailure_ends (f : Failure) (st : State) :
    (ending (showFailure f) st).2.bench = st.bench ∧
      ((ending (showFailure f) st).1 = .ok (.diagnosticPage f) ∨
        ∃ fault, (ending (showFailure f) st).1 = .error (.sink fault)) := by
  rw [ending_showFailure]
  unfold showPage
  rcases onOutput_bind_cases (Output.write f.page) (fun _ => do
    let _ ← onOutput Output.finish
    return .diagnosticPage f) { st with phase := .failed, out := st.out.discard.2 } with
    ⟨fault, out, hwrite⟩ | ⟨_, out, hwrite⟩ <;> rw [hwrite]
  · exact ⟨rfl, Or.inr ⟨fault, rfl⟩⟩
  rcases onOutput_bind_cases Output.finish (fun _ => pure (.diagnosticPage f)) _ with
    ⟨fault, out', hfinish⟩ | ⟨_, out', hfinish⟩ <;> rw [hfinish]
  · exact ⟨rfl, Or.inr ⟨fault, rfl⟩⟩
  · exact ⟨rfl, Or.inl rfl⟩

/-- An error is shown as its failure or goes to the caller, unless the sink refuses a call. -/
theorem executionFailed_ends (e : ExecError) (st : State) :
    (ending (s.executionFailed e) st).2.bench = st.bench ∧
      ((∃ f, e.failure? = some f ∧ (ending (s.executionFailed e) st).1 = .ok (.diagnosticPage f)) ∨
        (ending (s.executionFailed e) st).1 = .error (s.errorOf st.out.committed e) ∨
        ∃ fault, (ending (s.executionFailed e) st).1 = .error (.sink fault)) := by
  rw [ending_executionFailed]
  split
  · next f _ hf =>
    obtain ⟨hbench, hshown | hrefused⟩ := showFailure_ends f st
    · exact ⟨hbench, Or.inl ⟨f, hf, hshown⟩⟩
    · exact ⟨hbench, Or.inr (Or.inr hrefused)⟩
  · exact ⟨rfl, Or.inr (Or.inl rfl)⟩

/-- What becomes of a run of layers leaves the bench as it is. -/
theorem bench_execute (layers : List Layer) (st : State) :
    (ending (s.execute layers) st).2.bench =
      (ending (Render.runLayers s.scene layers) { st with phase := .executing }).2.bench := by
  rw [ending_execute]
  rcases ending (Render.runLayers s.scene layers) { st with phase := .executing } with ⟨e | u, st'⟩
  · exact (executionFailed_ends e st').1
  · exact (complete_ends st').1

end Session

end LayeredViews
