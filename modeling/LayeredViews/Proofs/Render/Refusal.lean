import LayeredViews.Proofs.Render.Session

/-!
# Refusals — a call that the sink refuses is the last one

A render is compared with the same render on an obliging sink, which refuses nothing.  The two are in step,
sinks apart, until a call is refused; then the render makes no further call and ends with that refusal, so
that the obliging sink has received all that the other one has, and perhaps more.  Every step of a page
honours refusals in this sense, sequencing keeps it, and so does what a session makes of an error.
-/

namespace LayeredViews

/-! ### Sinks -/

/-- What a call was refused with. -/
def SinkCall.fault? : SinkCall → Option SinkFault
  | .refused => some .closed
  | .flushRefused => some .flushRefused
  | _ => none

/-- The sink as it would be if it refused nothing from now on. -/
def Sink.obliging (s : Sink) : Sink :=
  { s with failsOn := fun _ => false, flushFails := false }

theorem Sink.received_of_calls {before after : Sink} {calls : List SinkCall}
    (h : after.calls.toList = before.calls.toList ++ calls) :
    ∃ sent, after.received = before.received ++ sent := by
  unfold received chunks
  rw [h, List.filterMap_append]
  exact ⟨_, String.join_append⟩

/-- States that have a sink, which can be made obliging. -/
class Sinking (σ : Type) where
  sink : σ → Sink
  oblige : σ → σ
  sink_oblige : ∀ s, sink (oblige s) = (sink s).obliging

instance : Sinking Output where
  sink out := out.sink
  oblige out := { out with sink := out.sink.obliging }
  sink_oblige _ := rfl

instance : Sinking State where
  sink st := st.out.sink
  oblige st := st.withOut (Sinking.oblige st.out)
  sink_oblige _ := rfl

open Sinking (sink oblige)

theorem sink_output (out : Output) : sink out = out.sink := rfl

/-! ### Comparing runs -/

section Comparing

variable {ε σ α β : Type} [Sinking σ]

/-- What a run comes to beside the same run on an obliging sink, where `refusal` is how it ends if a call is
refused. -/
inductive Compared (refusal : SinkFault → ε) (before : Sink) :
    Except ε α × σ → Except ε α × σ → Prop where
  | same {r : Except ε α} {after : σ} (calls : List SinkCall)
    (called : (sink after).calls.toList = before.calls.toList ++ calls)
    (taken : ∀ call ∈ calls, call.fault? = none) (others : ∀ fault, r ≠ .error (refusal fault)) :
    Compared refusal before (r, after) (r, oblige after)
  | stopped {after full : σ} {r : Except ε α} (calls : List SinkCall) (last : SinkCall)
    (fault : SinkFault) (more : String)
    (called : (sink after).calls.toList = before.calls.toList ++ (calls ++ [last]))
    (taken : ∀ call ∈ calls, call.fault? = none) (refused : last.fault? = some fault)
    (exceeds : (sink full).received = (sink after).received ++ more) :
    Compared refusal before (.error (refusal fault), after) (r, full)

/-- From every state it is in step with itself on an obliging sink, up to the first refusal. -/
def Honours (refusal : SinkFault → ε) (x : EStateM ε σ α) : Prop :=
  ∀ s, Compared refusal (sink s) (ending x s) (ending x (oblige s))

variable {refusal : SinkFault → ε}

/-- Calls that were taken before count as calls of the run. -/
theorem Compared.preceded {before mid : Sink} {run full : Except ε α × σ} {earlier : List SinkCall}
    (h : Compared refusal mid run full) (hcalled : mid.calls.toList = before.calls.toList ++ earlier)
    (htaken : ∀ call ∈ earlier, call.fault? = none) : Compared refusal before run full := by
  cases h with
  | same calls called taken others =>
    refine .same (earlier ++ calls) ?_ ?_ others
    · rw [called, hcalled, List.append_assoc]
    · exact List.forall_mem_append.mpr ⟨htaken, taken⟩
  | stopped calls last fault more called taken refused exceeds =>
    refine .stopped (earlier ++ calls) last fault more ?_ ?_ refused exceeds
    · rw [called, hcalled, List.append_assoc, List.append_assoc]
    · exact List.forall_mem_append.mpr ⟨htaken, taken⟩

/-- All that a sink has received it keeps. -/
theorem Compared.grown {before : Sink} {run full : Except ε α × σ}
    (h : Compared refusal before run full) :
    ∃ sent, (sink run.2).received = before.received ++ sent := by
  cases h with
  | same calls called => exact Sink.received_of_calls called
  | stopped calls last fault more called => exact Sink.received_of_calls called

/-- An obliging sink receives what the other one has, and perhaps more. -/
theorem Compared.exceeded {before : Sink} {run full : Except ε α × σ}
    (h : Compared refusal before run full) :
    ∃ more, (sink full.2).received = (sink run.2).received ++ more := by
  cases h with
  | same calls called taken others =>
    refine ⟨"", ?_⟩
    rw [String.append_empty, Sinking.sink_oblige]
    rfl
  | stopped calls last fault more called taken refused exceeds => exact ⟨more, exceeds⟩

/-- A refused call is the last one, and the run ends with its refusal. -/
theorem Compared.last_refused {before : Sink} {run full : Except ε α × σ}
    (h : Compared refusal before run full) (hinj : Function.Injective refusal) :
    ∃ calls, (sink run.2).calls.toList = before.calls.toList ++ calls ∧
      (∀ earlier call later, calls = earlier ++ call :: later → ∀ fault ∈ call.fault?,
        run.1 = .error (refusal fault) ∧ later = []) ∧
      ∀ fault, run.1 = .error (refusal fault) → ∃ call ∈ calls, call.fault? = some fault := by
  cases h with
  | same calls called taken others =>
    refine ⟨calls, called, fun earlier call later hcalls fault hfault => ?_, fun fault h => ?_⟩
    · rw [taken call (by simp [hcalls])] at hfault
      cases hfault
    · exact absurd h (others fault)
  | stopped calls last fault more called taken refused exceeds =>
    refine ⟨calls ++ [last], called, fun earlier call later hcalls fault' hfault => ?_, fun fault' h => ?_⟩
    · rcases List.eq_nil_or_concat later with rfl | ⟨others, final, rfl⟩
      · obtain rfl : last = call := by simpa using (List.append_inj' hcalls rfl).2
        rw [refused] at hfault
        obtain rfl := Option.some.inj hfault
        exact ⟨rfl, rfl⟩
      · have hsplit : calls ++ [last] = (earlier ++ call :: others) ++ [final] := by simpa using hcalls
        obtain ⟨rfl, -⟩ := List.append_inj' hsplit rfl
        rw [taken call (by simp)] at hfault
        cases hfault
    · obtain rfl := hinj (Except.error.inj h)
      exact ⟨last, by simp, refused⟩

namespace Honours

/-- A step that makes no call and does the same on an obliging sink. -/
theorem of_quiet {x : EStateM ε σ α} (hsink : ∀ s, sink (ending x s).2 = sink s)
    (hoblige : ∀ s, ending x (oblige s) = ((ending x s).1, oblige (ending x s).2))
    (hothers : ∀ s fault, (ending x s).1 ≠ .error (refusal fault)) : Honours refusal x := by
  intro s
  have hcalled : (sink (ending x s).2).calls.toList = (sink s).calls.toList ++ [] := by
    rw [hsink, List.append_nil]
  have hothers := hothers s
  rw [hoblige]
  generalize ending x s = run at hcalled hothers
  exact .same [] hcalled (by simp) hothers

theorem pure (a : α) : Honours refusal (pure a : EStateM ε σ α) :=
  of_quiet (fun _ => rfl) (fun _ => rfl) fun _ _ => nofun

theorem throw {e : ε} (he : ∀ fault, e ≠ refusal fault) :
    Honours refusal (throw e : EStateM ε σ α) :=
  of_quiet (fun _ => rfl) (fun _ => rfl) fun _ fault h => he fault (Except.error.inj h)

theorem modify {f : σ → σ} (hsink : ∀ s, sink (f s) = sink s)
    (hoblige : ∀ s, f (oblige s) = oblige (f s)) :
    Honours refusal (modify f : EStateM ε σ PUnit) :=
  of_quiet hsink (fun s => congrArg (Prod.mk (Except.ok PUnit.unit)) (hoblige s)) fun _ _ => nofun

theorem bind {x : EStateM ε σ α} {f : α → EStateM ε σ β} (hx : Honours refusal x)
    (hf : ∀ a, Honours refusal (f a)) : Honours refusal (x >>= f) := by
  intro s
  have hx := hx s
  rw [ending_bind, ending_bind]
  generalize ending x s = run at hx
  generalize ending x (oblige s) = full at hx
  cases hx with
  | @same r after calls called taken others =>
    rcases r with e | a
    · exact .same calls called taken fun fault h => others fault (congrArg _ (Except.error.inj h))
    · exact (hf a after).preceded called taken
  | @stopped after full r calls last fault more called taken refused exceeds =>
    -- the run has stopped; on the obliging sink it may go on
    rcases r with e | a
    · exact .stopped calls last fault more called taken refused exceeds
    · obtain ⟨sent, hsent⟩ := (hf a full).grown
      dsimp only
      generalize ending (f a) full = full' at hsent
      refine .stopped calls last fault (more ++ sent) called taken refused ?_
      rw [hsent, exceeds, String.append_assoc]

/-- Looking at a part of the state that an obliging sink leaves as it is. -/
theorem get_bind {τ : Type} (part : σ → τ) (hpart : ∀ s, part (oblige s) = part s)
    {f : τ → EStateM ε σ α} (hf : ∀ t, Honours refusal (f t)) :
    Honours refusal (do f (part (← get))) := by
  intro s
  have h := hf (part s) s
  rw [ending_get_bind fun s => f (part s), ending_get_bind fun s => f (part s), hpart]
  exact h

end Honours

end Comparing

/-! ### Writing -/

namespace Output

theorem commit_honours : Honours id commit := by
  intro out
  by_cases hempty : out.buffer = ""
  · rw [commit_empty hempty, commit_empty (show (oblige out).buffer = "" from hempty)]
    exact .same [] (List.append_nil _).symm (by simp) nofun
  have hfull : ending commit (oblige out) =
      (.ok (), oblige { out with
                          sink := out.sink.afterTaking out.buffer
                          committed := true
                          buffer := "" }) :=
    ending_commit (show (oblige out).buffer ≠ "" from hempty)
  rw [hfull, ending_commit hempty]
  by_cases hfails : out.sink.failsOn (out.sink.writeCalls + 1) = true
  · rw [if_pos hfails]
    refine .stopped [] .refused .closed out.buffer (History.toList_push _ _) (by simp) rfl ?_
    show (out.sink.afterTaking out.buffer).received = out.sink.afterRefusing.received ++ out.buffer
    rw [Sink.received_afterTaking, Sink.received_afterRefusing]
  · rw [if_neg hfails]
    exact .same [.accepted out.buffer] (History.toList_push _ _) (by simp [SinkCall.fault?]) nofun

theorem write_honours (text : String) : Honours id (write text) := by
  intro out
  by_cases hempty : text = ""
  · subst hempty
    exact .same [] (List.append_nil _).symm (by simp) nofun
  have hfull : ending (write text) (oblige out) =
      if out.limit < (out.buffer ++ text).utf8ByteSize then ending commit (oblige (out.buffered text))
      else (.ok (), oblige (out.buffered text)) := ending_write hempty (oblige out)
  rw [hfull, ending_write hempty]
  by_cases hlong : out.limit < (out.buffer ++ text).utf8ByteSize
  · rw [if_pos hlong, if_pos hlong]
    exact commit_honours (out.buffered text)
  · rw [if_neg hlong, if_neg hlong]
    exact .same [] (List.append_nil _).symm (by simp) nofun

/-- Flushes the sink, which has all that was written. -/
def flush : Write Nat := fun out =>
  match out.sink.flush with
  | (.ok _, sink) => .ok out.written { out with sink }
  | (.error e, sink) => .error e { out with sink }

theorem flush_honours : Honours id flush := by
  intro out
  have hfull : ending flush (oblige out) =
      (.ok out.written, { out with sink := out.sink.obliging.flush.2 }) := rfl
  rw [hfull]
  by_cases hfails : out.sink.flushFails = true
  · have hrun : ending flush out = (.error .flushRefused, { out with sink := out.sink.flush.2 }) := by
      simp [ending, flush, Sink.flush, hfails]
    rw [hrun]
    refine .stopped [] .flushRefused .flushRefused "" ?_ (by simp) rfl ?_
    · simp [sink_output, Sink.flush, hfails]
    · rw [String.append_empty, sink_output, sink_output, Sink.received_flush, Sink.received_flush]
      rfl
  · have hrun : ending flush out =
        (.ok out.written,
          { out with sink := { out.sink with calls := out.sink.calls.push .flushed } }) := by
      simp [ending, flush, Sink.flush, hfails]
    rw [hrun]
    exact .same [.flushed] (History.toList_push _ _) (by simp [SinkCall.fault?]) (by simp)

theorem finish_honours : Honours id finish :=
  commit_honours.bind fun _ => flush_honours

end Output

namespace Honours

variable {ε α β : Type} {refusal : SinkFault → ε}

/-- A write on the output of a state, whose refusals become errors of their own. -/
theorem onOutput {x : Output.Write α} (hx : Honours id x) (hinj : Function.Injective refusal) :
    Honours refusal ((State.write x).adaptExcept refusal) := by
  intro st
  have hx := hx st.out
  have hfull : ending ((State.write x).adaptExcept refusal) (oblige st) =
      ((ending x (oblige st.out)).1.mapError refusal, st.withOut (ending x (oblige st.out)).2) := by
    rw [ending_adaptExcept, State.ending_write]
    rfl
  rw [hfull, ending_adaptExcept, State.ending_write]
  generalize ending x st.out = run at hx
  generalize ending x (oblige st.out) = full at hx
  cases hx with
  | @same r after calls called taken others =>
    show Compared refusal (sink st) (r.mapError refusal, st.withOut after)
      (r.mapError refusal, oblige (st.withOut after))
    refine .same calls called taken fun fault h => ?_
    rcases r with e | a
    · exact others fault (congrArg _ (hinj (Except.error.inj h)))
    · cases h
  | @stopped after full r calls last fault more called taken refused exceeds =>
    show Compared refusal (sink st) (.error (refusal fault), st.withOut after)
      (r.mapError refusal, st.withOut full)
    exact .stopped calls last fault more called taken refused exceeds

/-- A step apart from the output, whose errors are no refusals. -/
theorem of_apart {x : EStateM ε State α} (hx : Apart x)
    (hothers : ∀ st fault, (ending x st).1 ≠ .error (refusal fault)) : Honours refusal x := by
  refine of_quiet (fun st => congrArg Output.sink (hx.out_eq st)) (fun st => ?_) hothers
  show ending x (st.withOut (oblige st.out)) = _
  rw [hx.on_withOut, ← hx.out_eq st]
  rfl

end Honours

/-! ### Pages and layers -/

theorem cancelRequested_oblige (st : State) : (oblige st).cancelRequested = st.cancelRequested := rfl

theorem honours_closed (s : Session) : Render.Closed s (Honours ExecError.sink) where
  pure := .pure
  bind := .bind
  fault _ _ _ := .throw nofun
  withBag f hf := .get_bind State.bag (fun _ => rfl) hf
  setBag f := .modify (fun _ => rfl) fun _ => rfl
  write text := (Output.write_honours text).onOutput fun _ _ => ExecError.sink.inj
  check := by
    refine .of_quiet (fun st => ?_) (fun st => ?_) fun st fault => ?_
    · rw [Render.ending_checkCancelled]
      split_ifs <;> rfl
    · rw [Render.ending_checkCancelled, Render.ending_checkCancelled, cancelRequested_oblige]
      split_ifs <;> rfl
    · rw [Render.ending_checkCancelled]
      split_ifs <;> intro h <;> cases h
  start template depth := .modify (fun _ => rfl) fun _ => rfl
  partialLayers name := by
    refine .of_apart (Apart.partialLayers s name) fun st fault h => ?_
    rcases partialLayers_error h with h | ⟨c, h⟩ | ⟨f, h⟩ <;> cases h

/-! ### The render -/

namespace Session

variable {ε α β : Type} {s : Session}

theorem enter_honours (phase : Phase) : Honours RenderError.sink (enter phase) :=
  .modify (fun _ => rfl) fun _ => rfl

theorem fatal_honours {e : RenderError} (he : ∀ fault, e ≠ .sink fault) :
    Honours RenderError.sink (fatal e : Run α) :=
  (enter_honours .failed).bind fun _ => .throw he

theorem onOutput_honours {x : Output.Write α} (hx : Honours id x) :
    Honours RenderError.sink (onOutput x) :=
  hx.onOutput fun _ _ => RenderError.sink.inj

theorem discard_oblige (out : Output) : (oblige out).discard.2 = oblige out.discard.2 := by
  unfold Output.discard
  cases hcommitted : out.committed <;> simp [oblige, hcommitted]

theorem sink_discard (out : Output) : out.discard.2.sink = out.sink := by
  unfold Output.discard
  split <;> rfl

theorem showFailure_honours (f : Failure) : Honours RenderError.sink (showFailure f) := by
  refine (enter_honours .failed).bind fun _ => .bind (.modify (fun st => ?_) fun st => ?_) fun _ => ?_
  · exact sink_discard st.out
  · exact congrArg st.withOut (discard_oblige st.out)
  · refine (onOutput_honours (Output.write_honours f.page)).bind fun _ => ?_
    exact (onOutput_honours Output.finish_honours).bind fun _ => .pure _

theorem complete_honours : Honours RenderError.sink complete :=
  (onOutput_honours Output.finish_honours).bind fun _ => (enter_honours .completed).bind fun _ => .pure _

theorem errorOf_ne_sink {committed : Bool} {e : ExecError} (he : ∀ fault, e ≠ .sink fault)
    (fault : SinkFault) : s.errorOf committed e ≠ .sink fault := by
  intro h
  cases e with
  | sink fault' => exact he fault' rfl
  | notFound name => cases committed <;> cases h
  | compilation | runtime | cancelled | content => cases h

/-- Dealing with an error that is no refusal. -/
theorem executionFailed_honours {e : ExecError} (he : ∀ fault, e ≠ .sink fault) :
    Honours RenderError.sink (s.executionFailed e) := by
  intro st
  have hcommitted : (oblige st).out.committed = st.out.committed := rfl
  rw [ending_executionFailed, ending_executionFailed, hcommitted]
  split
  · next f _ _ => exact showFailure_honours f st
  · exact fatal_honours (errorOf_ne_sink he) st

/-- A refusal is passed on as it is. -/
theorem ending_executionFailed_sink (fault : SinkFault) (st : State) :
    ending (s.executionFailed (.sink fault)) st = (.error (.sink fault), { st with phase := .failed }) := by
  rw [ending_executionFailed]
  cases st.out.committed <;> rfl

/-- What becomes of a render, by how its layers ended. -/
def conclude (s : Session) : Except ExecError Unit → Run Outcome
  | .ok _ => complete
  | .error e => s.executionFailed e

theorem ending_execute_conclude (layers : List Layer) (st : State) :
    ending (s.execute layers) st =
      ending (s.conclude (ending (Render.runLayers s.scene layers) { st with phase := .executing }).1)
        (ending (Render.runLayers s.scene layers) { st with phase := .executing }).2 := by
  rw [ending_execute]
  rcases ending (Render.runLayers s.scene layers) { st with phase := .executing } with ⟨_ | _, st'⟩ <;>
    rfl

theorem conclude_honours {r : Except ExecError Unit} (hr : ∀ fault, r ≠ .error (.sink fault)) :
    Honours RenderError.sink (s.conclude r) := by
  cases r with
  | ok u => exact complete_honours
  | error e => exact executionFailed_honours fun fault h => hr fault (congrArg _ h)

theorem conclude_grown (r : Except ExecError Unit) (st : State) :
    ∃ sent, (sink (ending (s.conclude r) st).2).received = (sink st).received ++ sent := by
  by_cases hr : ∃ fault, r = .error (.sink fault)
  · obtain ⟨fault, rfl⟩ := hr
    refine ⟨"", ?_⟩
    rw [String.append_empty]
    exact congrArg (fun e => (sink e.2).received) (ending_executionFailed_sink (s := s) fault st)
  · exact (conclude_honours (fun fault h => hr ⟨fault, h⟩) st).grown

/-- Layers that a refusal has stopped end the render with it, and nothing more is called. -/
theorem execute_honours (layers : List Layer) : Honours RenderError.sink (s.execute layers) := by
  intro st
  have hlayers := (honours_closed s).layers layers { st with phase := .executing }
  have hoblige : oblige { st with phase := .executing } = { oblige st with phase := .executing } := rfl
  rw [hoblige] at hlayers
  rw [ending_execute_conclude, ending_execute_conclude]
  generalize ending (Render.runLayers s.scene layers) { st with phase := .executing } = run at hlayers
  generalize ending (Render.runLayers s.scene layers) { oblige st with phase := .executing } = full
    at hlayers
  cases hlayers with
  | same calls called taken others => exact (conclude_honours others _).preceded called taken
  | @stopped after full r calls last fault more called taken refused exceeds =>
    obtain ⟨sent, hsent⟩ := conclude_grown (s := s) r full
    have hrun : ending (s.conclude (.error (.sink fault))) after =
        (.error (.sink fault), { after with phase := .failed }) :=
      ending_executionFailed_sink (s := s) fault after
    dsimp only
    rw [hrun]
    generalize ending (s.conclude r) full = full' at hsent
    refine .stopped calls last fault (more ++ sent) called taken refused ?_
    rw [hsent, exceeds, String.append_assoc]
    rfl

theorem attempt_honours {x : EStateM ε State α} (hx : Apart x) :
    Honours RenderError.sink (attempt x) := by
  refine .of_apart (apart_attempt hx) fun st fault h => ?_
  rw [ending_attempt] at h
  cases h

theorem resolveUnless_honours (cancelled : Bool) :
    Honours RenderError.sink (s.resolveUnless cancelled) := by
  unfold resolveUnless
  split
  · exact fatal_honours nofun
  refine (attempt_honours (.search s.raises _)).bind fun result => ?_
  rcases result with (_ | _) | layering
  · exact fatal_honours nofun
  · exact fatal_honours nofun
  · exact .pure layering

theorem resolve_honours : Honours RenderError.sink s.resolve := by
  intro st
  rw [ending_resolve, ending_resolve, cancelRequested_oblige]
  exact resolveUnless_honours _ { st with phase := .resolving }

theorem run_honours (s : Session) : Honours RenderError.sink s.run := by
  refine resolve_honours.bind fun layering => (enter_honours .composing).bind fun _ => ?_
  refine (attempt_honours (.compose _)).bind fun result => ?_
  rcases result with (f | e) | layers
  · exact showFailure_honours f
  · exact fatal_honours nofun
  · exact execute_honours layers

/-- A call that the sink refuses is the last one of a render, and the render ends with that refusal and with
no other.  What the sink took before is a first part of what an obliging sink takes in the same render. -/
theorem refusal_is_last (s : Session) (sink : Sink) (flag : Bool) (bench : Bench) :
    let render := ending s.run (s.start sink flag bench)
    let unrefused := ending s.run (s.start sink.obliging flag bench)
    ∃ calls, render.2.out.sink.calls.toList = sink.calls.toList ++ calls ∧
      (∀ earlier call later, calls = earlier ++ call :: later → ∀ fault ∈ call.fault?,
        render.1 = .error (.sink fault) ∧ later = []) ∧
      (∀ fault, render.1 = .error (.sink fault) → ∃ call ∈ calls, call.fault? = some fault) ∧
      ∃ sent more, render.2.out.sink.received = sink.received ++ sent ∧
        unrefused.2.out.sink.received = sink.received ++ (sent ++ more) := by
  intro render unrefused
  have hcompared : Compared RenderError.sink sink render unrefused :=
    s.run_honours (s.start sink flag bench)
  obtain ⟨calls, hcalls, hlast, hrefused⟩ :=
    hcompared.last_refused fun _ _ => RenderError.sink.inj
  obtain ⟨sent, hsent⟩ := hcompared.grown
  obtain ⟨more, hmore⟩ := hcompared.exceeded
  refine ⟨calls, hcalls, hlast, hrefused, sent, more, hsent, ?_⟩
  rw [← String.append_assoc, ← hsent]
  exact hmore

end Session

end LayeredViews
