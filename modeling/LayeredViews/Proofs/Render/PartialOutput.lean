import LayeredViews.Proofs.Render.Session

/-!
# Partial output — what a render error tells about the bytes that were sent

An error that says of itself that output had been committed is right whenever it says so.  Errors of
a catalog and of the sink never say so, also when a part of the page has been sent before them:
`isPartialOutput_iff_accepted_iff` is the exact condition under which the caller is told the truth.
-/

namespace LayeredViews

/-! ### Errors and bytes -/

/-- The sink has taken at least one byte more. -/
def Sink.AcceptedSince (before after : Sink) : Prop :=
  before.received.utf8ByteSize < after.received.utf8ByteSize

theorem Sink.Took.acceptedSince_iff {before after : Sink} {text : String}
    (h : before.Took text after) : before.AcceptedSince after ↔ text ≠ "" := by
  unfold Sink.AcceptedSince
  rw [h.received, String.utf8ByteSize_append, ne_eq, ← String.utf8ByteSize_eq_zero_iff]
  omega

/-- An output is committed exactly if its sink has taken a byte of what it carries. -/
theorem Output.Carries.committed_iff_accepted {sink : Sink} {limit : Nat} {text : String}
    {out : Output} (h : Output.Carries sink limit text out) :
    out.committed = true ↔ sink.AcceptedSince out.sink := by
  cases h with
  | held _ => simp [Output.holding, Sink.AcceptedSince]
  | begun nonempty took _ _ => simp [took.acceptedSince_iff, nonempty]

/-- Has no place to say whether output had been committed. -/
def RenderError.isMute : RenderError → Bool
  | .content _ => true
  | .sink _ => true
  | _ => false

theorem RenderError.isPartialOutput_of_isMute {e : RenderError} (h : e.isMute = true) :
    e.isPartialOutput = false := by
  cases e with
  | content c => rfl
  | sink fault => rfl
  | _ => cases h

namespace Session

/-- The error of a render, if it ends with one, says that output was sent if it was and the error has
a place to say so. -/
def TellsSent (sink : Sink) (r : Except RenderError Outcome × State) : Prop :=
  ∀ e, r.1 = .error e →
    (e.isPartialOutput = true ↔ e.isMute = false ∧ sink.AcceptedSince r.2.out.sink)

variable {α β : Type} {s : Session} {st : State} {sink : Sink} {limit : Nat} {text : String}

/-! ### Parts that only the sink can end -/

/-- Ends with no error but mute ones. -/
def Mute (x : Run α) : Prop :=
  ∀ st e, (ending x st).1 = .error e → e.isMute = true

theorem Mute.bind {x : Run α} {f : α → Run β} (hx : Mute x) (hf : ∀ a, Mute (f a)) :
    Mute (x >>= f) := by
  intro st e h
  rw [ending_bind] at h
  rcases hr : ending x st with ⟨e' | a, st'⟩ <;> rw [hr] at h
  · obtain rfl := Except.error.inj h
    exact hx st e' (congrArg Prod.fst hr)
  · exact hf a st' e h

theorem mute_onOutput (x : Output.Write α) : Mute (onOutput x) := by
  intro st e h
  rw [ending_onOutput] at h
  rcases hr : (ending x st.out).1 with fault | a <;> rw [hr] at h
  · obtain rfl := Except.error.inj h
    rfl
  · cases h

theorem mute_showFailure (f : Failure) : Mute (showFailure f) := by
  have hpage : Mute (showPage f) := (mute_onOutput _).bind fun _ =>
    (mute_onOutput _).bind fun _ st e h => by cases h
  intro st e h
  rw [ending_showFailure] at h
  exact hpage _ e h

theorem mute_complete : Mute complete :=
  (mute_onOutput _).bind fun _ st e h => by cases h

theorem Mute.tellsSent {x : Run Outcome} (hx : Mute x) : TellsSent sink (ending x st) := by
  intro e h
  have hmute := hx st e h
  rw [RenderError.isPartialOutput_of_isMute hmute, hmute]
  simp

/-! ### From the path to the layers -/

/-- A view that is not resolved is an error that claims no output. -/
theorem resolve_error {e : RenderError} (h : (ending s.resolve st).1 = .error e) :
    e.isPartialOutput = false := by
  rw [ending_resolve] at h
  unfold resolveUnless at h
  split at h
  · obtain rfl := Except.error.inj h
    rfl
  · rw [ending_bind, ending_attempt] at h
    rcases hr : (ending (State.search s.raises (Layering.resolve s.finder s.settings.layoutName s.view))
      { st with phase := .resolving }).1 with (_ | _) | layering <;> rw [hr] at h
    · obtain rfl := Except.error.inj h
      rfl
    · obtain rfl := Except.error.inj h
      rfl
    · cases h

/-- Unless the error shows a failure, it says that output was committed if it has a place for that. -/
theorem errorOf_isPartialOutput (s : Session) {committed : Bool} {e : ExecError}
    (h : committed = true ∨ e.failure? = none) :
    (s.errorOf committed e).isPartialOutput = (committed && !(s.errorOf committed e).isMute) := by
  cases committed with
  | true => cases e <;> rfl
  | false => cases e <;> simp [ExecError.failure?] at h <;> rfl

theorem executionFailed_tells (e : ExecError)
    (h : st.out.committed = true ↔ sink.AcceptedSince st.out.sink) :
    TellsSent sink (ending (s.executionFailed e) st) := by
  rw [ending_executionFailed]
  have hfatal : st.out.committed = true ∨ e.failure? = none →
      TellsSent sink (.error (s.errorOf st.out.committed e), { st with phase := .failed }) := by
    intro hshown e' he
    obtain rfl := Except.error.inj he
    rw [errorOf_isPartialOutput s hshown, Bool.and_eq_true, h, Bool.not_eq_true', and_comm]
  cases hc : st.out.committed with
  | true =>
    rw [hc] at hfatal
    exact hfatal (Or.inl rfl)
  | false =>
    rw [hc] at hfatal
    cases hf : e.failure? with
    | none => exact hfatal (Or.inr hf)
    | some f => exact (mute_showFailure f).tellsSent

theorem sink_tells (fault : SinkFault) :
    TellsSent sink (ending (s.executionFailed (.sink fault)) st) := by
  intro e he
  rw [ending_executionFailed] at he ⊢
  have hsink : e = .sink fault := by
    cases hc : st.out.committed <;> rw [hc] at he <;> exact (Except.error.inj he).symm
  rw [hsink]
  simp [RenderError.isPartialOutput, RenderError.isMute]

theorem execute_tells (layers : List Layer) (hout : st.out = .on sink limit) :
    TellsSent sink (ending (s.execute layers) st) := by
  have hlayers := (keepsCarrying_closed s sink limit).layers layers { st with phase := .executing } ""
    (hout ▸ Output.on_carries sink limit)
  rw [ending_execute]
  rcases hr : ending (Render.runLayers s.scene layers) { st with phase := .executing } with
    ⟨e | u, st'⟩
  · rw [hr] at hlayers
    rcases hlayers with ⟨text, hcarries, -⟩ | ⟨-, fault, hfault⟩
    · exact executionFailed_tells e hcarries.committed_iff_accepted
    · obtain rfl : e = .sink fault := Except.error.inj hfault
      exact sink_tells fault
  · exact mute_complete.tellsSent

/-- A render tells the bytes that were sent, as far as its error can. -/
theorem run_tells (s : Session) (sink : Sink) (flag : Bool) (bench : Bench) :
    TellsSent sink (ending s.run (s.start sink flag bench)) := by
  have hout := s.out_resolve (s.start sink flag bench)
  unfold run
  rw [ending_bind]
  rcases hresolve : ending s.resolve (s.start sink flag bench) with ⟨e | layering, st⟩ <;>
    rw [hresolve] at hout
  · intro e' he
    obtain rfl := Except.error.inj he
    have hclaims := resolve_error (congrArg Prod.fst hresolve)
    dsimp only at hout ⊢
    rw [hclaims, hout]
    simp [start, Output.on, Sink.AcceptedSince]
  · dsimp only at hout ⊢
    rw [ending_bind_ok (ending_enter st .composing), ending_bind, ending_attempt, State.ending_compose]
    dsimp only
    rcases (ending (Compose.layers layering) st.bench).1 with (f | c) | layers
    · exact (mute_showFailure f).tellsSent
    · intro e' he
      obtain rfl := Except.error.inj he
      simp [RenderError.isPartialOutput, RenderError.isMute]
    · exact execute_tells layers hout

/-- An error of a render tells the truth about the bytes sent exactly if it has a place to tell it or
there are none. -/
theorem isPartialOutput_iff_accepted_iff {flag : Bool} {bench : Bench} {e : RenderError}
    {final : State} (h : ending s.run (s.start sink flag bench) = (.error e, final)) :
    (e.isPartialOutput = true ↔ sink.AcceptedSince final.out.sink) ↔
      ¬ (e.isMute = true ∧ sink.AcceptedSince final.out.sink) := by
  have htells : e.isPartialOutput = true ↔ e.isMute = false ∧ sink.AcceptedSince final.out.sink := by
    have := s.run_tells sink flag bench e
    rw [h] at this
    exact this rfl
  rw [htells]
  cases e.isMute <;> simp

/-- A render of a page that sends a byte and then asks for a partial view that cannot be read. -/
def unreadablePartial : Session where
  catalog :=
    { locate := fun _ a => .ok (
        if a.name = "page" then some ⟨a, "html", .text "x\x7b\x7b partial \"b\" \x7d\x7d"⟩
        else if a.name = "b" then some ⟨a, "html", .broken (.told "disk gone")⟩
        else none)
      list := fun _ => .ok [] }
  settings := { Settings.default with bufferLimit := 0 }
  view := "page"
  model := .obj []
  heedsFlag := true
  raises _ _ := false

theorem not_isPartialOutput_iff_accepted_unreadablePartial :
    ∃ e final,
      ending unreadablePartial.run (unreadablePartial.start .accepting false .empty) =
          (.error e, final) ∧
        ¬ (e.isPartialOutput = true ↔ Sink.accepting.AcceptedSince final.out.sink) := by
  have hmute : (match (ending unreadablePartial.run
      (unreadablePartial.start .accepting false .empty)).1 with
      | .error e => e.isMute
      | .ok _ => false) = true := by decide +kernel
  have haccepted : Sink.accepting.received.utf8ByteSize < (ending unreadablePartial.run
      (unreadablePartial.start .accepting false .empty)).2.out.sink.received.utf8ByteSize := by
    decide +kernel
  rcases hrun : ending unreadablePartial.run (unreadablePartial.start .accepting false .empty) with
    ⟨e | outcome, final⟩ <;> rw [hrun] at hmute haccepted
  · exact ⟨e, final, rfl, fun h =>
      (isPartialOutput_iff_accepted_iff hrun).mp h ⟨hmute, haccepted⟩⟩
  · cases hmute

end Session

end LayeredViews
