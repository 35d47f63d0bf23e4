import LayeredViews.Proofs.Render.Session
import Mathlib.Data.List.Basic

/-!
# Buffer limits — one render under every limit

What the layers of a view write, and how they end, does not depend on the buffer limit.  A run that
holds everything back shadows the run under a limit step by step (`Shadowed`), as long as the sink
does not raise a cancel flag that is heeded.  `render_under_limit` says what follows for the
caller: only whether the text fits decides if a failure is shown in its place.
-/

namespace LayeredViews

open Output (Carries holding)

/-! ### Growth -/

/-- As much written on an output, and as much raised, as before or more. -/
structure Output.Grows (before after : Output) : Prop where
  written : before.written ≤ after.written
  raised : before.sink.raised = true → after.sink.raised = true

theorem Output.Grows.refl (out : Output) : out.Grows out :=
  ⟨Nat.le_refl _, id⟩

theorem Output.Grows.trans {a b c : Output} (h : a.Grows b) (h' : b.Grows c) : a.Grows c :=
  ⟨Nat.le_trans h.written h'.written, h'.raised ∘ h.raised⟩

theorem Output.commit_grows (out : Output) : out.Grows (ending commit out).2 := by
  by_cases hb : out.buffer = ""
  · rw [commit_empty hb]
    exact .refl out
  · rcases out.commit_cases hb with ⟨s', hc, ht⟩ | ⟨-, s', hc, ht⟩
    · rw [hc]
      exact ⟨Nat.le_refl _, ht.raised_of⟩
    · rw [hc]
      exact ⟨Nat.le_refl _, ht.raised_of⟩

theorem Output.write_grows (text : String) (out : Output) :
    out.Grows (ending (write text) out).2 := by
  have hbuffered : out.Grows (out.buffered text) := ⟨Nat.le_add_right _ _, id⟩
  by_cases hne : text = ""
  · subst hne
    exact .refl out
  rw [ending_write hne]
  split_ifs
  · exact hbuffered.trans (commit_grows _)
  · exact hbuffered

theorem Output.finish_grows (out : Output) : out.Grows (ending finish out).2 := by
  have hcommit := out.commit_grows
  rw [ending_finish]
  rcases hc : ending commit out with ⟨e | u, out'⟩ <;> rw [hc] at hcommit
  · exact hcommit
  · rcases out'.sink.flush_cases with ⟨s', hf, ht⟩ | ⟨-, s', hf, ht⟩
    · dsimp only
      rw [hf]
      exact ⟨hcommit.written, fun h => ht.raised_of (hcommit.raised h)⟩
    · dsimp only
      rw [hf]
      exact ⟨hcommit.written, fun h => ht.raised_of (hcommit.raised h)⟩

/-- A text with room for it is held back. -/
theorem Output.write_holding {sink : Sink} {room : Nat} {text more : String}
    (h : (text ++ more).utf8ByteSize ≤ room) :
    ending (write more) (holding sink room text) = (.ok (), holding sink room (text ++ more)) := by
  by_cases hne : more = ""
  · subst hne
    rw [write_empty, String.append_empty]
  · have hroom : ¬ (holding sink room text).limit <
        ((holding sink room text).buffer ++ more).utf8ByteSize := Nat.not_lt.mpr h
    rw [ending_write hne, if_neg hroom, holding_buffered]

/-! ### Shadows -/

/-- The sink may have raised a cancel flag that is heeded. -/
def Strayed (heeds : Bool) (sink : Sink) (st : State) : Prop :=
  heeds = true ∧ st.out.sink.raised = true ∧ ∃ n, sink.raisesOn n = true

/-- Does on an output that has room for everything what it does under a limit. -/
structure Shadowed (kept sink : Sink) (limit : Nat) (heeds : Bool) {α : Type} (x : Render α) :
    Prop where
  grows : ∀ st : State, st.out.Grows (ending x st).2.out
  shadow : ∀ (st : State) (text : String), Carries sink limit text st.out → Strayed heeds sink (ending x st).2 ∨
    ∃ text', Carries sink limit text' (ending x st).2.out ∧
      ∀ room, text'.utf8ByteSize ≤ room → ending x (st.withOut (holding kept room text)) =
        ((ending x st).1, (ending x st).2.withOut (holding kept room text'))

variable {kept sink : Sink} {limit : Nat} {heeds : Bool}

theorem Strayed.grows {st st' : State} (h : Strayed heeds sink st) (hg : st.out.Grows st'.out) :
    Strayed heeds sink st' :=
  ⟨h.1, hg.raised h.2.1, h.2.2⟩

theorem Apart.shadowed {α : Type} {x : Render α} (hx : Apart x) :
    Shadowed kept sink limit heeds x where
  grows st := by
    rw [hx.out_eq]
    exact .refl _
  shadow st text h := by
    rw [← hx.out_eq st] at h
    exact Or.inr ⟨text, h, fun room _ => hx.on_withOut st _⟩

theorem Shadowed.bind {α β : Type} {x : Render α} {f : α → Render β}
    (hx : Shadowed kept sink limit heeds x) (hf : ∀ a, Shadowed kept sink limit heeds (f a)) :
    Shadowed kept sink limit heeds (x >>= f) where
  grows st := by
    have hg := hx.grows st
    rw [ending_bind]
    rcases hr : ending x st with ⟨e | a, st'⟩ <;> rw [hr] at hg
    · exact hg
    · exact hg.trans ((hf a).grows st')
  shadow st text h := by
    have hx := hx.shadow st text h
    rw [ending_bind]
    rcases hr : ending x st with ⟨e | a, st'⟩ <;> rw [hr] at hx
    · rcases hx with hs | ⟨text', h', hroom⟩
      · exact Or.inl hs
      · exact Or.inr ⟨text', h', fun room hle => ending_bind_error (hroom room hle) f⟩
    · have hg := (hf a).grows st'
      rcases hx with hs | ⟨text', h', hroom⟩
      · exact Or.inl (hs.grows hg)
      rcases (hf a).shadow st' text' h' with hs | ⟨text'', h'', hroom'⟩
      · exact Or.inl hs
      refine Or.inr ⟨text'', h'', fun room hle => ?_⟩
      have hle' : text'.utf8ByteSize ≤ room := by
        have := hg.written
        rw [h'.written_eq, h''.written_eq] at this
        omega
      rw [ending_bind_ok (hroom room hle')]
      exact hroom' room hle

theorem writeText_shadowed (hsink : sink.Accepting) (more : String) :
    Shadowed kept sink limit heeds (Render.writeText more) where
  grows st := by
    rw [Render.ending_writeText]
    exact Output.write_grows more st.out
  shadow st text h := by
    rcases h.write more with ⟨out, hout, h'⟩ | ⟨hn, -⟩
    · rw [Render.ending_writeText, hout]
      refine Or.inr ⟨text ++ more, h', fun room hle => ?_⟩
      rw [Render.ending_writeText, State.withOut_out, Output.write_holding hle]
      rfl
    · exact absurd hsink hn

theorem checkCancelled_shadowed (hkept : kept.raised = sink.raised) :
    Shadowed kept sink limit heeds (Render.checkCancelled heeds) where
  grows st := by
    rw [Render.ending_checkCancelled]
    split_ifs <;> exact .refl _
  shadow st text h := by
    have hout : (ending (Render.checkCancelled heeds) st).2.out = st.out := by
      rw [Render.ending_checkCancelled]
      split_ifs <;> rfl
    by_cases hs : Strayed heeds sink st
    · left
      unfold Strayed
      rwa [hout]
    right
    refine ⟨text, hout ▸ h, fun room _ => ?_⟩
    have hraised : heeds = true → st.out.sink.raised = kept.raised := by
      intro hheeds
      obtain ⟨sent, ht, -⟩ := h.took
      rw [hkept, Bool.eq_iff_iff]
      refine ⟨fun hr => ?_, ht.raised_of⟩
      rcases ht.of_raised hr with hb | hn
      · exact hb
      · exact absurd ⟨hheeds, hr, hn⟩ hs
    have hcond : (heeds && (st.withOut (holding kept room text)).cancelRequested) =
        (heeds && st.cancelRequested) := by
      cases heeds with
      | false => rfl
      | true =>
        unfold State.cancelRequested
        rw [hraised rfl]
        rfl
    rw [Render.ending_checkCancelled, Render.ending_checkCancelled, hcond]
    split_ifs <;> rfl

theorem shadowed_closed (s : Session) (hsink : sink.Accepting) (hkept : kept.raised = sink.raised) :
    Render.Closed s (Shadowed kept sink limit s.heedsFlag) where
  pure a := (Apart.pure a).shadowed
  bind := .bind
  fault _ _ _ := (Apart.throw _).shadowed
  withBag _ hf := ⟨fun st => (hf st.bag).grows st, fun st => (hf st.bag).shadow st⟩
  setBag _ := Apart.shadowed ⟨fun _ => rfl, fun _ _ => rfl⟩
  write := writeText_shadowed hsink
  check := checkCancelled_shadowed hkept
  start _ _ := Apart.shadowed ⟨fun _ => rfl, fun _ _ => rfl⟩
  partialLayers name := (Apart.partialLayers s name).shadowed

/-! ### Renders -/

namespace Session

/-- The session with another buffer limit. -/
def withLimit (s : Session) (limit : Nat) : Session :=
  { s with settings := { s.settings with bufferLimit := limit } }

theorem scene_withLimit (s : Session) (limit : Nat) : (s.withLimit limit).scene = s.scene :=
  s.scene_retuned limit s.settings.cacheCompiled

/-- What a render gives and sends after an error of its layers that nothing was sent before. -/
def Replaced : ExecError → Except RenderError Outcome → String → Prop
  | .runtime template pos fault, render, sent =>
    let f : Failure := ⟨template, .execution, [Template.diagnosticAt pos fault.message]⟩
    render = .ok (.diagnosticPage f) ∧ sent = f.page
  | .compilation f, render, sent => render = .ok (.diagnosticPage f) ∧ sent = f.page
  | .notFound name, render, sent => render = .error (.viewNotFound name) ∧ sent = ""
  | .content c, render, sent => render = .error (.content c) ∧ sent = ""
  | .cancelled, _, _ => False
  | .sink _, _, _ => False

/-- What a render gives after an error of its layers that a part of their text was sent before. -/
def Passed (view : String) : ExecError → Except RenderError Outcome → Prop
  | .content c, render => render = .error (.content c)
  | .cancelled, _ => False
  | .sink _, _ => False
  | e, render => render = .error (.committed view e)

/-- What a render of `view` gives and sends under a buffer limit, if its layers write `text` and end
with a result. -/
def Limited (view : String) (limit : Nat) (text : String) :
    Except ExecError Unit → Except RenderError Outcome → String → Prop
  | .ok _, render, sent => render = .ok (.completed text.utf8ByteSize) ∧ sent = text
  | .error e, render, sent =>
    (text.utf8ByteSize ≤ limit → Replaced e render sent) ∧
      (limit < text.utf8ByteSize → Passed view e render ∧ sent ≠ "" ∧
        ∃ missing, sent ++ missing = text ∧ missing.utf8ByteSize ≤ limit)

variable {s : Session} {st st' : State} {text : String}

theorem executionFailed_held (hsink : sink.Accepting) (e : ExecError)
    (hout : st.out = holding sink limit text) (hc : e ≠ .cancelled)
    (hs : ∀ fault, e ≠ .sink fault) :
    ∃ sent, (ending (s.executionFailed e) st).2.out.sink.received = sink.received ++ sent ∧
      Replaced e (ending (s.executionFailed e) st).1 sent := by
  have hcommitted : st.out.committed = false := by rw [hout]; rfl
  have hnone : st.out.sink.received = sink.received ++ "" := by
    rw [hout, String.append_empty]
    rfl
  have hpage : ∀ f : Failure, ∃ st', ending (showFailure f) st = (.ok (.diagnosticPage f), st') ∧
      sink.Took f.page st'.out.sink := by
    intro f
    rcases showFailure_cases f hout with hf | ⟨hn, -⟩
    · exact hf
    · exact absurd hsink hn
  rw [ending_executionFailed, hcommitted]
  cases e with
  | runtime template pos fault =>
    obtain ⟨st', hend, ht⟩ :=
      hpage ⟨template, .execution, [Template.diagnosticAt pos fault.message]⟩
    dsimp only [ExecError.failure?]
    rw [hend]
    exact ⟨_, ht.received, rfl, rfl⟩
  | compilation f =>
    obtain ⟨st', hend, ht⟩ := hpage f
    dsimp only [ExecError.failure?]
    rw [hend]
    exact ⟨_, ht.received, rfl, rfl⟩
  | notFound name => exact ⟨"", hnone, rfl, rfl⟩
  | content c => exact ⟨"", hnone, rfl, rfl⟩
  | cancelled => exact absurd rfl hc
  | sink fault => exact absurd rfl (hs fault)

theorem executionFailed_committed (e : ExecError) (h : st.out.committed = true) (hc : e ≠ .cancelled)
    (hs : ∀ fault, e ≠ .sink fault) :
    (ending (s.executionFailed e) st).2.out = st.out ∧
      Passed s.view e (ending (s.executionFailed e) st).1 := by
  rw [ending_executionFailed, h]
  refine ⟨rfl, ?_⟩
  cases e with
  | cancelled => exact absurd rfl hc
  | sink fault => exact absurd rfl (hs fault)
  | _ => rfl

theorem executionFailed_limited (hsink : sink.Accepting) (e : ExecError)
    (h : Carries sink limit text st.out) (hc : e ≠ .cancelled) (hs : ∀ fault, e ≠ .sink fault) :
    ∃ sent, (ending (s.executionFailed e) st).2.out.sink.received = sink.received ++ sent ∧
      Limited s.view limit text (.error e) (ending (s.executionFailed e) st).1 sent := by
  rcases Nat.lt_or_ge limit text.utf8ByteSize with hex | hfits
  · obtain ⟨sent, hne, ht, htext⟩ := h.sent hex
    obtain ⟨hout, hpassed⟩ := executionFailed_committed (s := s) e (h.committed_iff.mpr hex) hc hs
    rw [hout]
    exact ⟨sent, ht.received, fun hfits => absurd hex (Nat.not_lt.mpr hfits),
      fun _ => ⟨hpassed, hne, st.out.buffer, htext, h.buffer_fits⟩⟩
  · obtain ⟨sent, hreceived, hreplaced⟩ :=
      executionFailed_held (s := s) hsink e (h.eq_holding hfits) hc hs
    exact ⟨sent, hreceived, fun _ => hreplaced, fun hex => absurd hex (Nat.not_lt.mpr hfits)⟩

theorem execute_limited (hsink : sink.Accepting) {layers : List Layer}
    {result : Except ExecError Unit}
    (hlayers : ending (Render.runLayers s.scene layers) { st with phase := .executing } =
      (result, st'))
    (h : Carries sink limit text st'.out) (hc : result ≠ .error .cancelled)
    (hs : ∀ fault, result ≠ .error (.sink fault)) :
    ∃ sent, (ending (s.execute layers) st).2.out.sink.received = sink.received ++ sent ∧
      Limited s.view limit text result (ending (s.execute layers) st).1 sent := by
  rw [ending_execute, hlayers]
  cases result with
  | ok u =>
    dsimp only
    rcases complete_cases h with ⟨st'', hend, ht⟩ | ⟨hn, -⟩
    · rw [hend]
      exact ⟨text, ht.received, rfl, rfl⟩
    · exact absurd hsink hn
  | error e =>
    exact executionFailed_limited hsink e h (fun he => hc (by rw [he]))
      fun fault he => hs fault (by rw [he])

/-! ### The cancel flag after the layers -/

/-- Leaves a cancel flag raised that is raised. -/
def KeepsRequest {ε α : Type} (x : EStateM ε State α) : Prop :=
  ∀ st : State, st.cancelRequested = true → (ending x st).2.cancelRequested = true

theorem KeepsRequest.bind {ε α β : Type} {x : EStateM ε State α} {f : α → EStateM ε State β}
    (hx : KeepsRequest x) (hf : ∀ a, KeepsRequest (f a)) : KeepsRequest (x >>= f) := by
  intro st h
  have hx := hx st h
  rw [ending_bind]
  rcases hr : ending x st with ⟨e | a, st'⟩ <;> rw [hr] at hx
  · exact hx
  · exact hf a st' hx

theorem keepsRequest_onOutput {α : Type} {x : Output.Write α}
    (hx : ∀ out : Output, out.Grows (ending x out).2) : KeepsRequest (onOutput x) := by
  intro st h
  rw [ending_onOutput]
  rcases Bool.or_eq_true_iff.mp h with h | h
  · exact Bool.or_eq_true_iff.mpr (Or.inl h)
  · exact Bool.or_eq_true_iff.mpr (Or.inr ((hx st.out).raised h))

theorem keepsRequest_complete : KeepsRequest complete :=
  (keepsRequest_onOutput Output.finish_grows).bind fun _ => fun _ h => h

theorem keepsRequest_showPage (f : Failure) : KeepsRequest (showPage f) :=
  (keepsRequest_onOutput (Output.write_grows f.page)).bind fun _ =>
    (keepsRequest_onOutput Output.finish_grows).bind fun _ _ h => h

theorem keepsRequest_executionFailed (e : ExecError) : KeepsRequest (s.executionFailed e) := by
  intro st h
  have hdiscard : st.out.discard.2.sink = st.out.sink := by
    unfold Output.discard
    split_ifs <;> rfl
  rw [ending_executionFailed]
  split
  · rw [ending_showFailure]
    refine keepsRequest_showPage _ _ ?_
    unfold State.cancelRequested
    rw [hdiscard]
    exact h
  · exact h

theorem execute_keepsRequest {layers : List Layer} {result : Except ExecError Unit}
    (hlayers : ending (Render.runLayers s.scene layers) { st with phase := .executing } =
      (result, st')) (h : st'.cancelRequested = true) :
    (ending (s.execute layers) st).2.cancelRequested = true := by
  rw [ending_execute, hlayers]
  cases result with
  | ok u => exact keepsRequest_complete st' h
  | error e => exact keepsRequest_executionFailed e st' h

/-! ### The whole render -/

/-- Run from a state, the layers write `text` and end with a result: on an output with room for the
text all of it is held back, and the sink is left alone. -/
def Emits (s : Session) (layers : List Layer) (st : State) (sink : Sink) (text : String)
    (result : Except ExecError Unit) : Prop :=
  ∀ room, text.utf8ByteSize ≤ room →
    (ending (Render.runLayers s.scene layers) (st.withOut (.on sink room))).1 = result ∧
      (ending (Render.runLayers s.scene layers) (st.withOut (.on sink room))).2.out =
        holding sink room text

/-- Layers write one text and end with one result, wherever they run. -/
theorem exists_emits (s : Session) (hsink : sink.Accepting) (layers : List Layer) (st : State) :
    ∃ text result, s.Emits layers st sink text result := by
  let quiet : Sink := { sink with raisesOn := fun _ => false }
  have hquiet : quiet.Accepting := ⟨hsink.writes, hsink.flushes⟩
  have hraised : sink.raised = quiet.raised := rfl
  have hshadowed : Shadowed sink quiet 0 s.heedsFlag (Render.runLayers s.scene layers) :=
    (shadowed_closed s hquiet hraised).layers layers
  rcases hshadowed.shadow (st.withOut (.on quiet 0)) "" (Output.on_carries quiet 0) with
    hstrayed | ⟨text, -, hroom⟩
  · obtain ⟨n, hn⟩ := hstrayed.2.2
    cases hn
  · refine ⟨text, (ending (Render.runLayers s.scene layers) (st.withOut (.on quiet 0))).1,
      fun room hle => ?_⟩
    have hresult := congrArg Prod.fst (hroom room hle)
    have hout := congrArg (fun r => r.2.out) (hroom room hle)
    exact ⟨hresult, hout⟩

/-- Layers that no flag stops under a limit have then written what they always write. -/
theorem Emits.under_limit {layers : List Layer} {result : Except ExecError Unit}
    (h : s.Emits layers st sink text result) (hsink : sink.Accepting) (limit : Nat)
    (hcancel : ¬ (s.heedsFlag = true ∧
      (ending (Render.runLayers s.scene layers) (st.withOut (.on sink limit))).2.cancelRequested =
        true)) :
    (ending (Render.runLayers s.scene layers) (st.withOut (.on sink limit))).1 = result ∧
      Carries sink limit text
        (ending (Render.runLayers s.scene layers) (st.withOut (.on sink limit))).2.out := by
  have hshadowed : Shadowed sink sink limit s.heedsFlag (Render.runLayers s.scene layers) :=
    (shadowed_closed s hsink rfl).layers layers
  rcases hshadowed.shadow (st.withOut (.on sink limit)) "" (Output.on_carries sink limit) with
    hstrayed | ⟨text', hcarries, hroom⟩
  · exact absurd ⟨hstrayed.1, Bool.or_eq_true_iff.mpr (Or.inr hstrayed.2.1)⟩ hcancel
  -- with room for both texts the two runs are the same one
  · let room := max text.utf8ByteSize text'.utf8ByteSize
    obtain ⟨hresult, hout⟩ := h room (Nat.le_max_left _ _)
    have hresult' := congrArg Prod.fst (hroom room (Nat.le_max_right _ _))
    have hout' := congrArg (fun r => r.2.out.buffer) (hroom room (Nat.le_max_right _ _))
    have htext : text' = text := hout'.symm.trans (congrArg Output.buffer hout)
    exact ⟨hresult'.symm.trans hresult, htext ▸ hcarries⟩

/-- A render under any buffer limit, by what its layers write and how they end: a text that does not
fit has been sent but for at most the limit, one that fits is sent as a whole or not at all. -/
theorem render_under_limit (s : Session) {sink : Sink} (hsink : sink.Accepting) (flag : Bool)
    (bench : Bench) {layers : List Layer} {st : State}
    (hcomposed : s.composed? (s.start sink flag bench) = some (layers, st)) :
    ∃ text result, s.Emits layers st sink text result ∧
      ∀ limit,
        let render := ending (s.withLimit limit).run ((s.withLimit limit).start sink flag bench)
        ¬ (s.heedsFlag = true ∧ render.2.cancelRequested = true) →
          ∃ sent, render.2.out.sink.received = sink.received ++ sent ∧
            Limited s.view limit text result render.1 sent := by
  obtain ⟨text, result, hemits⟩ := s.exists_emits hsink layers st
  refine ⟨text, result, hemits, fun limit => ?_⟩
  dsimp only
  intro hcancel
  have hcomposed' : (s.withLimit limit).composed? ((s.withLimit limit).start sink flag bench) =
      some (layers, st.withOut (.on sink limit)) := by
    have h := s.composed?_withOut (s.start sink flag bench)
      (show (Output.on sink limit).sink.raised = sink.raised from rfl)
    rwa [hcomposed] at h
  rw [ending_run_composed hcomposed'] at hcancel ⊢
  rcases hlayers : ending (Render.runLayers s.scene layers) (st.withOut (.on sink limit)) with
    ⟨result', st'⟩
  have hphase : st.phase = .executing := phase_composed hcomposed
  have hlayers' : ending (Render.runLayers (s.withLimit limit).scene layers)
      { st.withOut (.on sink limit) with phase := .executing } = (result', st') := by
    rw [scene_withLimit, ← hphase]
    exact hlayers
  have hcancel' : ¬ (s.heedsFlag = true ∧ st'.cancelRequested = true) := fun hc =>
    hcancel ⟨hc.1, execute_keepsRequest hlayers' hc.2⟩
  obtain ⟨hresult, hcarries⟩ := hemits.under_limit hsink limit (by rw [hlayers]; exact hcancel')
  rw [hlayers] at hresult hcarries
  obtain rfl : result' = result := hresult
  refine execute_limited hsink hlayers' hcarries (fun hc => hcancel' ?_) ?_
  · have := (cancelledIfRequested_closed s).layers layers (st.withOut (.on sink limit))
    rw [hlayers] at this
    exact this hc
  · rcases (keepsCarrying_closed s sink limit).layers layers (st.withOut (.on sink limit)) ""
      (Output.on_carries sink limit) with ⟨-, -, hs⟩ | ⟨hn, -⟩
    · rw [hlayers] at hs
      exact hs
    · exact absurd hsink hn

/-- A render of a page that writes a text and then shows a value that its model lacks. -/
def missingValue : Session where
  catalog :=
    { locate := fun _ a =>
        .ok (if a.name = "page" then some ⟨a, "html", .text "ab\x7b\x7b model.x \x7d\x7d"⟩ else none)
      list := fun _ => .ok [] }
  settings := .default
  view := "page"
  model := .obj []
  heedsFlag := true
  raises _ _ := false

/-- What its page fails with. -/
def missingFault : ExecError := .runtime "page.html" ⟨1, 3⟩ (.undefinedValue "model.x")

/-- What the page writes up to there has room in two bytes. -/
theorem missingValue_held : ∃ layers st,
    missingValue.composed? (missingValue.start .accepting false .empty) = some (layers, st) ∧
      let run := ending (Render.runLayers missingValue.scene layers) (st.withOut (.on .accepting 2))
      run.1 = .error missingFault ∧ run.2.out.buffer = "ab" ∧ run.2.out.written = 2 ∧
        run.2.cancelRequested = false := by
  have hheld : (missingValue.composed? (missingValue.start .accepting false .empty)).any (fun c =>
      let run := ending (Render.runLayers missingValue.scene c.1) (c.2.withOut (.on .accepting 2))
      decide (run.1 = .error missingFault ∧ run.2.out.buffer = "ab" ∧ run.2.out.written = 2 ∧
        run.2.cancelRequested = false)) = true := by
    decide +kernel
  obtain ⟨⟨layers, st⟩, hcomposed, hheld⟩ := (Option.any_eq_true _ _).mp hheld
  exact ⟨layers, st, hcomposed, of_decide_eq_true hheld⟩

/-- And so it writes nothing else, whatever room there is. -/
theorem missingValue_emits : ∃ layers st,
    missingValue.composed? (missingValue.start .accepting false .empty) = some (layers, st) ∧
      ∀ text result, missingValue.Emits layers st .accepting text result →
        text = "ab" ∧ result = .error missingFault := by
  have haccepting : Sink.accepting.Accepting := ⟨fun _ => rfl, rfl⟩
  obtain ⟨layers, st, hcomposed, hresult, hbuffer, hwritten, hflag⟩ := missingValue_held
  refine ⟨layers, st, hcomposed, fun text result hemits => ?_⟩
  obtain ⟨hresult', hcarries⟩ := hemits.under_limit haccepting 2 fun h =>
    Bool.false_ne_true (hflag.symm.trans h.2)
  refine ⟨?_, hresult'.symm.trans hresult⟩
  have hfits : text.utf8ByteSize ≤ 2 := Nat.le_of_eq (hcarries.written_eq.symm.trans hwritten)
  rw [hcarries.eq_holding hfits] at hbuffer
  exact hbuffer

/-- Under a limit of one byte the text `ab` is sent before the page fails, and the caller learns of it. -/
theorem render_under_limit_of_missing_value :
    let small := missingValue.withLimit 1
    let render := ending small.run (small.start .accepting false .empty)
    ∃ layers st,
      missingValue.composed? (missingValue.start .accepting false .empty) = some (layers, st) ∧
        missingValue.Emits layers st .accepting "ab" (.error missingFault) ∧
        render.2.out.sink.received = "ab" ∧
        Limited "page" 1 "ab" (.error missingFault) render.1 "ab" ∧
        render.1 = .error (.committed "page" missingFault) := by
  intro small render
  have haccepting : Sink.accepting.Accepting := ⟨fun _ => rfl, rfl⟩
  obtain ⟨layers, st, hcomposed, hemitted⟩ := missingValue_emits
  obtain ⟨text, result, hemits, hlimited⟩ :=
    missingValue.render_under_limit haccepting false .empty hcomposed
  obtain ⟨rfl, rfl⟩ := hemitted text result hemits
  have hcancel : render.2.cancelRequested = false := by decide +kernel
  have hreceived : render.2.out.sink.received = "ab" := by decide +kernel
  obtain ⟨sent, hsent, hlimited⟩ := hlimited 1 fun h => Bool.false_ne_true (hcancel.symm.trans h.2)
  have hempty : Sink.accepting.received ++ sent = sent := String.empty_append
  obtain rfl : sent = "ab" := by rw [← hempty, ← hsent, hreceived]
  have hpassed : Passed "page" missingFault render.1 := (hlimited.2 (by decide)).1
  exact ⟨layers, st, hcomposed, hemits, hreceived, hlimited, hpassed⟩

end Session

end LayeredViews
