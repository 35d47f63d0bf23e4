import LayeredViews.Proofs.Render.Lockstep
import LayeredViews.Proofs.Render.Writing

/-!
# Rechunked output — one text, whichever writes it comes in

Where a text is cut into writes decides which chunks the sink is offered, but neither what it has got in the end
nor whether it has been offered anything yet.  `Wrote` says what a write makes of an output on a steady sink, and
two writes make of it what one write of both texts does (`Wrote.append`).  States that differ by their chunks only
are `Rechunked`; the steps of pages keep this, and with them all that a session puts together.
-/

namespace LayeredViews

/-! ### Outputs -/

/-- A sink that takes whatever it is offered and, where the cancel flag is heeded, does not raise that. -/
structure Sink.Steady (heeds : Bool) (s : Sink) : Prop where
  accepting : s.Accepting
  raisesOn : heeds = true → ∀ n, s.raisesOn n = false

theorem Sink.Took.steady {heeds : Bool} {before after : Sink} {sent : String} (ht : before.Took sent after)
    (h : before.Steady heeds) :
    after.Steady heeds ∧ (heeds = true → after.raised = before.raised) := by
  refine ⟨⟨ht.accepting h.accepting, fun hheeds n => ?_⟩, fun hheeds => ?_⟩
  · rw [ht.raisesOn]
    exact h.raisesOn hheeds n
  · rw [Bool.eq_iff_iff]
    refine ⟨fun hafter => ?_, ht.raised_of⟩
    rcases ht.of_raised hafter with hbefore | ⟨n, hn⟩
    · exact hbefore
    · simp [h.raisesOn hheeds n] at hn

namespace Output

/-- All text that the sink has and that is held back for it. -/
def text (out : Output) : String :=
  out.sink.received ++ out.buffer

/-- What an output on a steady sink becomes by a text that is written on it, in whatever pieces. -/
structure Wrote (heeds : Bool) (before : Output) (more : String) (after : Output) : Prop where
  limit_eq : after.limit = before.limit
  written_eq : after.written = before.written + more.utf8ByteSize
  text_eq : after.text = before.text ++ more
  committed_iff : after.committed = true ↔
    before.committed = true ∨ more ≠ "" ∧ before.limit < (before.buffer ++ more).utf8ByteSize
  held : after.committed = false → after = before.buffered more
  raised_eq : heeds = true → after.sink.raised = before.sink.raised
  steady : after.sink.Steady heeds

variable {heeds : Bool} {before mid after : Output}

theorem buffered_empty (out : Output) : out.buffered "" = out := by
  simp [buffered]

theorem buffered_append (out : Output) (more more' : String) :
    (out.buffered more).buffered more' = out.buffered (more ++ more') := by
  simp [buffered, String.append_assoc, Nat.add_assoc]

theorem text_buffered (out : Output) (more : String) : (out.buffered more).text = out.text ++ more := by
  simp [text, buffered, String.append_assoc]

theorem Wrote.refl (h : before.sink.Steady heeds) : before.Wrote heeds "" before where
  limit_eq := rfl
  written_eq := rfl
  text_eq := String.append_empty.symm
  committed_iff := by simp
  held _ := (buffered_empty before).symm
  raised_eq _ := rfl
  steady := h

/-- On a steady sink a write succeeds. -/
theorem write_steady (h : before.sink.Steady heeds) (more : String) :
    ∃ after, ending (write more) before = (.ok (), after) ∧ before.Wrote heeds more after := by
  by_cases hempty : more = ""
  · subst hempty
    exact ⟨before, write_empty before, .refl h⟩
  rw [ending_write hempty]
  by_cases hlong : before.limit < (before.buffer ++ more).utf8ByteSize
  · rcases commit_cases (before.buffered more) (buffered_ne_empty hlong) with ⟨sink, hcommit, ht⟩ | ⟨hrefuses, -⟩
    · obtain ⟨hsteady, hraised⟩ := ht.steady h
      have htext : sink.received ++ "" = before.text ++ more := by
        rw [String.append_empty, ht.received, ← text_buffered]
        rfl
      rw [if_pos hlong]
      exact ⟨_, hcommit, rfl, rfl, htext, ⟨fun _ => Or.inr ⟨hempty, hlong⟩, fun _ => rfl⟩, nofun, hraised,
        hsteady⟩
    · exact absurd h.accepting hrefuses
  · rw [if_neg hlong]
    refine ⟨_, rfl, rfl, rfl, text_buffered before more, ⟨Or.inl, ?_⟩, fun _ => rfl, fun _ => rfl, h⟩
    rintro (hcommitted | ⟨-, hlong'⟩)
    · exact hcommitted
    · exact absurd hlong' hlong

/-- Two texts one after the other are as good as one. -/
theorem Wrote.append {more more' : String} (h : before.Wrote heeds more mid) (h' : mid.Wrote heeds more' after) :
    before.Wrote heeds (more ++ more') after where
  limit_eq := h'.limit_eq.trans h.limit_eq
  written_eq := by
    rw [h'.written_eq, h.written_eq, String.utf8ByteSize_append, Nat.add_assoc]
  text_eq := by rw [h'.text_eq, h.text_eq, String.append_assoc]
  committed_iff := by
    rw [h'.committed_iff]
    cases hmid : mid.committed with
    | true =>
      have hsize : (before.buffer ++ more).utf8ByteSize ≤ (before.buffer ++ (more ++ more')).utf8ByteSize := by
        simp only [String.utf8ByteSize_append]
        omega
      rcases h.committed_iff.mp hmid with hbefore | ⟨hne, hlong⟩
      · simp [hbefore]
      · have hboth : more ++ more' ≠ "" := by simp [hne]
        exact ⟨fun _ => Or.inr ⟨hboth, by omega⟩, fun _ => Or.inl rfl⟩
    | false =>
      -- so far nothing is committed: the buffer has all of the first text
      have hfree := mt h.committed_iff.mpr (Bool.eq_false_iff.mp hmid)
      rw [h.held hmid]
      by_cases hmore' : more' = ""
      · subst hmore'
        simpa using hfree
      · have hbefore : before.committed = false := Bool.eq_false_iff.mpr fun hc => hfree (Or.inl hc)
        simp [hbefore, buffered, hmore', String.append_assoc]
  held hafter := by
    have hmid : mid.committed = false := by
      refine Bool.eq_false_iff.mpr fun hmid => ?_
      rw [h'.committed_iff.mpr (Or.inl hmid)] at hafter
      cases hafter
    rw [h'.held hafter, h.held hmid, buffered_append]
  raised_eq hheeds := (h'.raised_eq hheeds).trans (h.raised_eq hheeds)
  steady := h'.steady

/-- Two outputs that were written the same text, in other pieces. -/
structure SameText (heeds : Bool) (out out' : Output) : Prop where
  limit_eq : out.limit = out'.limit
  written_eq : out.written = out'.written
  text_eq : out.text = out'.text
  committed_eq : out.committed = out'.committed
  held : out.committed = false → out = out'
  raised_eq : heeds = true → out.sink.raised = out'.sink.raised
  steady : out.sink.Steady heeds
  steady' : out'.sink.Steady heeds

variable {out out' : Output}

theorem SameText.refl (h : out.sink.Steady heeds) : out.SameText heeds out :=
  ⟨rfl, rfl, rfl, rfl, fun _ => rfl, fun _ => rfl, h, h⟩

/-- More text keeps two outputs the same. -/
theorem SameText.wrote (h : out.SameText heeds out') {more : String} {after after' : Output}
    (hw : out.Wrote heeds more after) (hw' : out'.Wrote heeds more after') : after.SameText heeds after' where
  limit_eq := by rw [hw.limit_eq, hw'.limit_eq, h.limit_eq]
  written_eq := by rw [hw.written_eq, hw'.written_eq, h.written_eq]
  text_eq := by rw [hw.text_eq, hw'.text_eq, h.text_eq]
  committed_eq := by
    rw [Bool.eq_iff_iff, hw.committed_iff, hw'.committed_iff, ← h.committed_eq]
    cases hc : out.committed with
    | true => simp
    | false => rw [h.held hc]
  held hafter := by
    have hc : out.committed = false := by
      refine Bool.eq_false_iff.mpr fun hc => ?_
      rw [hw.committed_iff.mpr (Or.inl hc)] at hafter
      cases hafter
    obtain rfl := h.held hc
    have hafter' : after'.committed = false := by
      refine Bool.eq_false_iff.mpr fun hc' => ?_
      rw [hw.committed_iff.mpr (hw'.committed_iff.mp hc')] at hafter
      cases hafter
    rw [hw.held hafter, hw'.held hafter']
  raised_eq hheeds := by rw [hw.raised_eq hheeds, hw'.raised_eq hheeds, h.raised_eq hheeds]
  steady := hw.steady
  steady' := hw'.steady

end Output

/-! ### States -/

/-- Two states that differ by the chunks of their output only. -/
def State.Rechunked (heeds : Bool) (st st' : State) : Prop :=
  st.out.SameText heeds st'.out ∧ st.withOut st'.out = st'

namespace State.Rechunked

variable {heeds : Bool} {st st' : State}

theorem refl (h : st.out.sink.Steady heeds) : st.Rechunked heeds st :=
  ⟨.refl h, rfl⟩

theorem bag_eq (h : st.Rechunked heeds st') : st.bag = st'.bag := by
  have hbag : (st.withOut st'.out).bag = st'.bag := by rw [h.2]
  exact hbag

/-- What neither looks at the output nor changes it makes nothing of chunks. -/
theorem respects_of_apart {ε α : Type} {x : EStateM ε State α} (hx : Apart x) :
    Respects (State.Rechunked heeds) x := by
  rintro st st' ⟨hout, hst⟩
  have hx' := hx.on_withOut st st'.out
  rw [hst] at hx'
  rw [hx']
  refine ⟨rfl, ?_, rfl⟩
  rw [hx.out_eq]
  exact hout

/-- Writes of one text make the same of two outputs, in whatever pieces. -/
theorem wrote (h : st.Rechunked heeds st') {more : String} {out out' : Output}
    (hw : st.out.Wrote heeds more out) (hw' : st'.out.Wrote heeds more out') :
    (st.withOut out).Rechunked heeds (st'.withOut out') := by
  obtain ⟨hout, hst⟩ := h
  refine ⟨hout.wrote hw hw', ?_⟩
  rw [← hst]
  rfl

end State.Rechunked

namespace Render

variable {heeds : Bool}

/-- On a steady sink a text is written. -/
theorem writeText_steady {st : State} (h : st.out.sink.Steady heeds) (text : String) :
    ∃ out, ending (writeText text) st = (.ok (), st.withOut out) ∧ st.out.Wrote heeds text out := by
  obtain ⟨out, hout, hwrote⟩ := Output.write_steady h text
  rw [ending_writeText, hout]
  exact ⟨out, rfl, hwrote⟩

theorem writeText_rechunked (text : String) : Respects (State.Rechunked heeds) (writeText text) := by
  intro st st' h
  obtain ⟨out, hend, hwrote⟩ := writeText_steady h.1.steady text
  obtain ⟨out', hend', hwrote'⟩ := writeText_steady h.1.steady' text
  rw [hend, hend']
  exact ⟨rfl, h.wrote hwrote hwrote'⟩

/-- Two texts may be written as one. -/
theorem writeText_append (heeds : Bool) (text text' : String) :
    Matches (State.Rechunked heeds) id (do writeText text; writeText text') (writeText (text ++ text')) := by
  intro st st' h
  obtain ⟨mid, hmid, hfirst⟩ := writeText_steady h.1.steady text
  have hsteady : (st.withOut mid).out.sink.Steady heeds := hfirst.steady
  obtain ⟨out, hend, hsecond⟩ := writeText_steady hsteady text'
  obtain ⟨out', hend', hboth⟩ := writeText_steady h.1.steady' (text ++ text')
  rw [ending_bind_ok hmid, hend, hend']
  exact ⟨rfl, h.wrote (hfirst.append hsecond) hboth⟩

theorem checkCancelled_rechunked : Respects (State.Rechunked heeds) (checkCancelled heeds) := by
  intro st st' h
  have hrequested : (heeds && st.cancelRequested) = (heeds && st'.cancelRequested) := by
    obtain ⟨hout, hst⟩ := h
    cases heeds with
    | false => rfl
    | true =>
      rw [← hst]
      simp [State.cancelRequested, State.withOut, hout.raised_eq rfl]
  rw [ending_checkCancelled, ending_checkCancelled, hrequested]
  split_ifs
  · exact ⟨rfl, h.1, congrArg (State.note · .refused) h.2⟩
  · exact ⟨rfl, h⟩

theorem withBag_rechunked {α : Type} (f : Bag → Render α)
    (hf : ∀ bag, Respects (State.Rechunked heeds) (f bag)) :
    Respects (State.Rechunked heeds) (do f (← get).bag) :=
  .get_bind State.bag (fun _ _ h => h.bag_eq) hf

theorem rechunked_closed (s : Session) : Closed s (Respects (State.Rechunked s.heedsFlag)) where
  pure := .pure
  bind := .bind
  fault _ _ _ := .throw _
  withBag := withBag_rechunked
  setBag _ := State.Rechunked.respects_of_apart ⟨fun _ => rfl, fun _ _ => rfl⟩
  write := writeText_rechunked
  check := checkCancelled_rechunked
  start _ _ := State.Rechunked.respects_of_apart ⟨fun _ => rfl, fun _ _ => rfl⟩
  partialLayers name := State.Rechunked.respects_of_apart (.partialLayers s name)

end Render

/-- Rendering a partial view makes nothing of chunks. -/
def Scene.Unchunked (scene : Scene) : Prop :=
  ∀ render ∈ scene.deeper?, ∀ name, Respects (State.Rechunked scene.heedsFlag) (render name)

/-- Partial views of a session make nothing of chunks. -/
theorem Session.scene_unchunked (s : Session) : s.scene.Unchunked := by
  intro render hrender name
  have hclosed := Render.rechunked_closed s
  have hheeds : s.scene.heedsFlag = s.heedsFlag :=
    (hclosed.on.sceneAt s.settings.maxPartialDepth 0 (Nat.zero_add _)).heedsFlag
  rw [hheeds]
  exact hclosed.deeper hrender name

/-! ### Pages -/

namespace Render

open Template (Page)
open Text (Position)

variable {heeds : Bool} {cx : PageContext}

theorem orFault_rechunked {α : Type} (pos : Position) (v : Except Fault α) :
    Respects (State.Rechunked heeds) (orFault cx pos v) := by
  cases v with
  | ok a => exact .pure a
  | error fault => exact .throw _

/-- A page makes nothing of chunks if neither partial views nor the content that it wraps do. -/
theorem runPage_rechunked (hdeeper : cx.scene.Unchunked)
    (hbody : ∀ body ∈ cx.body?, Respects (State.Rechunked cx.scene.heedsFlag) body) (page : Page)
    (locals : Locals) : Respects (State.Rechunked cx.scene.heedsFlag) (runPage cx page locals) := by
  refine (runPage_matches (fun node _ locals => ?_) locals).respects
  cases node with
  | text content => exact (writeText_rechunked content).matches id
  | echo e escaped pos =>
    refine (withBag_rechunked (fun bag =>
      orFault cx pos (echoed cx.scene.model locals bag e escaped) >>= writeText) fun bag => ?_).matches id
    exact (orFault_rechunked pos _).bind writeText_rechunked
  | renderBody pos =>
    show Matches _ id (renderBody cx pos) (renderBody cx pos)
    unfold renderBody
    cases hb : cx.body? with
    | none => exact .throw rfl
    | some body => exact (hbody body hb).matches id
  | partialView name pos =>
    show Matches _ id (partialView cx name pos) (partialView cx name pos)
    unfold partialView
    cases hd : cx.scene.deeper? with
    | none => exact .throw rfl
    | some render => exact (checkCancelled_rechunked.bind fun _ => hdeeper render hd name).matches id
  | set key value =>
    have hset : Apart (set cx locals key value) := ⟨fun _ => rfl, fun _ _ => rfl⟩
    exact (State.Rechunked.respects_of_apart hset).matches id
  | cond e =>
    exact (withBag_rechunked (fun bag =>
      pure (((valueOf cx.scene.model locals bag e).map Json.truthy).getD false)) fun _ => .pure _).matches id
  | each source binding pos =>
    exact (withBag_rechunked (fun bag => orFault cx pos (loopItems cx.scene.model locals bag source))
      fun _ => orFault_rechunked pos _).matches id

end Render

end LayeredViews
