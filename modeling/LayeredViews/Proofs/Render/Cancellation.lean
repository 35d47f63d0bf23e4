import LayeredViews.Proofs.Render.PartialOutput
import LayeredViews.Proofs.Render.Passages
import LayeredViews.Proofs.Render.Refusal

/-!
# Cancellation — where a cancelled render stops

The cancel flag may go up at any lookup and at any write call.  `run_heeds_cancellation` says of a whole render what
`Logs` says of its layers: no page starts with the flag up, nothing is looked up after a tag that is come to with the
flag up, and a page or partial view that is refused is the end of the render.  A render that is cancelled before
its layers run writes nothing, but for the page of a failure to compile (`silent_iff_of_cancelled_early`).
-/

namespace LayeredViews

namespace Session

variable {s : Session} {st : State}

/-! ### The passages of a render -/

/-- The passages of a render, of which there are none if it does not come to its layers. -/
def passages (s : Session) (start : State) : PassageLog :=
  match ending s.prepare start with
  | (.ok (.ok layers), st) => (ending (s.logScene layers) ({ st with phase := .executing }, [])).2.2
  | _ => []

/-- The passages of a render are those that the logged run of its layers comes to. -/
theorem passages_logged {start : State} {layers : List Layer}
    (h : ending s.prepare start = (.ok (.ok layers), st)) :
    let st₀ := { st with phase := .executing }
    let run := ending (Render.runLayers s.scene layers) st₀
    ending (s.logScene layers) (st₀, []) = (run.1, run.2, s.passages start) ∧
      (s.passages start).Of s.heedsFlag st₀ run := by
  intro st₀ run
  obtain ⟨passed, hpassed, hlog⟩ := s.logScene_logs layers st₀ []
  have heq : s.passages start = passed := by
    unfold passages
    rw [h]
    exact congrArg (·.2.2) hlog
  rw [heq]
  exact ⟨hlog, hpassed⟩

/-- All pages that start in a render are in its passages. -/
theorem starts_passages (s : Session) (start : State) :
    startsOf (ending s.run start).2.journal.toList =
      startsOf start.journal.toList ++ (s.passages start).starts := by
  have hprepared := startsOf_of_quiet s.prepare_quiet start
  rcases hp : ending s.prepare start with ⟨e | c | layers, st⟩ <;> rw [hp] at hprepared
  · have hnone : s.passages start = [] := by rw [passages, hp]
    rw [ending_run_of_prepare_error hp, hprepared, hnone]
    exact (List.append_nil _).symm
  · have hnone : s.passages start = [] := by rw [passages, hp]
    have hbench : (ending s.run start).2.bench = st.bench := by
      rw [run_eq, ending_bind_ok hp]
      exact bench_proceed_error c st
    unfold State.journal at hprepared ⊢
    rw [hbench, hprepared, hnone]
    exact (List.append_nil _).symm
  · obtain ⟨-, hpassed⟩ := passages_logged hp
    rw [ending_run_of_prepare hp]
    unfold State.journal at hprepared ⊢
    rw [bench_execute, ← hprepared]
    exact hpassed.starts

/-- A render that comes to a passage ends as its layers do, which heed it. -/
theorem heeded_passages (hheeds : s.heedsFlag = true) {start now : State} {p : Passage}
    (hp : (p, now) ∈ s.passages start) :
    ∃ layers st, ending s.run start = ending (s.execute layers) st ∧
      p.Heeded now (ending (Render.runLayers s.scene layers) { st with phase := .executing }) := by
  rcases hr : ending s.prepare start with ⟨e | c | layers, st⟩
  · rw [passages, hr] at hp
    cases hp
  · rw [passages, hr] at hp
    cases hp
  · obtain ⟨-, hpassed⟩ := passages_logged hr
    exact ⟨layers, st, ending_run_of_prepare hr, hpassed.heeded hheeds _ hp⟩

/-- Layers that end as cancelled end the render as cancelled, and nothing else happens. -/
theorem ending_execute_cancelled {layers : List Layer} {st' : State}
    (h : ending (Render.runLayers s.scene layers) { st with phase := .executing } = (.error .cancelled, st')) :
    ending (s.execute layers) st =
      (.error (.cancelled s.view st'.out.committed), { st' with phase := .failed }) := by
  rw [ending_execute, h]
  dsimp only
  rw [ending_executionFailed]
  cases st'.out.committed <;> rfl

theorem lookupsOf_note_refused (st : State) :
    lookupsOf (st.note .refused).journal.toList = lookupsOf st.journal.toList := by
  have hnote : (st.note .refused).journal.toList = st.journal.toList ++ [.refused] := History.toList_push _ _
  rw [hnote, lookupsOf, lookupsOf, List.filterMap_append]
  exact List.append_nil _

/-- A render heeds the cancel flag, whenever a lookup or a write call raises it.  All pages that start do so with the
flag down.  After a tag that is come to with the flag up there is no lookup any more.  A look at the flag that finds it
up, before a layer or a partial view, is the last thing that happens, and the render ends as cancelled.  What it
then tells of partial output is true. -/
theorem run_heeds_cancellation (hheeds : s.heedsFlag = true) (sink : Sink) (flag : Bool) (bench : Bench) :
    let start := s.start sink flag bench
    let r := ending s.run start
    (∀ layers st, ending s.prepare start = (.ok (.ok layers), st) →
      let st₀ := { st with phase := .executing }
      let run := ending (Render.runLayers s.scene layers) st₀
      ending (s.logScene layers) (st₀, []) = (run.1, run.2, s.passages start)) ∧
    startsOf r.2.journal.toList = startsOf bench.journal.toList ++ (s.passages start).starts ∧
    (∀ template depth now, (.start template depth, now) ∈ s.passages start → now.cancelRequested = false) ∧
    (∀ name now, (.tag name, now) ∈ s.passages start → now.cancelRequested = true →
      lookupsOf r.2.journal.toList = lookupsOf now.journal.toList) ∧
    (∀ now, (.check, now) ∈ s.passages start → now.cancelRequested = true →
      r = (.error (.cancelled s.view now.out.committed), { now.note .refused with phase := .failed })) ∧
    ∀ view sent, r.1 = .error (.cancelled view sent) → (sent = true ↔ sink.AcceptedSince r.2.out.sink) := by
  intro start r
  refine ⟨fun layers st h => (passages_logged h).1, s.starts_passages start, fun template depth now hp => ?_,
    fun name now hp hraised => ?_, fun now hp hraised => ?_, fun view sent hr => ?_⟩
  · obtain ⟨layers, st, -, hheeded⟩ := heeded_passages hheeds hp
    exact Bool.eq_false_iff.mpr fun hraised => hheeded hraised
  · obtain ⟨layers, st, hrun, hheeded⟩ := heeded_passages hheeds hp
    have hjournal : r.2.journal =
        (ending (Render.runLayers s.scene layers) { st with phase := .executing }).2.journal := by
      unfold State.journal
      rw [← bench_execute, ← hrun]
    rw [hjournal]
    rcases hheeded hraised with hend | ⟨e, hend⟩ <;> rw [hend]
    exact lookupsOf_note_refused now
  · obtain ⟨layers, st, hrun, hheeded⟩ := heeded_passages hheeds hp
    exact hrun.trans (ending_execute_cancelled (hheeded hraised))
  · have htells := s.run_tells sink flag bench _ hr
    simpa [RenderError.isPartialOutput, RenderError.isMute] using htells

/-- Renders a page that sends a byte, during which the flag goes up, and then asks for a partial view. -/
def writingFirst : Session where
  catalog :=
    { locate := fun _ a => .ok (
        if a.name = "page" then some ⟨a, "html", .text "x\x7b\x7b partial \"b\" \x7d\x7d"⟩
        else if a.name = "b" then some ⟨a, "html", .text "b"⟩
        else none)
      list := fun _ => .ok [] }
  settings := { Settings.default with bufferLimit := 0 }
  view := "page"
  model := .obj []
  heedsFlag := true
  raises _ _ := false

/-- A sink that raises the cancel flag when it is first written to. -/
def raisingSink : Sink := .new (fun _ => false) false fun n => n == 1

theorem run_heeds_cancellation_writingFirst :
    let start := writingFirst.start raisingSink false .empty
    ∃ name now final, ending writingFirst.run start = (.error (.cancelled "page" true), final) ∧
      (.tag name, now) ∈ writingFirst.passages start ∧ now.cancelRequested = true ∧
      lookupsOf final.journal.toList = lookupsOf now.journal.toList ∧
      raisingSink.AcceptedSince final.out.sink := by
  intro start
  obtain ⟨-, -, -, htags, hchecks, hsent⟩ :=
    run_heeds_cancellation (s := writingFirst) rfl raisingSink false .empty
  let flags : Passage × State → Passage × Bool × Bool := fun p => (p.1, p.2.cancelRequested, p.2.out.committed)
  have hpassages : (writingFirst.passages start).map flags =
      [(.check, false, false), (.start "page.html" 0, false, false), (.tag "b", true, true),
        (.check, true, true)] := by decide +kernel
  have hpassed : ∀ p raised committed, (p, raised, committed) ∈ (writingFirst.passages start).map flags →
      ∃ now, (p, now) ∈ writingFirst.passages start ∧ now.cancelRequested = raised ∧
        now.out.committed = committed := by
    intro p raised committed hmem
    obtain ⟨⟨p', now⟩, hp, hflags⟩ := List.mem_map.mp hmem
    obtain ⟨rfl, hrest⟩ := Prod.mk.inj hflags
    obtain ⟨hraised, hcommitted⟩ := Prod.mk.inj hrest
    exact ⟨now, hp, hraised, hcommitted⟩
  rw [hpassages] at hpassed
  obtain ⟨now, htag, hraised, -⟩ := hpassed (.tag "b") true true (by simp)
  obtain ⟨now', hcheck, hraised', hcommitted⟩ := hpassed .check true true (by simp)
  have hlookups := htags "b" now htag hraised
  have hend := hchecks now' hcheck hraised'
  rw [hcommitted] at hend
  have haccepted := (hsent "page" true (congrArg Prod.fst hend)).mp rfl
  rw [hend] at hlookups haccepted
  exact ⟨"b", now, _, hend, htag, hraised, hlookups, haccepted⟩

/-! ### Cancelled before the layers run -/

end Session

/-- What has members compiles to layers. -/
theorem Compose.layersOf_ne_nil {views : List View} (hviews : views ≠ []) {bench bench' : Bench}
    {layers : List Layer} (h : ending (layersOf views) bench = (.ok layers, bench')) : layers ≠ [] := by
  obtain ⟨view, others, rfl⟩ := List.exists_cons_of_ne_nil hviews
  rcases hpage : ending (pageOf view) bench with ⟨e | page, bench₁⟩
  · cases others with
    | nil => cases (ending_bind_error hpage _).symm.trans h
    | cons next others => cases (ending_bind_error hpage _).symm.trans h
  · cases others with
    | nil =>
      obtain rfl := Except.ok.inj (congrArg Prod.fst ((ending_bind_ok hpage _).symm.trans h))
      exact List.cons_ne_nil _ _
    | cons next others =>
      have hboth := (ending_bind_ok hpage _).symm.trans h
      rcases hrest : ending (layersOf (next :: others)) bench₁ with ⟨e | layers', bench₂⟩
      · cases (ending_bind_error hrest _).symm.trans hboth
      · obtain rfl := Except.ok.inj (congrArg Prod.fst ((ending_bind_ok hrest _).symm.trans hboth))
        exact List.cons_ne_nil _ _

/-- With the flag up no layer runs. -/
theorem Render.runLayers_raised {scene : Scene} (hheeds : scene.heedsFlag = true) {layers : List Layer}
    (hlayers : layers ≠ []) {st : State} (hraised : st.cancelRequested = true) :
    ending (runLayers scene layers) st = (.error .cancelled, st.note .refused) := by
  have hlayer : ∀ layer body?, ending (runLayer scene layer body?) st = (.error .cancelled, st.note .refused) := by
    intro layer body?
    unfold runLayer
    rw [hheeds]
    exact ending_bind_error (ending_checkCancelled_raised hraised) _
  obtain ⟨outer, inner, rfl⟩ := List.exists_cons_of_ne_nil hlayers
  cases inner with
  | nil => exact ending_bind_error (hlayer outer none) _
  | cons next others => exact ending_bind_error (hlayer outer _) _

namespace Output

theorem received_flush (out : Output) : (ending flush out).2.sink.received = out.sink.received := by
  have hflush : (ending flush out).2.sink = out.sink.flush.2 := by
    unfold ending flush
    rcases out.sink.flush with ⟨fault | u, sink⟩ <;> rfl
  rw [hflush, Sink.received_flush]

/-- What is written first, and finished, goes to the sink in one call, which takes all of it or nothing. -/
theorem ending_write_finish {text : String} (hne : text ≠ "") (sink : Sink) (limit : Nat) :
    let r := ending (do write text; finish) (.on sink limit)
    (sink.failsOn (sink.writeCalls + 1) = true →
      r.1 = .error .closed ∧ r.2.sink.received = sink.received) ∧
    (sink.failsOn (sink.writeCalls + 1) = false → r.2.sink.received = sink.received ++ text) := by
  intro r
  let held : Output := (on sink limit).buffered text
  have hheld : held.buffer = text := String.empty_append
  have hcommit := ending_commit (show held.buffer ≠ "" from hheld ▸ hne)
  have hwrite := ending_write hne (on sink limit)
  by_cases hfails : sink.failsOn (sink.writeCalls + 1) = true
  · rw [if_pos (show held.sink.failsOn (held.sink.writeCalls + 1) = true from hfails)] at hcommit
    have hr : r = (.error .closed, { held with sink := sink.afterRefusing, committed := true }) := by
      split_ifs at hwrite with hlong
      · exact ending_bind_error (hwrite.trans hcommit) _
      · exact (ending_bind_ok hwrite _).trans (ending_bind_error hcommit _)
    rw [hr]
    refine ⟨fun _ => ⟨rfl, sink.received_afterRefusing⟩, fun htakes => ?_⟩
    rw [hfails] at htakes
    cases htakes
  · rw [if_neg (show ¬ held.sink.failsOn (held.sink.writeCalls + 1) = true from hfails), hheld] at hcommit
    -- by the time of the flush the sink has the text, whether it was too long for the buffer or not
    have hr : r = ending flush { held with sink := sink.afterTaking text, committed := true, buffer := "" } := by
      split_ifs at hwrite with hlong
      · refine (ending_bind_ok (hwrite.trans hcommit) _).trans ?_
        exact ending_bind_ok (commit_empty rfl) _
      · refine (ending_bind_ok hwrite _).trans ?_
        exact ending_bind_ok hcommit _
    refine ⟨fun h => absurd h hfails, fun _ => ?_⟩
    rw [hr, received_flush, Sink.received_afterTaking]

end Output

theorem Failure.page_ne_empty (f : Failure) : f.page ≠ "" := by
  intro hempty
  unfold page at hempty
  have hlast := (String.append_eq_empty_iff.mp hempty).2
  exact absurd hlast (by decide)

namespace Session

variable {s : Session} {st : State}

theorem ending_showPage (f : Failure) (st : State) :
    let written := ending (do Output.write f.page; Output.finish) st.out
    ending (showPage f) st =
      ((written.1.map fun _ => Outcome.diagnosticPage f).mapError .sink, st.withOut written.2) := by
  intro written
  have hwrite := ending_onOutput st (Output.write f.page)
  unfold showPage
  rcases hw : ending (Output.write f.page) st.out with ⟨fault | u, out⟩ <;> rw [hw] at hwrite
  · have hwritten : written = (.error fault, out) := ending_bind_error hw _
    rw [hwritten]
    exact ending_bind_error hwrite _
  · have hwritten : written = ending Output.finish out := ending_bind_ok hw _
    have hfinish := ending_onOutput (st.withOut out) Output.finish
    rw [hwritten]
    refine (ending_bind_ok hwrite _).trans ?_
    rw [State.withOut_out] at hfinish
    rcases hf : ending Output.finish out with ⟨fault | bytes, out'⟩ <;> rw [hf] at hfinish
    · exact ending_bind_error hfinish _
    · exact ending_bind_ok hfinish _

/-- Nothing more has reached the sink, and neither the view nor the page of a failure has been rendered. -/
structure Silent (sink : Sink) (r : Except RenderError Outcome × State) : Prop where
  nothing : r.2.out.sink.received = sink.received
  fails : ∀ o, r.1 ≠ .ok o

/-- The page of a failure reaches the sink unless the sink refuses the next call. -/
theorem showFailure_silent_iff {sink : Sink} {limit : Nat} (hout : st.out = .on sink limit) (f : Failure) :
    Silent sink (ending (showFailure f) st) ↔ sink.failsOn (sink.writeCalls + 1) = true := by
  obtain ⟨hrefuses, htakes⟩ := Output.ending_write_finish f.page_ne_empty sink limit
  have hdiscard : st.out.discard.2 = .on sink limit := by
    rw [hout]
    rfl
  have hr := ending_showPage f { st with phase := .failed, out := st.out.discard.2 }
  rw [← ending_showFailure] at hr
  dsimp only at hr
  rw [hdiscard] at hr
  have hsink : (ending (showFailure f) st).2.out.sink =
      (ending (do Output.write f.page; Output.finish) (.on sink limit)).2.sink :=
    congrArg (·.2.out.sink) hr
  cases hfails : sink.failsOn (sink.writeCalls + 1) with
  | true =>
    obtain ⟨hclosed, hnothing⟩ := hrefuses hfails
    refine iff_of_true ⟨hsink ▸ hnothing, fun o ho => ?_⟩ rfl
    have hresult := congrArg Prod.fst hr
    rw [hclosed] at hresult
    cases ho.symm.trans hresult
  | false =>
    refine iff_of_false (fun h => ?_) Bool.false_ne_true
    have hsent := h.nothing
    rw [hsink, htakes hfails, String.append_eq_left_iff] at hsent
    exact f.page_ne_empty hsent

/-- A cancel flag that is up when the view has been resolved is up before its layers run. -/
theorem raised_of_prepare {start : State} {layers : List Layer}
    (hraised : (ending s.resolve start).2.cancelRequested = true)
    (h : ending s.prepare start = (.ok (.ok layers), st)) : layers ≠ [] ∧ st.cancelRequested = true := by
  rw [ending_prepare] at h
  rcases hresolve : ending s.resolve start with ⟨e | layering, st'⟩ <;> rw [hresolve] at h hraised
  · cases h
  · dsimp only at h hraised
    obtain ⟨hlayers, hst⟩ := Prod.mk.inj h
    rcases hcompose : ending (Compose.layers layering) st'.bench with ⟨c | layers', bench⟩ <;>
      rw [hcompose] at hlayers
    · cases hlayers
    · obtain rfl := Except.ok.inj (Except.ok.inj hlayers)
      refine ⟨Compose.layersOf_ne_nil ?_ hcompose, ?_⟩
      · unfold Layering.members
        simp
      · rw [← hst]
        exact hraised

/-- A render whose cancel flag is up by the time its view has been resolved writes nothing and ends with an error,
unless its layering does not compile: the page of that failure is then offered to the sink, which may take it. -/
theorem silent_iff_of_cancelled_early (hheeds : s.heedsFlag = true) {sink : Sink} {flag : Bool} {bench : Bench}
    (hraised : (ending s.resolve (s.start sink flag bench)).2.cancelRequested = true) :
    let start := s.start sink flag bench
    Silent sink (ending s.run start) ↔
      ¬ ((∃ f, (ending s.prepare start).1 = .ok (.error (.failure f))) ∧
        sink.failsOn (sink.writeCalls + 1) = false) := by
  intro start
  have hout : (ending s.prepare start).2.out = .on sink s.settings.bufferLimit := s.out_prepare start
  rcases hp : ending s.prepare start with ⟨e | c | layers, st⟩ <;> rw [hp] at hout <;> dsimp only at hout
  · rw [ending_run_of_prepare_error hp]
    refine iff_of_true ⟨congrArg (·.sink.received) hout, nofun⟩ ?_
    rintro ⟨⟨f, hf⟩, -⟩
    cases hf
  · rw [run_eq, ending_bind_ok hp]
    cases c with
    | failure f =>
      have hshown : Silent sink (ending (s.proceed (.error (.failure f))) st) ↔
          sink.failsOn (sink.writeCalls + 1) = true := showFailure_silent_iff hout f
      rw [hshown, ← Bool.not_eq_false]
      exact not_congr ⟨fun htakes => ⟨⟨f, rfl⟩, htakes⟩, And.right⟩
    | content e =>
      refine iff_of_true ⟨congrArg (·.sink.received) hout, nofun⟩ ?_
      rintro ⟨⟨f, hf⟩, -⟩
      cases hf
  · obtain ⟨hlayers, hup⟩ := raised_of_prepare hraised hp
    have hrefused : ending (Render.runLayers s.scene layers) { st with phase := .executing } =
        (.error .cancelled, State.note { st with phase := .executing } .refused) :=
      Render.runLayers_raised ((s.heedsFlag_sceneAt 0 _).trans hheeds) hlayers hup
    rw [ending_run_of_prepare hp, ending_execute_cancelled hrefused]
    refine iff_of_true ⟨congrArg (·.sink.received) hout, nofun⟩ ?_
    rintro ⟨⟨f, hf⟩, -⟩
    cases hf

/-- Renders a page that does not compile, and whose lookup raises the cancel flag. -/
def raisingLookup : Session where
  catalog :=
    { locate := fun _ a => .ok (if a.name = "page" then some ⟨a, "html", .text "\x7b\x7b bogus"⟩ else none)
      list := fun _ => .ok [] }
  settings := .default
  view := "page"
  model := .obj []
  heedsFlag := true
  raises _ _ := true

theorem not_silent_raisingLookup :
    let start := raisingLookup.start .accepting false .empty
    start.cancelRequested = false ∧ (ending raisingLookup.resolve start).2.cancelRequested = true ∧
      ¬ Silent .accepting (ending raisingLookup.run start) := by
  intro start
  have hraised : (ending raisingLookup.resolve start).2.cancelRequested = true := by decide +kernel
  have hfails : (ending raisingLookup.prepare start).1 = .ok (.error (.failure
      ⟨"page.html", .compilation, [⟨1, 1, "Unclosed tag: expected '\x7d\x7d'"⟩]⟩)) := by decide +kernel
  refine ⟨rfl, hraised, fun hsilent => ?_⟩
  exact (silent_iff_of_cancelled_early rfl hraised).mp hsilent ⟨⟨_, hfails⟩, rfl⟩

end Session

end LayeredViews
