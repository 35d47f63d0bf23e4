import LayeredViews.Proofs.Render.Depth

/-!
# Passages — the moments at which a run heeds the cancel flag

`logLayers` runs layers as `runLayers` does, and logs each tag of a partial view that it comes to, each look at
the cancel flag and each page that starts, with the state at that moment.  `Logs` says what there is to know of such
a run: without its log it is the run itself, the pages of its log are those that the journal tells of, and each
moment at which the flag is up is its last.
-/

namespace LayeredViews

open Template (Page)

/-- A moment of a run that matters to a cancelled render. -/
inductive Passage where
  /-- A page comes to the tag of a partial view. -/
  | tag (name : String)
  /-- The cancel flag is about to be looked at. -/
  | check
  /-- A page is about to start, at a depth of partial views. -/
  | start (template : String) (depth : Nat)
deriving DecidableEq, Repr

/-- Passages in order, each with the state in which the run comes to it. -/
abbrev PassageLog := List (Passage × State)

/-- The page that starts in a passage. -/
def Passage.started? : Passage → Option (String × Nat)
  | .start template depth => some (template, depth)
  | _ => none

/-- The pages that start in some passages, each with its depth. -/
def PassageLog.starts (log : PassageLog) : List (String × Nat) :=
  log.filterMap fun p => p.1.started?

/-- The pages that a journal says were started, each with its depth. -/
def startsOf (journal : List Event) : List (String × Nat) :=
  journal.filterMap fun
    | .started template depth => some (template, depth)
    | _ => none

namespace Render

/-! ### Logged runs -/

/-- A render computation that logs its passages. -/
abbrev Logged := EStateM ExecError (State × PassageLog)

/-- Logs nothing of what something does. -/
def unlogged {α : Type} (x : Render α) : Logged α := fun r =>
  match x.run r.1 with
  | .ok a st => .ok a (st, r.2)
  | .error e st => .error e (st, r.2)

theorem ending_unlogged {α : Type} (x : Render α) (st : State) (log : PassageLog) :
    ending (unlogged x) (st, log) = ((ending x st).1, (ending x st).2, log) := by
  unfold ending unlogged EStateM.run
  cases x st <;> rfl

/-- Logs a passage. -/
def pass (p : Passage) : Logged Unit :=
  modify fun r => (r.1, r.2 ++ [(p, r.1)])

theorem ending_pass_bind {α : Type} (p : Passage) (y : Logged α) (st : State) (log : PassageLog) :
    ending (do pass p; y) (st, log) = ending y (st, log ++ [(p, st)]) := rfl

/-- Ends the run if it heeds the cancel flag and that is raised. -/
def logCheck (heedsFlag : Bool) : Logged Unit := do
  pass .check
  unlogged (checkCancelled heedsFlag)

/-- Renders the content that the page wraps. -/
def logBody (cx : PageContext) (body? : Option (Logged Unit)) (pos : Text.Position) : Logged Unit :=
  match body? with
  | some body => body
  | none => throw (.runtime cx.template pos .bodyOutsideLayout)

/-- Renders a partial view. -/
def logPartial (cx : PageContext) (deeper? : Option (String → Logged Unit)) (name : String)
    (pos : Text.Position) : Logged Unit := do
  pass (.tag name)
  match deeper? with
  | none => throw (.runtime cx.template pos (.tooDeep cx.scene.maxDepth name))
  | some render => do
    logCheck cx.scene.heedsFlag
    render name

/-- Runs something for each item in order and adds the results up. -/
def logOver {α : Type} (run : α → Logged Nat) : List α → Logged Nat
  | [] => pure 0
  | a :: as => do
    let n ← run a
    let m ← logOver run as
    return n + m

/-- Runs a page, with logged runs of the content it wraps and of the partial views it asks for. -/
def logPage (cx : PageContext) (body? : Option (Logged Unit)) (deeper? : Option (String → Logged Unit)) :
    Page → Locals → Logged Nat
  | .done, _ => pure 0
  | .text content rest, locals => do
    unlogged (writeText content)
    logPage cx body? deeper? rest locals
  | .echo e escaped pos rest, locals => do
    unlogged (echo cx locals e escaped pos)
    logPage cx body? deeper? rest locals
  | .renderBody pos rest, locals => do
    logBody cx body? pos
    let n ← logPage cx body? deeper? rest locals
    return 1 + n
  | .partialView name pos rest, locals => do
    logPartial cx deeper? name pos
    logPage cx body? deeper? rest locals
  | .set key value rest, locals => do
    unlogged (set cx locals key value)
    logPage cx body? deeper? rest locals
  | .cond e yes no rest, locals => do
    let n ← if ← unlogged (test cx locals e) then logPage cx body? deeper? yes locals
      else logPage cx body? deeper? no locals
    let m ← logPage cx body? deeper? rest locals
    return n + m
  | .each source binding body pos rest, locals => do
    let items ← unlogged (items cx locals source pos)
    let n ← logOver (fun item => logPage cx body? deeper? body ((binding, item) :: locals)) items
    let m ← logPage cx body? deeper? rest locals
    return n + m

/-- Starts a layer's page, unless the render is cancelled. -/
def logStart (scene : Scene) (template : String) : Logged Unit := do
  logCheck scene.heedsFlag
  pass (.start template scene.depth)
  unlogged (noteStart template scene.depth)

/-- Runs layers, the outermost one first. -/
def logLayers (scene : Scene) (deeper? : Option (String → Logged Unit)) : List Layer → Logged Unit
  | [] => pure ()
  | [leaf] => do
    logStart scene leaf.template
    let _ ← logPage ⟨scene, leaf.template, none⟩ none deeper? leaf.page []
  | outer :: next :: others => do
    logStart scene outer.template
    let rendered ← logPage ⟨scene, outer.template, some (runLayers scene (next :: others))⟩
      (some (logLayers scene deeper? (next :: others))) deeper? outer.page []
    if rendered = 0 then logLayers scene deeper? (next :: others)

end Render

namespace Session

/-- What the scene at a depth does to render a partial view, logged. -/
def logDeeper (s : Session) (depth : Nat) : (levels : Nat) → Option (String → Render.Logged Unit)
  | 0 => none
  | levels + 1 => some fun name => do
    Render.logCheck s.heedsFlag
    let layers ← Render.unlogged (s.partialLayers name)
    Render.logLayers (s.sceneAt (depth + 1) levels) (s.logDeeper (depth + 1) levels) layers

end Session

/-! ### What a log tells -/

/-- What it means for a run that it came to a passage with the cancel flag up: a page cannot start then, a look at the
flag is the last thing that happens, and after a tag there is nothing but such a look, or the fault of being too
deep. -/
def Passage.Heeded {α : Type} (p : Passage) (st : State) (r : Except ExecError α × State) : Prop :=
  st.cancelRequested = true →
    match p with
    | .start _ _ => False
    | .check => r = (.error .cancelled, st.note .refused)
    | .tag _ => r = (.error .cancelled, st.note .refused) ∨ ∃ e, r = (.error e, st)

namespace Passage.Heeded

variable {α β : Type} {p : Passage} {st st' : State}

/-- A run that does not end early has not come to a passage with the cancel flag up. -/
theorem of_ok {a : α} (h : p.Heeded st (.ok a, st')) (r : Except ExecError β × State) : p.Heeded st r := by
  intro hraised
  have hcase := h hraised
  cases p with
  | tag name => rcases hcase with h | ⟨e, h⟩ <;> cases h
  | check => cases hcase
  | start template depth => exact hcase

/-- How a run ends that ends early does not depend on what it would have given. -/
theorem of_error {e : ExecError} (h : p.Heeded st ((.error e, st') : Except ExecError α × State)) :
    p.Heeded st ((.error e, st') : Except ExecError β × State) := by
  intro hraised
  have hcase := h hraised
  cases p with
  | tag name =>
    rcases hcase with h | ⟨e', h⟩ <;> cases h
    · exact Or.inl rfl
    · exact Or.inr ⟨_, rfl⟩
  | check =>
    cases hcase
    rfl
  | start template depth => exact hcase

end Passage.Heeded

/-- What a run has come past, if it heeds the cancel flag: the pages that start are those that the journal tells of,
and each passage has been heeded. -/
structure PassageLog.Of {α : Type} (log : PassageLog) (heeds : Bool) (before : State)
    (r : Except ExecError α × State) : Prop where
  starts : startsOf r.2.journal.toList = startsOf before.journal.toList ++ log.starts
  heeded : heeds = true → ∀ p ∈ log, p.1.Heeded p.2 r

/-- A logged run of a program from a state. -/
def LogsFrom (heeds : Bool) {α : Type} (y : Render.Logged α) (x : Render α) (st : State) : Prop :=
  ∀ log, ∃ passed : PassageLog, passed.Of heeds st (ending x st) ∧
    ending y (st, log) = ((ending x st).1, (ending x st).2, log ++ passed)

/-- A logged run of a program, from whatever state. -/
def Logs (heeds : Bool) {α : Type} (y : Render.Logged α) (x : Render α) : Prop :=
  ∀ st, LogsFrom heeds y x st

theorem startsOf_append (journal more : List Event) :
    startsOf (journal ++ more) = startsOf journal ++ startsOf more :=
  List.filterMap_append

theorem PassageLog.starts_append (log more : PassageLog) :
    PassageLog.starts (log ++ more) = log.starts ++ more.starts :=
  List.filterMap_append

/-- Quiet programs start no page. -/
theorem startsOf_of_quiet {ε α : Type} {x : EStateM ε State α} (hx : Tells State.journal Event.Quiet x)
    (st : State) : startsOf (ending x st).2.journal.toList = startsOf st.journal.toList := by
  obtain ⟨told, htold, hquiet⟩ := hx st
  have hnone : startsOf told = [] := by
    refine List.filterMap_eq_nil_iff.mpr fun e he => ?_
    cases e with
    | started template depth => exact absurd rfl (hquiet _ he template depth)
    | _ => rfl
  rw [htold, startsOf_append, hnone, List.append_nil]

namespace Logs

variable {heeds : Bool} {α β : Type} {st : State}

theorem quiet {y : Render.Logged α} {x : Render α} (hx : Tells State.journal Event.Quiet x)
    (hy : ∀ st log, ending y (st, log) = ((ending x st).1, (ending x st).2, log)) : Logs heeds y x := by
  intro st log
  refine ⟨[], ⟨?_, fun _ p hp => absurd hp List.not_mem_nil⟩, ?_⟩
  · rw [startsOf_of_quiet hx st]
    exact (List.append_nil _).symm
  · rw [hy, List.append_nil]

theorem pure (a : α) : Logs heeds (Pure.pure a) (Pure.pure a) :=
  quiet (.pure a) fun _ _ => rfl

theorem throw (e : ExecError) :
    Logs heeds (MonadExcept.throw e : Render.Logged α) (MonadExcept.throw e) :=
  quiet (.throw e) fun _ _ => rfl

theorem unlogged {x : Render α} (hx : Tells State.journal Event.Quiet x) :
    Logs heeds (Render.unlogged x) x :=
  quiet hx fun st log => Render.ending_unlogged x st log

theorem bind_of {x : Render α} {y : Render.Logged α} {f : α → Render β} {g : α → Render.Logged β}
    (hx : LogsFrom heeds y x st)
    (hf : ∀ a st', ending x st = (.ok a, st') → LogsFrom heeds (g a) (f a) st') :
    LogsFrom heeds (y >>= g) (x >>= f) st := by
  intro log
  obtain ⟨passed, hpassed, hy⟩ := hx log
  rw [ending_bind, ending_bind, hy]
  rcases hr : ending x st with ⟨e | a, st'⟩ <;> rw [hr] at hpassed
  · exact ⟨passed, ⟨hpassed.starts, fun h p hp => Passage.Heeded.of_error (hpassed.heeded h p hp)⟩, rfl⟩
  · obtain ⟨more, hmore, hg⟩ := hf a st' hr (log ++ passed)
    refine ⟨passed ++ more, ⟨?_, fun h p hp => ?_⟩, ?_⟩
    · rw [hmore.starts, hpassed.starts, PassageLog.starts_append, List.append_assoc]
    · rcases List.mem_append.mp hp with hp | hp
      · exact Passage.Heeded.of_ok (hpassed.heeded h p hp) _
      · exact hmore.heeded h p hp
    · rw [← List.append_assoc]
      exact hg

theorem bind {x : Render α} {y : Render.Logged α} {f : α → Render β} {g : α → Render.Logged β}
    (hx : Logs heeds y x) (hf : ∀ a, Logs heeds (g a) (f a)) : Logs heeds (y >>= g) (x >>= f) :=
  fun st => bind_of (hx st) fun a st' _ => hf a st'

/-- A passage in which no page starts, in front of a run that heeds it. -/
theorem passing {p : Passage} (hp : p.started? = none) {x : Render α} {y : Render.Logged α}
    (hheeded : heeds = true → ∀ st, p.Heeded st (ending x st)) (h : Logs heeds y x) :
    Logs heeds (do Render.pass p; y) x := by
  intro st log
  obtain ⟨passed, hpassed, hy⟩ := h st (log ++ [(p, st)])
  refine ⟨(p, st) :: passed, ⟨?_, fun hheeds q hq => ?_⟩, ?_⟩
  · have hstarts : PassageLog.starts ((p, st) :: passed) = passed.starts := List.filterMap_cons_none hp
    rw [hpassed.starts, hstarts]
  · rcases List.mem_cons.mp hq with rfl | hq
    · exact hheeded hheeds st
    · exact hpassed.heeded hheeds q hq
  · rw [Render.ending_pass_bind, hy, List.append_assoc, List.singleton_append]

/-- A page starts with the cancel flag down. -/
theorem starting (template : String) (depth : Nat) (hdown : heeds = true → st.cancelRequested = false) :
    LogsFrom heeds
      (do Render.pass (.start template depth); Render.unlogged (Render.noteStart template depth))
      (Render.noteStart template depth) st := by
  intro log
  refine ⟨[(.start template depth, st)], ⟨?_, fun hheeds p hp hraised => ?_⟩, ?_⟩
  · have hnote : (ending (Render.noteStart template depth) st).2.journal.toList =
        st.journal.toList ++ [.started template depth] := History.toList_push _ _
    rw [hnote, startsOf_append]
    rfl
  · obtain rfl := List.mem_singleton.mp hp
    rw [hdown hheeds] at hraised
    cases hraised
  · rw [Render.ending_pass_bind, Render.ending_unlogged]

end Logs

/-! ### Logged runs of pages and layers -/

namespace Render

variable {heeds : Bool}

theorem checkCancelled_quiet (heeds : Bool) : Tells State.journal Event.Quiet (checkCancelled heeds) := by
  intro st
  rw [ending_checkCancelled]
  split_ifs
  · exact ⟨[.refused], History.toList_push _ _, by simp [Event.Quiet]⟩
  · exact ⟨[], (List.append_nil _).symm, by simp⟩

/-- With the flag up a look at it ends the run. -/
theorem ending_checkCancelled_raised {st : State} (h : st.cancelRequested = true) :
    ending (checkCancelled true) st = (.error .cancelled, st.note .refused) := by
  rw [ending_checkCancelled, h]
  rfl

theorem logCheck_logs (heeds : Bool) : Logs heeds (logCheck heeds) (checkCancelled heeds) := by
  refine .passing rfl (fun hheeds st hraised => ?_) (.unlogged (checkCancelled_quiet heeds))
  rw [hheeds]
  exact ending_checkCancelled_raised hraised

/-- A page starts only after a look at the flag that has found it down. -/
theorem logStart_logs {scene : Scene} (hscene : scene.heedsFlag = heeds) (template : String) :
    Logs heeds (logStart scene template) (do
      checkCancelled scene.heedsFlag
      noteStart template scene.depth) := by
  subst hscene
  intro st
  refine Logs.bind_of (logCheck_logs scene.heedsFlag st) fun _ st' hcheck => ?_
  refine Logs.starting template scene.depth fun hheeds => ?_
  rw [ending_checkCancelled, hheeds, Bool.true_and] at hcheck
  split_ifs at hcheck with hraised
  · cases congrArg Prod.fst hcheck
  · obtain rfl : st = st' := congrArg Prod.snd hcheck
    exact Bool.eq_false_iff.mpr hraised

theorem writeText_quiet (text : String) : Tells State.journal Event.Quiet (writeText text) :=
  .nothing fun st => by rw [ending_writeText]; rfl

theorem orFault_quiet {α : Type} (cx : PageContext) (pos : Text.Position) (v : Except Fault α) :
    Tells State.journal Event.Quiet (orFault cx pos v) := by
  cases v with
  | ok a => exact .pure a
  | error fault => exact .throw _

theorem echo_quiet (cx : PageContext) (locals : Locals) (e : Template.Expr) (escaped : Bool)
    (pos : Text.Position) : Tells State.journal Event.Quiet (echo cx locals e escaped pos) := by
  intro st
  exact ((orFault_quiet cx pos _).bind fun text => writeText_quiet text) st

theorem items_quiet (cx : PageContext) (locals : Locals) (source : Template.Expr) (pos : Text.Position) :
    Tells State.journal Event.Quiet (items cx locals source pos) :=
  fun st => orFault_quiet cx pos (loopItems cx.scene.model locals st.bag source) st

section Pages

variable {cx : PageContext} {body? : Option (Logged Unit)} {deeper? : Option (String → Logged Unit)}

theorem logBody_logs (hbody : Option.Rel (Logs heeds) body? cx.body?) (pos : Text.Position) :
    Logs heeds (logBody cx body? pos) (renderBody cx pos) := by
  unfold logBody renderBody
  generalize cx.body? = rendered? at hbody ⊢
  cases hbody with
  | none => exact .throw _
  | some h => exact h

/-- After a tag with the flag up there is only a look at the flag, or the fault of being too deep. -/
theorem partialView_heeded (name : String) (pos : Text.Position) (hheeds : cx.scene.heedsFlag = true)
    (st : State) : (Passage.tag name).Heeded st (ending (partialView cx name pos) st) := by
  intro hraised
  unfold partialView
  cases cx.scene.deeper? with
  | none => exact Or.inr ⟨_, rfl⟩
  | some render =>
    rw [hheeds]
    exact Or.inl (ending_bind_error (ending_checkCancelled_raised hraised) _)

theorem logPartial_logs (hheeds : cx.scene.heedsFlag = heeds)
    (hdeeper : Option.Rel (fun y x => ∀ name, Logs heeds (y name) (x name)) deeper? cx.scene.deeper?)
    (name : String) (pos : Text.Position) :
    Logs heeds (logPartial cx deeper? name pos) (partialView cx name pos) := by
  refine .passing rfl (fun h => partialView_heeded name pos (hheeds.trans h)) ?_
  unfold partialView
  generalize cx.scene.deeper? = rendering? at hdeeper ⊢
  cases hdeeper with
  | none => exact .throw _
  | some h =>
    rw [hheeds]
    exact (logCheck_logs heeds).bind fun _ => h name

theorem add_logs {y y' : Logged Nat} {x x' : Render Nat} (h : Logs heeds y x) (h' : Logs heeds y' x') :
    Logs heeds
      (do
        let n ← y
        let m ← y'
        return n + m)
      (do
        let n ← x
        let m ← x'
        return n + m) :=
  h.bind fun n => h'.bind fun m => .pure (n + m)

theorem logOver_logs {α : Type} {log : α → Logged Nat} {run : α → Render Nat}
    (h : ∀ a, Logs heeds (log a) (run a)) (as : List α) : Logs heeds (logOver log as) (sumOver run as) := by
  induction as with
  | nil => exact .pure 0
  | cons a as ih => exact add_logs (h a) ih

theorem logPage_logs (hheeds : cx.scene.heedsFlag = heeds) (hbody : Option.Rel (Logs heeds) body? cx.body?)
    (hdeeper : Option.Rel (fun y x => ∀ name, Logs heeds (y name) (x name)) deeper? cx.scene.deeper?)
    (page : Page) (locals : Locals) :
    Logs heeds (logPage cx body? deeper? page locals) (runPage cx page locals) := by
  induction page generalizing locals with
  | done => exact .pure 0
  | text content rest ih => exact (Logs.unlogged (writeText_quiet content)).bind fun _ => ih locals
  | echo e escaped pos rest ih =>
    exact (Logs.unlogged (echo_quiet cx locals e escaped pos)).bind fun _ => ih locals
  | renderBody pos rest ih =>
    exact (logBody_logs hbody pos).bind fun _ => (ih locals).bind fun n => .pure (1 + n)
  | partialView name pos rest ih =>
    exact (logPartial_logs hheeds hdeeper name pos).bind fun _ => ih locals
  | set key value rest ih =>
    have hset : Tells State.journal Event.Quiet (set cx locals key value) := .nothing fun _ => rfl
    exact (Logs.unlogged hset).bind fun _ => ih locals
  | cond e yes no rest ihyes ihno ih =>
    have htest : Tells State.journal Event.Quiet (test cx locals e) := .nothing fun _ => rfl
    refine (Logs.unlogged htest).bind fun b => ?_
    cases b with
    | true => exact add_logs (ihyes locals) (ih locals)
    | false => exact add_logs (ihno locals) (ih locals)
  | each source binding body pos rest ihbody ih =>
    rw [runPage_each]
    refine (Logs.unlogged (items_quiet cx locals source pos)).bind fun items => ?_
    exact add_logs (logOver_logs (fun item => ihbody ((binding, item) :: locals)) items) (ih locals)

end Pages

theorem logLayers_logs {scene : Scene} {deeper? : Option (String → Logged Unit)}
    (hheeds : scene.heedsFlag = heeds)
    (hdeeper : Option.Rel (fun y x => ∀ name, Logs heeds (y name) (x name)) deeper? scene.deeper?)
    (layers : List Layer) : Logs heeds (logLayers scene deeper? layers) (runLayers scene layers) := by
  have hlayer : ∀ layer body? body, Option.Rel (Logs heeds) body? body →
      Logs heeds
        (do
          logStart scene layer.template
          logPage ⟨scene, layer.template, body⟩ body? deeper? layer.page [])
        (runLayer scene layer body) := by
    intro layer body? body hbody
    have hpage : Logs heeds (logPage ⟨scene, layer.template, body⟩ body? deeper? layer.page [])
        (runPage ⟨scene, layer.template, body⟩ layer.page []) :=
      logPage_logs hheeds hbody hdeeper layer.page []
    have hboth := (logStart_logs hheeds layer.template).bind fun _ => hpage
    simpa only [bind_assoc, runLayer] using hboth
  induction layers with
  | nil => exact .pure ()
  | cons outer inner ih =>
    cases inner with
    | nil =>
      have hleaf := (hlayer outer none none .none).bind fun _ => .pure ()
      simpa only [bind_assoc, logLayers, runLayers] using hleaf
    | cons next others =>
      have hbody : Option.Rel (Logs heeds) (some (logLayers scene deeper? (next :: others)))
          (some (runLayers scene (next :: others))) := .some ih
      have hboth := (hlayer outer _ _ hbody).bind fun rendered =>
        show Logs heeds (if rendered = 0 then logLayers scene deeper? (next :: others) else Pure.pure ())
            (if rendered = 0 then runLayers scene (next :: others) else Pure.pure ()) by
          split
          · exact ih
          · exact .pure ()
      simpa only [bind_assoc, logLayers, runLayers] using hboth

end Render

namespace Session

theorem heedsFlag_sceneAt (s : Session) (depth levels : Nat) : (s.sceneAt depth levels).heedsFlag = s.heedsFlag := by
  cases levels <;> rfl

theorem logDeeper_logs (s : Session) (levels depth : Nat) :
    Option.Rel (fun y x => ∀ name, Logs s.heedsFlag (y name) (x name)) (s.logDeeper depth levels)
      (s.sceneAt depth levels).deeper? := by
  induction levels generalizing depth with
  | zero => exact .none
  | succ levels ih =>
    rw [sceneAt_succ]
    refine .some fun name => (Render.logCheck_logs s.heedsFlag).bind fun _ => ?_
    refine (Logs.unlogged (s.partialLayers_quiet name)).bind fun layers => ?_
    exact Render.logLayers_logs (s.heedsFlag_sceneAt (depth + 1) levels) (ih (depth + 1)) layers

/-- The layers of the view, logged. -/
def logScene (s : Session) (layers : List Layer) : Render.Logged Unit :=
  Render.logLayers s.scene (s.logDeeper 0 s.settings.maxPartialDepth) layers

theorem logScene_logs (s : Session) (layers : List Layer) :
    Logs s.heedsFlag (s.logScene layers) (Render.runLayers s.scene layers) :=
  Render.logLayers_logs (s.heedsFlag_sceneAt 0 _) (s.logDeeper_logs _ 0) layers

end Session

end LayeredViews
