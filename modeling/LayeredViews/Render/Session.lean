import LayeredViews.Render.Layers
import LayeredViews.Settings

/-!
# Sessions — one render from a path to the sink

A session resolves the path, composes the layering and runs the layers.  Before output is committed
a failure of a page is replaced by the failure's own page; afterwards it goes to the caller.
-/

namespace LayeredViews

/-- What a render that did not fail gave. -/
inductive Outcome where
  /-- The view was rendered; so many bytes went to the sink. -/
  | completed (bytes : Nat)
  /-- The sink holds the page of a failure. -/
  | diagnosticPage (f : Failure)
deriving DecidableEq, Repr

/-- What stays fixed during a render. -/
structure Session where
  catalog : Catalog
  settings : Settings
  view : String
  model : Json
  /-- Whether the cancel flag is looked at. -/
  heedsFlag : Bool
  /-- Whether a lookup raises the cancel flag, given how many came before. -/
  raises : Nat → Address → Bool

namespace Session

def finder (s : Session) : Finder := ⟨s.catalog, s.settings.extensions⟩

/-- The state in which a render starts. -/
def start (s : Session) (sink : Sink) (flag : Bool) (bench : Bench) : State where
  phase := .resolving
  bag := .empty
  out := .on sink s.settings.bufferLimit
  flag := flag
  lookups := 0
  bench := bench

/-! ### Partial views -/

/-- The layering of a partial view, with layouts only if the settings want them. -/
def resolvePartial (s : Session) (name : String) : Search Layering :=
  if s.settings.layoutsForPartials then Layering.resolve s.finder s.settings.layoutName name
  else do return .alone (← s.finder.require name)

/-- What a missing or unreadable partial view means to the page that asks for it. -/
def partialLookupError (name : String) : ContentError → ExecError
  | .notFound _ => .notFound name
  | e => .content e

def partialComposeError : ComposeError → ExecError
  | .failure f => .compilation f
  | .content e => .content e

/-- The scene at a depth, with `levels` levels of partial views left below it. -/
def sceneAt (s : Session) (depth : Nat) : (levels : Nat) → Scene
  | 0 => ⟨s.model, depth, s.settings.maxPartialDepth, s.heedsFlag, none⟩
  | levels + 1 =>
    ⟨s.model, depth, s.settings.maxPartialDepth, s.heedsFlag, some fun name => do
      Render.checkCancelled s.heedsFlag
      let layering ← (State.search s.raises (s.resolvePartial name)).adaptExcept
        (partialLookupError name)
      let layers ← (State.compose (Compose.layers layering)).adaptExcept partialComposeError
      Render.runLayers (s.sceneAt (depth + 1) levels) layers⟩

/-- The scene of the view itself. -/
def scene (s : Session) : Scene := s.sceneAt 0 s.settings.maxPartialDepth

/-! ### The render -/

/-- A computation on the render state that ends in a render error. -/
abbrev Run := EStateM RenderError State

def enter (phase : Phase) : Run Unit :=
  modify fun s => { s with phase }

/-- Ends the session as failed. -/
def fatal {α : Type} (e : RenderError) : Run α := do
  enter .failed
  throw e

/-- Runs something whose error is looked at afterwards. -/
def attempt {ε α : Type} (x : EStateM ε State α) : Run (Except ε α) := fun s =>
  match x.run s with
  | .ok a s' => .ok (.ok a) s'
  | .error e s' => .ok (.error e) s'

/-- Writes on the output; a refusal of the sink ends the session where it is. -/
def onOutput {α : Type} (x : Output.Write α) : Run α :=
  (State.write x).adaptExcept .sink

/-- Puts the page of a failure in place of all that is not committed. -/
def showFailure (f : Failure) : Run Outcome := do
  enter .failed
  modify fun s => { s with out := s.out.discard.2 }
  onOutput (Output.write f.page)
  let _ ← onOutput Output.finish
  return .diagnosticPage f

/-- What becomes of an execution error. -/
def executionFailed (s : Session) (e : ExecError) : Run Outcome := do
  let committed := (← get).out.committed
  match e with
  | .cancelled => fatal (.cancelled s.view committed)
  | .content e => fatal (.content e)
  | .sink fault => fatal (.sink fault)
  | .notFound name =>
    if committed then fatal (.committed s.view (.notFound name)) else fatal (.viewNotFound name)
  | .compilation f =>
    if committed then fatal (.committed s.view (.compilation f)) else showFailure f
  | .runtime template pos fault =>
    if committed then fatal (.committed s.view (.runtime template pos fault))
    else showFailure ⟨template, .execution, [Template.diagnosticAt pos fault.message]⟩

/-- Resolves the view. -/
def resolve (s : Session) : Run Layering := do
  enter .resolving
  if s.heedsFlag && (← get).cancelRequested then fatal (.cancelled s.view false)
  else
    match ← attempt (State.search s.raises
        (Layering.resolve s.finder s.settings.layoutName s.view)) with
    | .ok layering => return layering
    | .error (.notFound _) => fatal (.viewNotFound s.view)
    | .error e => fatal (.content e)

/-- Runs composed layers and finishes the output. -/
def execute (s : Session) (layers : List Layer) : Run Outcome := do
  enter .executing
  match ← attempt (Render.runLayers s.scene layers) with
  | .ok _ =>
    let bytes ← onOutput Output.finish
    enter .completed
    return .completed bytes
  | .error e => s.executionFailed e

/-- The whole render. -/
def run (s : Session) : Run Outcome := do
  let layering ← s.resolve
  enter .composing
  match ← attempt (State.compose (Compose.layers layering)) with
  | .ok layers => s.execute layers
  | .error (.failure f) => showFailure f
  | .error (.content e) => fatal (.content e)

end Session

end LayeredViews
