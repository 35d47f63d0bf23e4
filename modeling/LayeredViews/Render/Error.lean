import LayeredViews.Failure
import LayeredViews.Output.Sink
import LayeredViews.Text.Position
import LayeredViews.View.Basic

/-!
# Errors of a render — while composing, while running, and as the caller sees them

A fault is what a node of a running page may meet.  An execution error ends the run of a page and of
all pages around it; a render error is what is left of it for the caller, who also learns whether
some output has been committed.
-/

namespace LayeredViews

/-- What a node of a running page may meet. -/
inductive Fault where
  | undefinedValue (text : String)
  | arrayEcho (text : String)
  | objectEcho (text : String)
  | notAnArray (text : String)
  | bodyOutsideLayout
  | tooDeep (maxDepth : Nat) (name : String)
deriving DecidableEq, Repr

def Fault.message : Fault → String
  | .undefinedValue text => "Undefined value '" ++ text ++ "'"
  | .arrayEcho text =>
    "Array '" ++ text ++ "' cannot be rendered directly; use \x7b\x7b each \x7d\x7d"
  | .objectEcho text => "Object '" ++ text ++ "' cannot be rendered directly; use a nested key"
  | .notAnArray text => "'" ++ text ++ "' is not an array"
  | .bodyOutsideLayout => "render_body is only valid in a layout"
  | .tooDeep maxDepth name =>
    "Partial nesting exceeds " ++ maxDepth.repr ++ " levels at '" ++ name ++ "'"

/-- Why a layering could not be composed. -/
inductive ComposeError where
  | failure (f : Failure)
  | content (e : ContentError)
deriving DecidableEq, Repr

/-- What a caller is told who asks for the layers alone. -/
def ComposeError.message : ComposeError → String
  | .failure f => "Template '" ++ f.template ++ "' failed to compile"
  | .content e => e.message

/-- Why the run of a page ended early. -/
inductive ExecError where
  | notFound (name : String)
  | compilation (f : Failure)
  | runtime (template : String) (pos : Text.Position) (fault : Fault)
  | cancelled
  | content (e : ContentError)
  | sink (fault : SinkFault)
deriving DecidableEq, Repr

def ExecError.message : ExecError → String
  | .notFound name => "The partial view '" ++ name ++ "' was not found"
  | .compilation f => "Partial '" ++ f.template ++ "' failed to compile"
  | .runtime template pos fault =>
    template ++ " (" ++ pos.line.repr ++ ":" ++ pos.column.repr ++ "): " ++ fault.message
  | .cancelled => "Render cancelled"
  | .content e => e.message
  | .sink fault => "Output error: " ++ fault.message

/-- Why a render gave nothing to show. -/
inductive RenderError where
  | viewNotFound (name : String)
  | content (e : ContentError)
  | committed (view : String) (source : ExecError)
  | cancelled (view : String) (partialOutput : Bool)
  | sink (fault : SinkFault)
deriving DecidableEq, Repr

namespace RenderError

def message : RenderError → String
  | .viewNotFound name => "View not found: " ++ name
  | .content e => "Content source error: " ++ e.message
  | .committed view source =>
    "Render of '" ++ view ++ "' failed after output was committed: " ++ source.message
  | .cancelled view _ => "Render of '" ++ view ++ "' was cancelled"
  | .sink fault => "Output error: " ++ fault.message

/-- A view was missing, the one asked for or a partial one. -/
def isNotFound : RenderError → Bool
  | .viewNotFound _ => true
  | .committed _ (.notFound _) => true
  | _ => false

/-- Says of itself that output had been committed. -/
def isPartialOutput : RenderError → Bool
  | .committed _ _ => true
  | .cancelled _ partialOutput => partialOutput
  | _ => false

end RenderError

end LayeredViews
