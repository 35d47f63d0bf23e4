import LayeredViews.Html.Escape
import LayeredViews.Json.Basic

/-!
# Failures — what went wrong in a page, and the page that says so

A failure names a page, the stage in which it failed and its diagnostics.  `Failure.page` is a
complete HTML document with one list entry for each diagnostic; all text of the failure is escaped.
-/

namespace LayeredViews

/-- One message at a place of a page, line and column from one. -/
structure Diagnostic where
  line : Nat
  column : Nat
  message : String
deriving DecidableEq, Repr

/-- The message with its place in front. -/
def Diagnostic.text (d : Diagnostic) : String :=
  d.line.repr ++ ":" ++ d.column.repr ++ ": " ++ d.message

/-- When a page failed. -/
inductive Stage where
  | compilation
  | execution
deriving DecidableEq, Repr

def Stage.name : Stage → String
  | .compilation => "compilation"
  | .execution => "execution"

/-- The heading of a failure's page. -/
def Stage.title : Stage → String
  | .compilation => "View compilation failed"
  | .execution => "View rendering failed"

structure Failure where
  template : String
  stage : Stage
  diagnostics : List Diagnostic
deriving DecidableEq, Repr

namespace Failure

/-! ### The page -/

/-- The list entry of a diagnostic. -/
def entry (d : Diagnostic) : String :=
  "<li>Line: " ++ d.line.repr ++ " Column: " ++ d.column.repr ++ " - " ++ Html.escape d.message ++
    "</li>"

/-- The entries, each on a line of its own. -/
def entries (ds : List Diagnostic) : String :=
  "\n".intercalate (ds.map entry)

/-- The page's name and its diagnostics. -/
def details (f : Failure) : String :=
  "Template: <strong>" ++ Html.escape f.template ++ "</strong><br/><br/>Errors:<ul>" ++
    entries f.diagnostics ++ "</ul>"

/-- A complete document around the details. -/
def page (f : Failure) : String :=
  "<!DOCTYPE html>\n<html>\n<head><meta charset=\"utf-8\"><title>" ++ f.stage.title ++
    "</title></head>\n<body>\n<h1>" ++ f.stage.title ++ "</h1>\n" ++ f.details ++
    "\n</body>\n</html>\n"

/-! ### As JSON -/

def diagnosticToJson (d : Diagnostic) : Json :=
  Json.object [("line", Json.nat d.line), ("column", Json.nat d.column), ("message", .str d.message)]

def toJson (f : Failure) : Json :=
  Json.object [("template", .str f.template), ("stage", .str f.stage.name),
    ("diagnostics", .arr (f.diagnostics.map diagnosticToJson))]

/-- The values of a record's fields: by name in an object, or by place in an array of that
length. -/
def record? (names : List String) (v : Json) : Option (List Json) :=
  match v with
  | .obj _ => names.mapM fun name => v.field? name
  | .arr items => if items.length = names.length then some items else none
  | _ => none

def diagnosticOfJson? (v : Json) : Option Diagnostic := do
  match ← record? ["line", "column", "message"] v with
  | [line, column, message] => return ⟨← line.size?, ← column.size?, ← message.str?⟩
  | _ => none

/-- A stage by its name; an object that maps the name to null will do. -/
def stageOfJson? (v : Json) : Option Stage :=
  let name := match v with
    | .str s => s
    | .obj [(s, .null)] => s
    | _ => ""
  if name = Stage.compilation.name then some .compilation
  else if name = Stage.execution.name then some .execution
  else none

/-- Reads a failure; fields with other names do not count. -/
def ofJson? (v : Json) : Option Failure := do
  match ← record? ["template", "stage", "diagnostics"] v with
  | [template, stage, diagnostics] =>
    let items ← diagnostics.arr?
    return ⟨← template.str?, ← stageOfJson? stage, ← items.mapM diagnosticOfJson?⟩
  | _ => none

end Failure

end LayeredViews
