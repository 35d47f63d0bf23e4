import LayeredViews.Json.Reader
import LayeredViews.View.Basic

/-!
# Settings — how an engine finds and renders views

Settings come from the `views` section of a JSON document, and environment variables lie on top of
them.  A variable that cannot be read stops the others; what was changed before it stays changed.
-/

namespace LayeredViews

structure Settings where
  /-- Extensions of views, in order of preference. -/
  extensions : List String
  layoutName : String
  /-- How many bytes of output may be held back. -/
  bufferLimit : Nat
  maxPartialDepth : Nat
  cacheCompiled : Bool
  /-- Whether partial views are wrapped in layouts too. -/
  layoutsForPartials : Bool
deriving DecidableEq, Repr

/-- Why settings are refused. -/
inductive SettingsError where
  | unreadable (fault : ReadFault)
  | notJson (e : Json.ReadError)
  | wrongShape
  | invalidValue (field reason : String)
deriving DecidableEq, Repr

/-- The message, given the wording for a document that is not JSON or has the wrong shape. -/
def SettingsError.message (wording : Option Json.ReadError → String) : SettingsError → String
  | .unreadable fault => "Failed to read settings: " ++ fault.message
  | .notJson e => "Failed to parse settings: " ++ wording (some e)
  | .wrongShape => "Failed to parse settings: " ++ wording none
  | .invalidValue field reason => "Invalid value for " ++ field ++ ": " ++ reason

namespace Settings

def default : Settings where
  extensions := ["html"]
  layoutName := "_ViewStart"
  bufferLimit := 65536
  maxPartialDepth := 16
  cacheCompiled := false
  layoutsForPartials := false

/-! ### From JSON -/

/-- The names of the fields, in the order of the array form. -/
def fieldNames : List String :=
  ["extensions", "layoutName", "bufferLimit", "maxPartialDepth", "cacheCompiled",
    "layoutsForPartials"]

/-- Reads a field that may be missing. -/
def orDefault {α : Type} (read : Json → Option α) (default : α) : Option Json → Option α
  | none => some default
  | some v => read v

def stringsOfJson? (v : Json) : Option (List String) :=
  v.arr?.bind fun items => items.mapM Json.str?

/-- Settings from the values of the fields that are given. -/
def ofFields? (get : String → Option Json) : Option Settings := do
  let d := default
  return {
    extensions := ← orDefault stringsOfJson? d.extensions (get "extensions")
    layoutName := ← orDefault Json.str? d.layoutName (get "layoutName")
    bufferLimit := ← orDefault Json.size? d.bufferLimit (get "bufferLimit")
    maxPartialDepth := ← orDefault Json.size? d.maxPartialDepth (get "maxPartialDepth")
    cacheCompiled := ← orDefault Json.bool? d.cacheCompiled (get "cacheCompiled")
    layoutsForPartials := ← orDefault Json.bool? d.layoutsForPartials (get "layoutsForPartials") }

/-- Reads a section: an object, or an array of the fields in order, of which the last ones may be
missing. -/
def ofSection? (v : Json) : Option Settings :=
  match v with
  | .obj _ => ofFields? fun name => v.field? name
  | .arr items =>
    if items.length ≤ fieldNames.length then
      ofFields? fun name => Table.find? name (fieldNames.zip items)
    else none
  | _ => none

/-- The settings of a document; without a section they are the default ones. -/
def ofDocument (root : Json) : Except SettingsError Settings :=
  match root.field? "views" with
  | none => .ok default
  | some views =>
    match ofSection? views with
    | some s => .ok s
    | none => .error .wrongShape

/-- Reads a whole document. -/
def ofText (text : String) : Except SettingsError Settings :=
  match Json.read text with
  | .ok root => ofDocument root
  | .error e => .error (.notJson e)

/-! ### From the environment -/

/-- A change to settings that may be refused half way. -/
abbrev Change := EStateM SettingsError Settings

def readSize (name value : String) : Except SettingsError Nat :=
  match Text.readNat Text.sizeMax (Text.trim value.toList) with
  | .ok n => .ok n
  | .error e => .error (.invalidValue name e.message)

def readBool (name value : String) : Except SettingsError Bool :=
  let t := Text.trim value.toList
  if t = "true".toList then .ok true
  else if t = "false".toList then .ok false
  else .error (.invalidValue name "provided string was not `true` or `false`")

/-- An extension without blanks around it and dots before it. -/
def cleanExtension (cs : List Char) : List Char :=
  (Text.trim cs).dropWhile (· == '.')

/-- Extensions with commas between them; empty ones do not count. -/
def readExtensions (value : String) : List String :=
  (((Text.pieces (· == ',') value.toList).map cleanExtension).filter fun e => !e.isEmpty).map
    String.ofList

/-- Applies one variable, if it is set. -/
def applyVariable {α : Type} (env : String → Option String) (name : String)
    (read : String → String → Except SettingsError α) (set : α → Settings → Settings) :
    Change Unit := fun s =>
  match env name with
  | none => .ok () s
  | some value =>
    match read name value with
    | .ok a => .ok () (set a s)
    | .error e => .error e s

/-- The names of the variables, in the order in which they are applied. -/
def variableNames : List String :=
  ["VIEWFORGE_LAYOUT_NAME", "VIEWFORGE_BUFFER_LIMIT", "VIEWFORGE_MAX_PARTIAL_DEPTH",
    "VIEWFORGE_CACHE", "VIEWFORGE_EXTENSIONS"]

/-- Applies the environment's variables in order. -/
def applyEnvironment (env : String → Option String) : Change Unit := do
  applyVariable env "VIEWFORGE_LAYOUT_NAME" (fun _ v => .ok v) fun v s => { s with layoutName := v }
  applyVariable env "VIEWFORGE_BUFFER_LIMIT" readSize fun v s => { s with bufferLimit := v }
  applyVariable env "VIEWFORGE_MAX_PARTIAL_DEPTH" readSize fun v s => { s with maxPartialDepth := v }
  applyVariable env "VIEWFORGE_CACHE" readBool fun v s => { s with cacheCompiled := v }
  applyVariable env "VIEWFORGE_EXTENSIONS" (fun _ v => .ok (readExtensions v)) fun v s =>
    { s with extensions := v }

/-! ### Validity -/

/-- Refuses settings with which no view could be found. -/
def validate (s : Settings) : Except SettingsError Unit :=
  if s.extensions.isEmpty then
    .error (.invalidValue "extensions" "at least one extension is required")
  else if (Text.trim s.layoutName.toList).isEmpty || s.layoutName.toList.contains '/' then
    .error (.invalidValue "layoutName" ("'" ++ s.layoutName ++ "' is not a plain view name"))
  else .ok ()

end Settings

end LayeredViews
