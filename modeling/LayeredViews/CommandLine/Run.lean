import LayeredViews.Catalog.Directory
import LayeredViews.CommandLine.Arguments
import LayeredViews.Engine
import LayeredViews.Json.Printer

/-!
# The command line — render a view, list the views, check them all

`run` answers arguments with an exit code, the standard output and at most one complaint.  Paths
are those of a file system, and settings are loaded before anything else.
-/

namespace LayeredViews.CommandLine

/-- Version shown in reports. -/
def version : String := "1.0.0"

/-- What the standard error tells. -/
inductive Complaint where
  | usage
  | settings (e : SettingsError)
  | model (e : Json.ReadError)
  | viewNotFound (name : String)
  | render (e : RenderError)
  | listing (e : ContentError)
  | check (e : ContentError)

/-- How a mistake in JSON text is worded; `none` is a document of the wrong shape. -/
abbrev Wording := Option Json.ReadError → String

def Wording.standard : Wording
  | some e => e.message
  | none => "unexpected shape"

/-- A message put between the quotes of a JSON field as it is. -/
def plainField (before message after : String) : String :=
  "\x7b" ++ before ++ "\"error\": \"" ++ message ++ "\"" ++ after ++ "\x7d"

/-- The line that a complaint prints. -/
def Complaint.line (wording : Wording) : Complaint → String
  | .usage => "usage: [--views-dir PATH] [--config FILE] render|list|check"
  | .settings e => plainField "" ("Failed to load settings: " ++ e.message wording) ""
  | .model e => plainField "\"success\": false, " ("Invalid model: " ++ wording (some e)) ""
  | .viewNotFound name => plainField "\"success\": false, " ("View not found: " ++ name) ""
  | .render e =>
    (Json.object [("success", .bool false), ("error", .str e.message),
      ("partialOutput", .bool e.isPartialOutput)]).compact
  | .listing e => plainField "" e.message ""
  | .check e => plainField "\"valid\": false, " e.message ""

/-- What a run leaves behind. -/
structure Report where
  exitCode : Nat
  output : String
  complaint : Option Complaint

namespace Report

def success (output : String) : Report := ⟨0, output, none⟩

def failure (exitCode : Nat) (output : String) (complaint : Complaint) : Report :=
  ⟨exitCode, output, some complaint⟩

end Report

/-! ### Settings -/

/-- Settings from a file, if it is there, and from the environment. -/
def loadSettings (files : FileSystem) (env : String → Option String) (file : Option String) :
    Except SettingsError Settings := do
  let s ← match file with
    | none => .ok Settings.default
    | some path =>
      if files.has path then
        match files.readText path with
        | .ok text => Settings.ofText text
        | .error fault => .error (.unreadable fault)
      else .ok Settings.default
  match (Settings.applyEnvironment env).run s with
  | .error e _ => .error e
  | .ok _ s' =>
    s'.validate
    return s'

/-! ### Commands -/

/-- Renders a view; what has been committed is printed in any case. -/
def renderView (e : Engine) (view : String) (model : Json) : Report :=
  let s := e.session .uninterrupted view model
  match s.run.run (s.start .accepting false e.bench) with
  | .ok (.completed _) final => .success final.out.sink.received
  | .ok (.diagnosticPage _) final => ⟨2, final.out.sink.received, none⟩
  | .error (.viewNotFound name) final =>
    .failure 3 final.out.sink.received (.viewNotFound name)
  | .error err final => .failure 1 final.out.sink.received (.render err)

def viewEntry (v : View) : Json :=
  Json.object [("view", .str v.path), ("file", .str v.fullName)]

/-- Lists all views, or those directly in a directory. -/
def listViews (e : Engine) (directory : Option String) : Report :=
  let views := match directory with
    | some d => e.finder.listUnder d
    | none => e.finder.listAll
  match views with
  | .ok vs => .success ((Json.arr (vs.map viewEntry)).pretty ++ "\n")
  | .error err => .failure 1 "" (.listing err)

/-- Compiles all views and reports their failures, with the time given. -/
def checkViews (e : Engine) (now : String) : Report :=
  match e.checkAll.1 with
  | .ok failures =>
    let report := Json.object [("engineVersion", .str version), ("generatedAt", .str now),
      ("valid", .bool failures.isEmpty), ("failures", .arr (failures.map Failure.toJson))]
    ⟨if failures.isEmpty then 0 else 2, report.pretty ++ "\n", none⟩
  | .error err => .failure 1 "" (.check err)

/-- Runs an invocation. -/
def runInvocation (files : FileSystem) (env : String → Option String) (now : String)
    (i : Invocation) : Report :=
  match loadSettings files env i.settingsFile with
  | .error e => .failure 1 "" (.settings e)
  | .ok settings =>
    let e := Engine.new settings (Directory.toCatalog ⟨files, i.viewsDirectory⟩)
    match i.command with
    | .render view model =>
      match Json.read model with
      | .ok m => renderView e view m
      | .error err => .failure 1 "" (.model err)
    | .list directory => listViews e directory
    | .check => checkViews e now

/-- Runs the command line. -/
def run (files : FileSystem) (env : String → Option String) (now : String)
    (arguments : List String) : Report :=
  match readInvocation arguments with
  | some i => runInvocation files env now i
  | none => .failure 2 "" .usage

end LayeredViews.CommandLine
