import LayeredViews.Text.Split

/-!
# Arguments — what the command line asks for

Options stand before or after the name of a command, each where it belongs.  An option has a value:
after `=`, right after its letter, or as the next argument, which then may not start with a dash
unless it is a lone one.  No option may be given twice.
-/

namespace LayeredViews.CommandLine

inductive Command where
  | render (view model : String)
  | list (directory : Option String)
  | check
deriving DecidableEq, Repr

/-- A command with the options that stand before it. -/
structure Invocation where
  viewsDirectory : String
  settingsFile : Option String
  command : Command
deriving DecidableEq, Repr

/-! ### Options -/

/-- The names of an option. -/
structure OptionName where
  long : String
  short : Option Char
deriving DecidableEq, Repr

/-- Values by the long names of their options. -/
abbrev Values := List (String × String)

/-- What an argument is when options are expected. -/
inductive Argument where
  /-- An option whose value is in the same argument. -/
  | withValue (name : String) (value : String)
  /-- An option whose value is the next argument. -/
  | withoutValue (name : String)
  /-- Ends the options. -/
  | endOfOptions
  | unknownOption
  | word
deriving DecidableEq, Repr

/-- Splits the text of a long option at its equals sign. -/
def readLong (options : List OptionName) (cs : List Char) : Argument :=
  let (name, value) : List Char × Option (List Char) := match Text.cut? (· == '=') cs with
    | some (name, value) => (name, some value)
    | none => (cs, none)
  match options.find? fun o => o.long.toList == name, value with
  | none, _ => .unknownOption
  | some o, some value => .withValue o.long (String.ofList value)
  | some o, none => .withoutValue o.long

/-- Splits the text of a short option after its letter. -/
def readShort (options : List OptionName) (letter : Char) (rest : List Char) : Argument :=
  match options.find? fun o => o.short == some letter with
  | none => .unknownOption
  | some o =>
    match rest with
    | [] => .withoutValue o.long
    | '=' :: value => .withValue o.long (String.ofList value)
    | value => .withValue o.long (String.ofList value)

def readArgument (options : List OptionName) (argument : String) : Argument :=
  match argument.toList with
  | ['-', '-'] => .endOfOptions
  | '-' :: '-' :: cs => readLong options cs
  | '-' :: letter :: rest => readShort options letter rest
  | _ => .word

/-- May stand as the value of the option before it. -/
def mayBeValue (argument : String) : Bool :=
  match argument.toList with
  | '-' :: _ :: _ => false
  | _ => true

/-- Adds a value, unless its option has one already. -/
def addValue (values : Values) (name value : String) : Option Values :=
  if (values.lookup name).isSome then none else some (values ++ [(name, value)])

/-- Reads options up to the first word; gives their values and the arguments from that word on. -/
def readOptions (options : List OptionName) (values : Values) :
    List String → Option (Values × List String)
  | [] => some (values, [])
  | argument :: rest =>
    match readArgument options argument with
    | .word => some (values, argument :: rest)
    | .endOfOptions => if rest.isEmpty then some (values, []) else none
    | .unknownOption => none
    | .withValue name value =>
      match addValue values name value with
      | some values' => readOptions options values' rest
      | none => none
    | .withoutValue name =>
      match rest with
      | [] => none
      | value :: rest' =>
        if mayBeValue value then
          match addValue values name value with
          | some values' => readOptions options values' rest'
          | none => none
        else none

/-! ### Commands -/

/-- The options before a command. -/
def globalOptions : List OptionName := [⟨"views-dir", some 'v'⟩, ⟨"config", some 'c'⟩]

def renderOptions : List OptionName := [⟨"view", none⟩, ⟨"model", some 'm'⟩]

def listOptions : List OptionName := [⟨"prefix", some 'p'⟩]

/-- Options that take up all arguments. -/
def onlyOptions (options : List OptionName) (arguments : List String) : Option Values :=
  match readOptions options [] arguments with
  | some (values, []) => some values
  | _ => none

/-- A command by its name and the arguments after it. -/
def readCommand (name : String) (arguments : List String) : Option Command :=
  match name with
  | "render" => do
    let values ← onlyOptions renderOptions arguments
    return .render (← values.lookup "view") ((values.lookup "model").getD "\x7b\x7d")
  | "list" => do
    let values ← onlyOptions listOptions arguments
    return .list (values.lookup "prefix")
  | "check" => do
    let _ ← onlyOptions [] arguments
    return .check
  | _ => none

/-- A path given as an option's value is not empty. -/
def isPath (value : String) : Bool := !value.isEmpty

/-- Reads all arguments; `none` is a mistake in their use. -/
def readInvocation (arguments : List String) : Option Invocation := do
  let (values, rest) ← readOptions globalOptions [] arguments
  match rest with
  | [] => none
  | name :: others =>
    let command ← readCommand name others
    if values.all fun e => isPath e.2 then
      return ⟨(values.lookup "views-dir").getD "views", values.lookup "config", command⟩
    else none

end LayeredViews.CommandLine
