import LayeredViews.Template.Page
import LayeredViews.Text.Blank
import LayeredViews.Text.Split

/-!
# Tags — what the body of a tag says

The first word of a body is a directive or an expression to be echoed.  Reading a body needs the
loop variables in scope and nothing else; which blocks are open is the parser's concern.
-/

namespace LayeredViews.Template

/-- The two kinds of block. -/
inductive BlockKind where
  | cond
  | each
deriving DecidableEq, Repr

def BlockKind.word : BlockKind → String
  | .cond => "if"
  | .each => "each"

/-- Why a tag is rejected. -/
inductive TagError where
  | emptyTag
  | renderBodyArguments
  | partialForm (body : String)
  | setForm (body : String)
  | setTarget (key : String)
  | elseArguments
  | duplicateElse
  | elseOutsideIf
  | unmatchedEnd (kind : BlockKind)
  | eachForm (body : String)
  | loopVariable (name : String)
  | missingExpression
  | malformedExpression (text : String)
  | unknownIdentifier (name : String)
  | unknownDirective (word : String)
deriving DecidableEq, Repr

def TagError.message : TagError → String
  | .emptyTag => "Empty tag"
  | .renderBodyArguments => "render_body takes no arguments"
  | .partialForm body => "Invalid partial syntax: expected a quoted view name in '" ++ body ++ "'"
  | .setForm body => "Invalid set syntax: expected 'set key = value' in '" ++ body ++ "'"
  | .setTarget key => "Invalid set target '" ++ key ++ "'"
  | .elseArguments => "else takes no arguments"
  | .duplicateElse => "Duplicate \x7b\x7b else \x7d\x7d in if block"
  | .elseOutsideIf => "Unexpected \x7b\x7b else \x7d\x7d outside of an if block"
  | .unmatchedEnd kind =>
    "Unexpected \x7b\x7b /" ++ kind.word ++ " \x7d\x7d without matching \x7b\x7b " ++ kind.word ++
      " \x7d\x7d"
  | .eachForm body => "Invalid each syntax: expected 'each expr |var|' in '" ++ body ++ "'"
  | .loopVariable name => "Invalid loop variable '" ++ name ++ "'"
  | .missingExpression => "Missing expression"
  | .malformedExpression text => "Malformed expression '" ++ text ++ "'"
  | .unknownIdentifier name => "Unknown identifier '" ++ name ++ "'"
  | .unknownDirective word => "Unknown directive '" ++ word ++ "'"

/-- What a tag asks for. -/
inductive Tag where
  | comment
  | echo (e : Expr) (escaped : Bool)
  | renderBody
  | partialView (name : String)
  | set (key : String) (value : SetValue)
  | openCond (test : Expr)
  | otherwise
  | openEach (source : Expr) (binding : String)
  | close (kind : BlockKind)
deriving DecidableEq, Repr

/-! ### Words, literals and expressions -/

/-- Letters, digits and underscores of ASCII, at least one. -/
def isIdentifier (cs : List Char) : Bool :=
  !cs.isEmpty && cs.all fun c => c.isAlphanum || c == '_'

/-- The text between two quotes that has no quote itself. -/
def literal? (cs : List Char) : Option (List Char) :=
  match cs with
  | '"' :: rest =>
    match Text.dropEnd? ['"'] rest with
    | some inner => if inner.contains '"' then none else some inner
    | none => none
  | _ => none

/-- What a first segment is rooted in. -/
def rootOf? (scope : List String) (name : String) : Option Root :=
  if name = "model" then some .model
  else if name = "bag" then some .bag
  else if scope.contains name then some (.loop name)
  else none

namespace Expr

/-- Reads identifiers with dots between them, of which the first must be in scope. -/
def read (scope : List String) (cs : List Char) : Except TagError Expr :=
  if cs.isEmpty then .error .missingExpression
  else
    let segments := Text.pieces (· == '.') cs
    if !segments.all isIdentifier then .error (.malformedExpression (String.ofList cs))
    else
      match segments.map String.ofList with
      | [] => .error .missingExpression
      | name :: path =>
        match rootOf? scope name with
        | some root => .ok ⟨root, path, String.ofList cs⟩
        | none => .error (.unknownIdentifier name)

end Expr

/-! ### Bodies -/

namespace Tag

/-- The first word of a body, and the rest without the blanks around it. -/
def headOf (body : List Char) : List Char × List Char :=
  match Text.cut? Text.isBlank body with
  | some (head, rest) => (head, Text.trim rest)
  | none => (body, [])

/-- A quoted name that is not blank. -/
def readPartial (rest body : List Char) : Except TagError Tag :=
  match literal? rest with
  | some name =>
    if (Text.trim name).isEmpty then .error (.partialForm (String.ofList body))
    else .ok (.partialView (String.ofList name))
  | none => .error (.partialForm (String.ofList body))

/-- A key, an equals sign and a quoted text or an expression. -/
def readSet (scope : List String) (rest body : List Char) : Except TagError Tag :=
  match Text.cut? (· == '=') rest with
  | none => .error (.setForm (String.ofList body))
  | some (left, right) =>
    let key := Text.trim left
    if !isIdentifier key then .error (.setTarget (String.ofList key))
    else
      let value := Text.trim right
      match literal? value with
      | some text => .ok (.set (String.ofList key) (.literal (String.ofList text)))
      | none => (Expr.read scope value).map fun e => .set (String.ofList key) (.expr e)

/-- An expression and a loop variable between bars.  The variable is looked at first. -/
def readEach (scope : List String) (rest body : List Char) : Except TagError Tag :=
  match Text.cut? (· == '|') rest with
  | none => .error (.eachForm (String.ofList body))
  | some (source, more) =>
    match Text.cut? (· == '|') more with
    | none => .error (.eachForm (String.ofList body))
    | some (inner, trailing) =>
      if !(Text.trim trailing).isEmpty then .error (.eachForm (String.ofList body))
      else
        let binding := Text.trim inner
        if !isIdentifier binding || binding == "model".toList || binding == "bag".toList then
          .error (.loopVariable (String.ofList binding))
        else
          (Expr.read scope (Text.trim source)).map fun e => .openEach e (String.ofList binding)

/-- Reads a body by its first word `head` and by what follows that. -/
def readHead (scope : List String) (head rest body : List Char) : Except TagError Tag :=
  match String.ofList head with
  | "render_body" => if rest.isEmpty then .ok .renderBody else .error .renderBodyArguments
  | "raw" => (Expr.read scope rest).map fun e => .echo e false
  | "partial" => readPartial rest body
  | "set" => readSet scope rest body
  | "if" => (Expr.read scope rest).map .openCond
  | "else" => if rest.isEmpty then .ok .otherwise else .error .elseArguments
  | "/if" => .ok (.close .cond)
  | "each" => readEach scope rest body
  | "/each" => .ok (.close .each)
  | word =>
    if rest.isEmpty then (Expr.read scope head).map fun e => .echo e true
    else .error (.unknownDirective word)

/-- Reads a trimmed body. -/
def read (scope : List String) (body : List Char) : Except TagError Tag :=
  match body with
  | [] => .error .emptyTag
  | '!' :: _ => .ok .comment
  | body => readHead scope (headOf body).1 (headOf body).2 body

end Tag

end LayeredViews.Template
