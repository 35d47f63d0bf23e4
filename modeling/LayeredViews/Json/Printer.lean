import LayeredViews.Json.Basic

/-!
# Writing JSON — on one line, or indented

Strings escape the quote, the backslash and the control characters, the common ones by letter and
the others by number.  The indented form puts each item on a line of its own, two spaces deeper
than its container; an empty container stays closed.
-/

namespace LayeredViews.Json

/-- How a character that cannot stand in a JSON string as it is, is written there. -/
def escape? (c : Char) : Option String :=
  match c with
  | '"' => some "\\\""
  | '\\' => some "\\\\"
  | '\n' => some "\\n"
  | '\r' => some "\\r"
  | '\t' => some "\\t"
  | '\x08' => some "\\b"
  | '\x0c' => some "\\f"
  | c =>
    if c.toNat < 0x20 then
      some (("\\u00".push (Text.hexDigit (c.toNat / 16))).push (Text.hexDigit (c.toNat % 16)))
    else none

/-- A character inside a JSON string. -/
def quoteChar (c : Char) : List Char :=
  match escape? c with
  | some escape => escape.toList
  | none => [c]

def quoteChars (cs : List Char) : List Char :=
  cs.flatMap quoteChar

/-- The text of a JSON string with one more character. -/
def pushQuoted (out : String) (c : Char) : String :=
  match escape? c with
  | some escape => out ++ escape
  | none => out.push c

/-- A text as a JSON string, with its quotes. -/
def quote (s : String) : String :=
  (s.foldl pushQuoted "\"").push '"'

@[simp] theorem toList_pushQuoted (out : String) (c : Char) :
    (pushQuoted out c).toList = out.toList ++ quoteChar c := by
  unfold pushQuoted quoteChar
  cases escape? c <;> simp

theorem toList_foldl_pushQuoted (cs : List Char) (out : String) :
    (cs.foldl pushQuoted out).toList = out.toList ++ quoteChars cs := by
  induction cs generalizing out with
  | nil => simp [quoteChars]
  | cons c cs ih => simp [ih, quoteChars]

theorem toList_quote (s : String) : (quote s).toList = '"' :: quoteChars s.toList ++ ['"'] := by
  simp [quote, String.foldl_eq_foldl_toList, toList_foldl_pushQuoted]

/-! ### On one line -/

mutual

/-- A text with a value behind it, on one line without spaces. -/
def addCompact (out : String) : Json → String
  | .null => out ++ "null"
  | .bool b => out ++ if b then "true" else "false"
  | .num n => out ++ n.text
  | .str s => out ++ quote s
  | .arr items => addCompactItems (out ++ "[") items ++ "]"
  | .obj fields => addCompactFields (out ++ "\x7b") fields ++ "\x7d"

def addCompactItems (out : String) : List Json → String
  | [] => out
  | [v] => addCompact out v
  | v :: rest => addCompactItems (addCompact out v ++ ",") rest

def addCompactFields (out : String) : List (String × Json) → String
  | [] => out
  | [(k, v)] => addCompact (out ++ quote k ++ ":") v
  | (k, v) :: rest => addCompactFields (addCompact (out ++ quote k ++ ":") v ++ ",") rest

end

/-- A value on one line without spaces. -/
def compact (v : Json) : String := addCompact "" v

/-! ### Indented -/

/-- A line break and `level` steps of two spaces. -/
def lineBreak (level : Nat) : String :=
  String.ofList ('\n' :: List.replicate (2 * level) ' ')

mutual

/-- A text with a value behind it whose container stands at `level`. -/
def addIndented (level : Nat) (out : String) : Json → String
  | .arr (v :: rest) =>
    addIndentedItems (level + 1) (out ++ "[") (v :: rest) ++ lineBreak level ++ "]"
  | .obj (e :: rest) =>
    addIndentedFields (level + 1) (out ++ "\x7b") (e :: rest) ++ lineBreak level ++ "\x7d"
  | .null => out ++ "null"
  | .bool b => out ++ if b then "true" else "false"
  | .num n => out ++ n.text
  | .str s => out ++ quote s
  | .arr [] => out ++ "[]"
  | .obj [] => out ++ "\x7b\x7d"

def addIndentedItems (level : Nat) (out : String) : List Json → String
  | [] => out
  | [v] => addIndented level (out ++ lineBreak level) v
  | v :: rest =>
    addIndentedItems level (addIndented level (out ++ lineBreak level) v ++ ",") rest

def addIndentedFields (level : Nat) (out : String) : List (String × Json) → String
  | [] => out
  | [(k, v)] => addIndented level (out ++ lineBreak level ++ quote k ++ ": ") v
  | (k, v) :: rest =>
    addIndentedFields level
      (addIndented level (out ++ lineBreak level ++ quote k ++ ": ") v ++ ",") rest

end

/-- A value over several lines, two spaces a level. -/
def pretty (v : Json) : String := addIndented 0 "" v

end LayeredViews.Json
