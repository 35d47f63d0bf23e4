/-!
# HTML text — the five characters with a meaning, written as entities

`escape` is safe for element content and for attribute values in either kind of quote.
`toList_escape` says what it does character by character.
-/

namespace LayeredViews.Html

/-- The entity of a character that has a meaning. -/
def entity? : Char → Option String
  | '&' => some "&amp;"
  | '<' => some "&lt;"
  | '>' => some "&gt;"
  | '"' => some "&quot;"
  | '\'' => some "&#39;"
  | _ => none

/-- A character as it is written in HTML text. -/
def escapeChar (c : Char) : List Char :=
  match entity? c with
  | some entity => entity.toList
  | none => [c]

/-- A text as it is written in HTML, character by character. -/
def escapeChars (cs : List Char) : List Char :=
  cs.flatMap escapeChar

/-- HTML text with one more character. -/
def pushEscaped (out : String) (c : Char) : String :=
  match entity? c with
  | some entity => out ++ entity
  | none => out.push c

def escape (text : String) : String :=
  text.foldl pushEscaped ""

@[simp] theorem escapeChars_nil : escapeChars [] = [] := rfl

@[simp] theorem escapeChars_cons (c : Char) (cs : List Char) :
    escapeChars (c :: cs) = escapeChar c ++ escapeChars cs := rfl

theorem escapeChars_append (a b : List Char) :
    escapeChars (a ++ b) = escapeChars a ++ escapeChars b := by
  simp [escapeChars]

@[simp] theorem toList_pushEscaped (out : String) (c : Char) :
    (pushEscaped out c).toList = out.toList ++ escapeChar c := by
  unfold pushEscaped escapeChar
  cases entity? c <;> simp

theorem toList_foldl_pushEscaped (cs : List Char) (out : String) :
    (cs.foldl pushEscaped out).toList = out.toList ++ escapeChars cs := by
  induction cs generalizing out with
  | nil => simp
  | cons c cs ih => simp [ih]

@[simp] theorem toList_escape (text : String) :
    (escape text).toList = escapeChars text.toList := by
  simp [escape, String.foldl_eq_foldl_toList, toList_foldl_pushEscaped]

end LayeredViews.Html
