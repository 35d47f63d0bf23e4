import LayeredViews.Proofs.Html.Safe

/-!
# Decoding — escaped text read back

`unescape` reads the five entities from the left, once, and leaves everything else as it stands.  What an
escaped character is written as is read back as that character whatever follows it
(`unescapeChars_escapeChar`), so that a text which spells an entity of its own comes back too.
-/

namespace LayeredViews.Html

/-! ### The decoder -/

/-- The characters that HTML text stands for: each of the five entities is one character. -/
def unescapeChars : List Char → List Char
  | '&' :: 'a' :: 'm' :: 'p' :: ';' :: cs => '&' :: unescapeChars cs
  | '&' :: 'l' :: 't' :: ';' :: cs => '<' :: unescapeChars cs
  | '&' :: 'g' :: 't' :: ';' :: cs => '>' :: unescapeChars cs
  | '&' :: 'q' :: 'u' :: 'o' :: 't' :: ';' :: cs => '"' :: unescapeChars cs
  | '&' :: '#' :: '3' :: '9' :: ';' :: cs => '\'' :: unescapeChars cs
  | c :: cs => c :: unescapeChars cs
  | [] => []

/-- The text that HTML text stands for. -/
def unescape (html : String) : String :=
  String.ofList (unescapeChars html.toList)

@[simp] theorem unescapeChars_nil : unescapeChars [] = [] := rfl

/-- Only an ampersand starts an entity. -/
theorem unescapeChars_cons {c : Char} (h : c ≠ '&') (cs : List Char) :
    unescapeChars (c :: cs) = c :: unescapeChars cs := by
  rw [unescapeChars.eq_def]
  split <;> simp_all

/-! ### Reading back -/

theorem ne_ampersand_of_entity? {c : Char} (h : entity? c = none) : c ≠ '&' := by
  rintro rfl
  cases h

/-- An escaped character is read as one, and reading goes on right behind it. -/
theorem unescapeChars_escapeChar (c : Char) (more : List Char) :
    unescapeChars (escapeChar c ++ more) = c :: unescapeChars more := by
  unfold escapeChar
  cases h : entity? c with
  | none => exact unescapeChars_cons (ne_ampersand_of_entity? h) more
  | some entity =>
    unfold entity? at h
    split at h
    case h_6 => cases h
    all_goals
      obtain rfl := Option.some.inj h
      rfl

/-- Escaped text is read back, and what follows it is read on its own. -/
theorem unescapeChars_escapeChars (cs more : List Char) :
    unescapeChars (escapeChars cs ++ more) = cs ++ unescapeChars more := by
  induction cs with
  | nil => rfl
  | cons c cs ih => rw [escapeChars_cons, List.append_assoc, unescapeChars_escapeChar, ih, List.cons_append]

theorem unescape_escape (text : String) : unescape (escape text) = text := by
  have hchars := unescapeChars_escapeChars text.toList []
  unfold unescape
  rw [toList_escape]
  simp only [List.append_nil, unescapeChars_nil] at hchars
  rw [hchars, String.ofList_toList]

theorem escape_injective : Function.Injective escape :=
  Function.LeftInverse.injective unescape_escape

theorem escape_append (a b : String) : escape (a ++ b) = escape a ++ escape b := by
  apply String.toList_injective
  simp [escapeChars_append]

/-- Escaping leaves nothing that begins markup, loses nothing, and goes part by part. -/
theorem escape_faithful :
    (∀ text, Safe (escape text) ∧ unescape (escape text) = text) ∧
      ∀ a b, escape (a ++ b) = escape a ++ escape b :=
  ⟨fun text => ⟨escape_safe text, unescape_escape text⟩, escape_append⟩

end LayeredViews.Html
