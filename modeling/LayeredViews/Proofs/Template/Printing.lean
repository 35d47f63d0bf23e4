import LayeredViews.Proofs.Text.Position
import LayeredViews.Render.Page
import LayeredViews.Template.Parser
import Mathlib.Data.List.Chain

/-!
# Printing — a source written from its items, and scanned again

A source is written from texts as they are to be shown and from the bodies of tags.  `escapeBraces` puts a
backslash in front of the braces in a text that would open a tag.  The scan undoes the printing: the items
come back in order, with the bodies trimmed and each tag at the place where it was printed.  The braces of
an item must not run together with those of the next one, which is what `Item.MayPrecede` asks for.
-/

namespace LayeredViews.Template

open Text (LineIndex Position utf8Length utf8Length_append)

/-! ### Items -/

/-- A text with a backslash in front of each `{{`, from the left. -/
def escapeBraces : List Char → List Char
  | '{' :: '{' :: cs => '\\' :: '{' :: '{' :: escapeBraces cs
  | c :: cs => c :: escapeBraces cs
  | [] => []

/-- A piece of a source: a text as it is to be shown, or the body of a tag. -/
inductive Item where
  | text (content : List Char)
  | tag (body : List Char)
deriving DecidableEq, Repr

namespace Item

/-- The item as it stands in a source. -/
def print : Item → List Char
  | .text content => escapeBraces content
  | .tag body => '{' :: '{' :: (body ++ ['}', '}'])

/-- Is not empty text, nor a tag whose braces close before its body ends. -/
def WellFormed : Item → Prop
  | .text content => content ≠ []
  | .tag body => ¬ ['}', '}'] <:+: body ∧ body.getLast? ≠ some '}'

/-- The first item may stand right in front of the second one. -/
def MayPrecede : Item → Item → Prop
  | .text _, .text _ => False
  | .text content, .tag _ => content.getLast? ≠ some '{' ∧ content.getLast? ≠ some '\\'
  | .tag _, _ => True

/-- Items one after the other. -/
def printAll (items : List Item) : List Char :=
  items.flatMap print

/-- Items that can be told apart when they are printed. -/
structure Printable (items : List Item) : Prop where
  wellFormed : ∀ item ∈ items, item.WellFormed
  adjacent : items.IsChain MayPrecede

/-- The tokens of items that are printed behind a first part of a source. -/
def tokensBehind (front : List Char) : List Item → List Token
  | [] => []
  | .text content :: items =>
    .text (String.ofList content) :: tokensBehind (front ++ print (.text content)) items
  | .tag body :: items =>
    .tag (String.ofList (Text.trim body)) (.behind front) ::
      tokensBehind (front ++ print (.tag body)) items

@[simp] theorem printAll_nil : printAll [] = [] := rfl

@[simp] theorem printAll_cons (item : Item) (items : List Item) :
    printAll (item :: items) = item.print ++ printAll items := rfl

theorem Printable.tail {item : Item} {items : List Item} (h : Printable (item :: items)) :
    Printable items :=
  ⟨(List.forall_mem_cons.mp h.wellFormed).2, h.adjacent.tail⟩

end Item

/-! ### Escaped text -/

theorem escapeBraces_cons {c : Char} {cs : List Char} (h : c = '{' → ∀ after, cs ≠ '{' :: after) :
    escapeBraces (c :: cs) = c :: escapeBraces cs := by
  rw [escapeBraces.eq_def]
  split
  · next after heq =>
    obtain ⟨hc, hcs⟩ := List.cons_eq_cons.mp heq
    exact absurd hcs (h hc after)
  · next heq =>
    obtain ⟨rfl, rfl⟩ := List.cons_eq_cons.mp heq
    rfl
  · next heq => cases heq

/-- A text that may stand in front of `more` when it is escaped: it does not end in what the scan would take
together with the start of `more`. -/
def Shielded (text more : List Char) : Prop :=
  more ≠ [] → text.getLast? ≠ some '{' ∧ text.getLast? ≠ some '\\'

theorem Shielded.tail {c : Char} {text more : List Char} (h : Shielded (c :: text) more) :
    Shielded text more := by
  intro hmore
  cases text with
  | nil => simp
  | cons d text => simpa using h hmore

theorem Shielded.eq_nil {c : Char} {more : List Char} (h : Shielded [c] more)
    (hc : c = '{' ∨ c = '\\') : more = [] := by
  by_contra hmore
  have hlast := h hmore
  rcases hc with rfl | rfl <;> simp at hlast

/-- No tag opens at the seam behind a shielded text. -/
theorem Shielded.not_open_append {c : Char} {cs more : List Char} (h : Shielded (c :: cs) more)
    (hopen : ∀ after, c = '{' → cs = '{' :: after → False) :
    ∀ after, c = '{' → cs ++ more = '{' :: after → False := by
  rintro after rfl hseam
  cases cs with
  | nil =>
    have hmore : more = [] := h.eq_nil (Or.inl rfl)
    simp [hmore] at hseam
  | cons d cs =>
    obtain ⟨rfl, -⟩ := List.cons_eq_cons.mp hseam
    exact hopen cs rfl rfl

/-- Nor does an escaped brace begin in the text and end behind it. -/
theorem Shielded.not_escape_append {c : Char} {cs more : List Char} (h : Shielded (c :: cs) more)
    (hescape : ∀ after, c = '\\' → cs = '{' :: '{' :: after → False) :
    ∀ after, c = '\\' → cs ++ more = '{' :: '{' :: after → False := by
  rintro after rfl hseam
  rcases cs with _ | ⟨d, _ | ⟨d', cs⟩⟩
  · have hmore : more = [] := h.eq_nil (Or.inr rfl)
    simp [hmore] at hseam
  · obtain ⟨rfl, hrest⟩ := List.cons_eq_cons.mp hseam
    have hmore : more = [] := h.tail.eq_nil (Or.inl rfl)
    simp [hmore] at hrest
  · obtain ⟨rfl, hrest⟩ := List.cons_eq_cons.mp hseam
    obtain ⟨rfl, -⟩ := List.cons_eq_cons.mp hrest
    exact hescape cs rfl rfl

/-- A brace that is single in a text stays so when the text is escaped. -/
theorem escapeBraces_append_ne {text more : List Char} (hshielded : Shielded ('{' :: text) more)
    (hsingle : ∀ after, text ≠ '{' :: after) (after : List Char) :
    escapeBraces text ++ more ≠ '{' :: after := by
  cases text with
  | nil =>
    have hmore : more = [] := hshielded.eq_nil (Or.inl rfl)
    simp [hmore, escapeBraces]
  | cons d text =>
    have hd : d ≠ '{' := fun hd => hsingle text (by rw [hd])
    rw [escapeBraces_cons fun h => absurd h hd]
    intro h
    exact hd (List.cons_eq_cons.mp h).1

/-- Behind a backslash of a text no braces open a tag. -/
theorem escapeBraces_append_not_open {text more : List Char} (hshielded : Shielded ('\\' :: text) more)
    (after : List Char) : escapeBraces text ++ more ≠ '{' :: '{' :: after := by
  cases text with
  | nil =>
    have hmore : more = [] := hshielded.eq_nil (Or.inr rfl)
    simp [hmore, escapeBraces]
  | cons d text =>
    by_cases hdouble : d = '{' ∧ ∃ after, text = '{' :: after
    · obtain ⟨rfl, after, rfl⟩ := hdouble
      simp [escapeBraces]
    · have hsingle : d = '{' → ∀ after, text ≠ '{' :: after :=
        fun hd after htext => hdouble ⟨hd, after, htext⟩
      rw [escapeBraces_cons hsingle]
      intro h
      obtain ⟨rfl, hrest⟩ := List.cons_eq_cons.mp h
      exact escapeBraces_append_ne hshielded.tail (hsingle rfl) after hrest

/-! ### The scan -/

@[simp] theorem utf8Size_backslash : '\\'.utf8Size = 1 := by decide

@[simp] theorem utf8Size_openingBrace : '{'.utf8Size = 1 := by decide

@[simp] theorem utf8Size_closingBrace : '}'.utf8Size = 1 := by decide

namespace Scan

variable {index : LineIndex} {pending : List Char}

/-- Escaped text is read as the text that was escaped. -/
theorem scanFrom_escapeBraces (index : LineIndex) (pending : List Char) {text more : List Char}
    (hshielded : Shielded text more) (offset : Nat) :
    scanFrom index (.text pending) offset (escapeBraces text ++ more) =
      scanFrom index (.text (text.reverse ++ pending)) (offset + utf8Length (escapeBraces text)) more := by
  fun_induction escapeBraces text generalizing pending offset with
  | case1 cs ih =>
    have hsize : utf8Length ('\\' :: '{' :: '{' :: escapeBraces cs) = 3 + utf8Length (escapeBraces cs) := by
      simp only [utf8Length, utf8Size_backslash, utf8Size_openingBrace]
      omega
    have hrest := ih ('{' :: '{' :: pending) hshielded.tail.tail (offset + 3)
    simp only [List.cons_append, scanFrom]
    rw [hrest, hsize]
    simp [Nat.add_assoc]
  | case2 c cs hsingle ih =>
    have hescape : ∀ after, c = '\\' → escapeBraces cs ++ more = '{' :: '{' :: after → False := by
      rintro after rfl
      exact escapeBraces_append_not_open hshielded after
    have hopen : ∀ after, c = '{' → escapeBraces cs ++ more = '{' :: after → False := by
      rintro after rfl
      exact escapeBraces_append_ne hshielded (fun after h => hsingle after rfl h) after
    rw [List.cons_append, scanFrom.eq_3 index offset pending c _ hescape hopen, ih _ hshielded.tail]
    simp [utf8Length, Nat.add_assoc]
  | case3 => simp [utf8Length]

/-- Braces at the end of a body that has none inside close its tag. -/
theorem scanFrom_body (index : LineIndex) {body : List Char} (hinside : ¬ ['}', '}'] <:+: body)
    (hlast : body.getLast? ≠ some '}') (opened : Nat) (read : List Char) (offset : Nat) (more : List Char) :
    scanFrom index (.tag opened read) offset (body ++ '}' :: '}' :: more) =
      cons (tagToken index opened (body.reverse ++ read))
        (scanFrom index (.text []) (offset + utf8Length body + 2) more) := by
  induction body generalizing read offset with
  | nil => simp [scanFrom, utf8Length]
  | cons c body ih =>
    have hinner : ¬ ['}', '}'] <:+: body := fun h => hinside (h.trans (List.suffix_cons c body).isInfix)
    have hend : body.getLast? ≠ some '}' := by
      cases body with
      | nil => simp
      | cons d body => simpa using hlast
    have hclose : ∀ after, c = '}' → body ++ '}' :: '}' :: more = '}' :: after → False := by
      rintro after rfl h
      cases body with
      | nil => exact hlast rfl
      | cons d body =>
        obtain ⟨rfl, -⟩ := List.cons_eq_cons.mp h
        exact hinside (List.prefix_append ['}', '}'] body).isInfix
    rw [List.cons_append, scanFrom.eq_6 index offset opened read c _ hclose, ih hinner hend]
    simp [utf8Length, Nat.add_assoc]

/-- A printed tag puts an end to the text in front of it. -/
theorem scanFrom_tag {body : List Char} (h : (Item.tag body).WellFormed) (offset : Nat) (more : List Char) :
    scanFrom index (.text pending) offset (Item.print (.tag body) ++ more) =
      consText pending (cons (.tag (String.ofList (Text.trim body)) (index.position offset))
        (scanFrom index (.text []) (offset + utf8Length (Item.print (.tag body))) more)) := by
  have hsize : utf8Length (Item.print (.tag body)) = 2 + utf8Length body + 2 := by
    simp only [Item.print, utf8Length, utf8Length_append, utf8Size_openingBrace, utf8Size_closingBrace]
    omega
  have hbody := scanFrom_body index h.1 h.2 offset [] (offset + 2) more
  have hprint : Item.print (.tag body) ++ more = '{' :: '{' :: (body ++ '}' :: '}' :: more) := by
    simp [Item.print]
  rw [hprint, scanFrom, hbody, hsize]
  simp [tagToken, Nat.add_assoc]

/-- What is printed behind a first part of a source comes back from the scan that has read that part. -/
theorem scanFrom_printAll (front : List Char) (items : List Item) (h : Item.Printable items)
    (hindex : index = .ofText (front ++ Item.printAll items)) :
    scanFrom index (.text []) (utf8Length front) (Item.printAll items) =
      ⟨Item.tokensBehind front items, none⟩ := by
  match items, h with
  | [], _ => rfl
  | [.text content], h =>
    have hne : content ≠ [] := h.wellFormed (.text content) (by simp)
    have hshielded : Shielded content [] := fun h => absurd rfl h
    have htext := scanFrom_escapeBraces index [] hshielded (utf8Length front)
    simp only [Item.printAll_cons, Item.printAll_nil, Item.print]
    rw [htext]
    simp [scanFrom, consText, cons, Item.tokensBehind, hne]
  | .text content :: .text content' :: items, h => exact absurd h.adjacent (by simp [Item.MayPrecede])
  | .tag body :: items, h =>
    have hbody : (Item.tag body).WellFormed := h.wellFormed (.tag body) (by simp)
    have hposition : index.position (utf8Length front) = .behind front := by
      rw [hindex, LineIndex.position_behind]
    have hrest := scanFrom_printAll (front ++ Item.print (.tag body)) items h.tail (by simp [hindex])
    rw [Item.printAll_cons, scanFrom_tag hbody, hposition, ← utf8Length_append, hrest]
    rfl
  | .text content :: .tag body :: items, h =>
    have hne : content ≠ [] := h.wellFormed (.text content) (by simp)
    have hbody : (Item.tag body).WellFormed := h.wellFormed (.tag body) (by simp)
    have hlast : content.getLast? ≠ some '{' ∧ content.getLast? ≠ some '\\' := by
      have hadjacent := h.adjacent
      simp only [List.isChain_cons_cons] at hadjacent
      exact hadjacent.1
    have hshielded : Shielded content (Item.printAll (.tag body :: items)) := fun _ => hlast
    let front' := front ++ Item.print (.text content)
    have hposition : index.position (utf8Length front') = .behind front' := by
      rw [hindex, Item.printAll_cons, ← List.append_assoc, LineIndex.position_behind]
    have hrest := scanFrom_printAll (front' ++ Item.print (.tag body)) items h.tail.tail
      (by simp [hindex, front'])
    have htext := scanFrom_escapeBraces index [] hshielded (utf8Length front)
    have hfront : utf8Length front + utf8Length (escapeBraces content) = utf8Length front' :=
      (utf8Length_append _ _).symm
    rw [Item.printAll_cons, Item.print, htext, hfront, Item.printAll_cons, scanFrom_tag hbody, hposition,
      ← utf8Length_append, hrest]
    simp [consText, cons, hne, Item.tokensBehind, front']

end Scan

/-- A text that is escaped is shown as it is. -/
theorem parse_escapeBraces (text : String) :
    ∃ page, parse (String.ofList (escapeBraces text.toList)) = .ok page ∧
      ∀ cx locals, Render.runPage cx page locals = (do
        Render.writeText text
        return 0) := by
  by_cases hempty : text = ""
  · subst hempty
    exact ⟨.done, rfl, fun _ _ => rfl⟩
  have hprintable : Item.Printable [.text text.toList] := by
    refine ⟨?_, .singleton _⟩
    simpa [Item.WellFormed] using hempty
  have hscan := Scan.scanFrom_printAll [] [.text text.toList] hprintable rfl
  have hprint : Item.printAll [.text text.toList] = escapeBraces text.toList := by simp [Item.print]
  refine ⟨.text text .done, ?_, fun _ _ => rfl⟩
  have hof : Scan.ofText (String.ofList (escapeBraces text.toList)) = ⟨[.text text], none⟩ := by
    rw [hprint] at hscan
    simp only [Scan.ofText, String.toList_ofList]
    simpa [Item.tokensBehind, utf8Length] using hscan
  simp [parse, hof, parseScan, Parser.tokens, Parser.token, Parser.start, Parser.add,
    Parser.rootPage, Parser.page]

/-- Printed items come back from the scan in order, with nothing left open, and every text comes back as it
is from the page that is written by escaping it. -/
theorem scan_printAll :
    (∀ items, Item.Printable items →
      Scan.ofText (String.ofList (Item.printAll items)) = ⟨Item.tokensBehind [] items, none⟩) ∧
    ∀ text : String, ∃ page, parse (String.ofList (escapeBraces text.toList)) = .ok page ∧
      ∀ cx locals, Render.runPage cx page locals = (do
        Render.writeText text
        return 0) := by
  refine ⟨fun items h => ?_, parse_escapeBraces⟩
  unfold Scan.ofText
  rw [String.toList_ofList]
  exact Scan.scanFrom_printAll [] items h rfl

/-- Escapes next to a backslash and next to a tag, a tag next to another one, braces that are left over. -/
theorem scan_printAll_of_braces :
    let items : List Item := [.text "\\\x7b\x7b\x7b.".toList, .tag " model.a ".toList, .tag "\x7b".toList,
      .text "\x7d\x7b\x7b\x7b\x7b\x7b".toList]
    Item.Printable items ∧
      Scan.ofText (String.ofList (Item.printAll items)) = ⟨Item.tokensBehind [] items, none⟩ := by
  have hprintable : Item.Printable [.text "\\\x7b\x7b\x7b.".toList, .tag " model.a ".toList,
      .tag "\x7b".toList, .text "\x7d\x7b\x7b\x7b\x7b\x7b".toList] := by
    refine ⟨?_, ?_⟩
    · simp [Item.WellFormed]
      decide
    · simp [Item.MayPrecede]
  exact ⟨hprintable, scan_printAll.1 _ hprintable⟩

end LayeredViews.Template
