import LayeredViews.Failure
import LayeredViews.Proofs.Html.Decoding
import LayeredViews.Proofs.Text.Decimal
import LayeredViews.Proofs.Text.Occurrences
import LayeredViews.Proofs.Text.Split
import Mathlib.Data.List.Forall2

/-!
# Failure pages — what they list, and that nothing in a failure makes them say something else

The texts of a failure are escaped, so that the page's own tags are the only ones in it.  A list item begins
exactly where the entry of a diagnostic stands (`lists_details`, `lists_page`), an entry tells its diagnostic
(`entry_unique`), and the front of a page tells the stage and the template.  So the page tells the whole
failure: `page_faithful`.
-/

namespace LayeredViews.Failure

open Text (Apart append_word_inj occurrences)

/-! ### What the parts of a page are made of -/

theorem repr_plain (n : Nat) : '<' ∉ n.repr.toList ∧ ' ' ∉ n.repr.toList := by
  have hdigits : ∀ c ∈ n.repr.toList, c.isDigit = true := fun c hc => by
    rw [Nat.toList_repr] at hc
    exact Nat.isDigit_of_mem_toDigits (by decide) (by decide) hc
  exact ⟨fun h => absurd (hdigits _ h) (by decide), fun h => absurd (hdigits _ h) (by decide)⟩

theorem escape_plain (text : String) : '<' ∉ (Html.escape text).toList := fun h =>
  (Html.escape_safe text).delimiter '<' h (by simp [Html.delimiters])

theorem title_plain (stage : Stage) : '<' ∉ stage.title.toList := by
  cases stage <;> decide

theorem title_inj {stage stage' : Stage} (h : stage.title.toList = stage'.title.toList) : stage = stage' := by
  revert h
  cases stage <;> cases stage' <;> decide

/-- The tag that begins a list item. -/
def itemTag : List Char := "<li>".toList

theorem toList_entry_append (d : Diagnostic) (more : List Char) :
    (entry d).toList ++ more = itemTag ++ ("Line: ".toList ++ (d.line.repr.toList ++ (" Column: ".toList ++
      (d.column.repr.toList ++ (" - ".toList ++ ((Html.escape d.message).toList ++
        ("</li>".toList ++ more))))))) := by
  have hline : "<li>Line: ".toList = itemTag ++ "Line: ".toList := rfl
  unfold entry
  simp only [String.toList_append, hline, List.append_assoc]

theorem toList_details_append (f : Failure) (more : List Char) :
    f.details.toList ++ more = "Template: <strong>".toList ++ ((Html.escape f.template).toList ++
      ("</strong><br/><br/>Errors:<ul>".toList ++ ((entries f.diagnostics).toList ++
        ("</ul>".toList ++ more)))) := by
  unfold details
  simp only [String.toList_append, List.append_assoc]

theorem toList_page (f : Failure) :
    f.page.toList = "<!DOCTYPE html>\n<html>\n<head><meta charset=\"utf-8\"><title>".toList ++
      (f.stage.title.toList ++ ("</title></head>\n<body>\n<h1>".toList ++ (f.stage.title.toList ++
        ("</h1>\n".toList ++ (f.details.toList ++ "\n</body>\n</html>\n".toList))))) := by
  unfold page
  simp only [String.toList_append, List.append_assoc]

theorem toList_entries_cons (d : Diagnostic) (ds : List Diagnostic) :
    (entries (d :: ds)).toList = (entry d).toList ++ ds.flatMap fun d => '\n' :: (entry d).toList := by
  have hentries : ∀ ds, (entries ds).toList = ['\n'].intercalate (ds.map fun d => (entry d).toList) := by
    intro ds
    simp [entries, String.toList_intercalate, Function.comp_def]
  rw [hentries]
  induction ds generalizing d with
  | nil => simp
  | cons d' ds ih =>
    have hrest := ih d'
    simp only [List.map_cons] at hrest ⊢
    rw [List.intercalate_cons_cons, hrest]
    simp

/-! ### List items -/

/-- In a text list items begin exactly with the entries of some diagnostics, one each and in order. -/
def Lists (text : List Char) (ds : List Diagnostic) : Prop :=
  List.Forall₂ (fun item d => (entry d).toList <+: item) (occurrences itemTag text) ds

variable {text front : List Char} {ds : List Diagnostic}

theorem Lists.behind (hfront : Apart itemTag front) (h : Lists text ds) : Lists (front ++ text) ds := by
  unfold Lists
  rwa [Text.occurrences_append hfront]

/-- Behind the tag that it begins with, an entry has no list item in it. -/
theorem occurrences_entry (d : Diagnostic) (more : List Char) :
    occurrences itemTag ((entry d).toList ++ more) =
      ((entry d).toList ++ more) :: occurrences itemTag more := by
  have hline : Apart itemTag "Line: ".toList := .of_notMem (by decide)
  have hcolumn : Apart itemTag " Column: ".toList := .of_notMem (by decide)
  have hmessage : Apart itemTag " - ".toList := .of_notMem (by decide)
  have hend : Apart itemTag "</li>".toList := .of_tails (by decide)
  have hnumber : ∀ n : Nat, Apart itemTag n.repr.toList := fun n => .of_notMem (repr_plain n).1
  have htext : Apart itemTag (Html.escape d.message).toList := .of_notMem (escape_plain d.message)
  have htag : ∀ rest, occurrences itemTag (itemTag ++ rest) = (itemTag ++ rest) :: occurrences itemTag rest :=
    Text.occurrences_self_append (by decide : '<' ∉ "li>".toList)
  rw [toList_entry_append, htag, Text.occurrences_append hline, Text.occurrences_append (hnumber d.line),
    Text.occurrences_append hcolumn, Text.occurrences_append (hnumber d.column),
    Text.occurrences_append hmessage, Text.occurrences_append htext, Text.occurrences_append hend]

theorem Lists.cons (d : Diagnostic) (h : Lists text ds) : Lists ((entry d).toList ++ text) (d :: ds) := by
  unfold Lists
  rw [occurrences_entry]
  exact .cons (List.prefix_append _ _) h

/-- The entries of diagnostics list these diagnostics. -/
theorem Lists.entries (ds : List Diagnostic) (h : Lists text []) : Lists ((entries ds).toList ++ text) ds := by
  cases ds with
  | nil => exact h
  | cons d ds =>
    rw [toList_entries_cons, List.append_assoc]
    refine .cons d ?_
    induction ds with
    | nil => exact h
    | cons d ds ih =>
      have hbreak : Apart itemTag ['\n'] := .of_notMem (by decide)
      have hrest := (Lists.cons d ih).behind hbreak
      simpa using hrest

theorem lists_nil (h : Apart itemTag text) : Lists text [] := by
  have hempty : Lists [] [] := by
    unfold Lists
    rw [Text.occurrences_nil (by decide)]
    exact .nil
  simpa using hempty.behind h

theorem lists_details_append (f : Failure) (h : Apart itemTag text) :
    Lists (f.details.toList ++ text) f.diagnostics := by
  have hfront : Apart itemTag "Template: <strong>".toList := .of_tails (by decide)
  have hname : Apart itemTag (Html.escape f.template).toList := .of_notMem (escape_plain f.template)
  have hlist : Apart itemTag "</strong><br/><br/>Errors:<ul>".toList := .of_tails (by decide)
  have hend : Apart itemTag "</ul>".toList := .of_tails (by decide)
  rw [toList_details_append]
  have hitems := ((lists_nil h).behind hend).entries f.diagnostics
  exact ((hitems.behind hlist).behind hname).behind hfront

theorem lists_details (f : Failure) : Lists f.details.toList f.diagnostics := by
  have hnothing : Apart itemTag [] := trivial
  simpa using lists_details_append f hnothing

theorem lists_page (f : Failure) : Lists f.page.toList f.diagnostics := by
  have hfront : Apart itemTag "<!DOCTYPE html>\n<html>\n<head><meta charset=\"utf-8\"><title>".toList :=
    .of_tails (by decide)
  have htitle : Apart itemTag f.stage.title.toList := .of_notMem (title_plain f.stage)
  have hbody : Apart itemTag "</title></head>\n<body>\n<h1>".toList := .of_tails (by decide)
  have hheading : Apart itemTag "</h1>\n".toList := .of_tails (by decide)
  have hend : Apart itemTag "\n</body>\n</html>\n".toList := .of_tails (by decide)
  have hdetails := (lists_details_append f hend).behind hheading
  rw [toList_page]
  exact (((hdetails.behind htitle).behind hbody).behind htitle).behind hfront

/-! ### What a page tells -/

/-- An entry tells its diagnostic, whatever follows it. -/
theorem entry_unique {d d' : Diagnostic} {item : List Char} (h : (entry d).toList <+: item)
    (h' : (entry d').toList <+: item) : d = d' := by
  obtain ⟨more, rfl⟩ := h
  obtain ⟨more', heq⟩ := h'
  rw [toList_entry_append, toList_entry_append] at heq
  have hfields := List.append_cancel_left (List.append_cancel_left heq)
  obtain ⟨hline, hrest⟩ := append_word_inj (repr_plain d'.line).2 (repr_plain d.line).2 hfields rfl
  obtain ⟨hcolumn, hrest⟩ := append_word_inj (repr_plain d'.column).2 (repr_plain d.column).2 hrest rfl
  obtain ⟨hmessage, -⟩ := append_word_inj (escape_plain d'.message) (escape_plain d.message) hrest rfl
  obtain ⟨line, column, message⟩ := d
  obtain ⟨line', column', message'⟩ := d'
  obtain rfl := Text.repr_toList_injective hline
  obtain rfl := Text.repr_toList_injective hcolumn
  obtain rfl := Html.escape_injective (String.toList_injective hmessage)
  rfl

/-- A text lists one list of diagnostics at most. -/
theorem Lists.unique {ds' : List Diagnostic} (h : Lists text ds) (h' : Lists text ds') : ds = ds' := by
  have hentry : Relator.RightUnique fun (item : List Char) d => (entry d).toList <+: item :=
    fun _ _ _ => entry_unique
  exact hentry.forall₂ h h'

theorem page_injective {f g : Failure} (h : f.page = g.page) : f = g := by
  have hdiagnostics : f.diagnostics = g.diagnostics := (lists_page f).unique (h ▸ lists_page g)
  have hchars := congrArg String.toList h
  rw [toList_page, toList_page] at hchars
  obtain ⟨hstage, hrest⟩ :=
    append_word_inj (title_plain f.stage) (title_plain g.stage) (List.append_cancel_left hchars) rfl
  rw [hstage] at hrest
  have hdetails := List.append_cancel_left (List.append_cancel_left hrest)
  rw [toList_details_append, toList_details_append] at hdetails
  obtain ⟨htemplate, -⟩ :=
    append_word_inj (escape_plain f.template) (escape_plain g.template) (List.append_cancel_left hdetails) rfl
  obtain ⟨template, stage, diagnostics⟩ := f
  obtain ⟨template', stage', diagnostics'⟩ := g
  obtain rfl := Html.escape_injective (String.toList_injective htemplate)
  obtain rfl := title_inj hstage
  obtain rfl := hdiagnostics
  rfl

/-- The details and the page of a failure list its diagnostics and nothing else, and two failures with one
page are the same failure. -/
theorem page_faithful :
    (∀ f : Failure, Lists f.details.toList f.diagnostics ∧ Lists f.page.toList f.diagnostics) ∧
      ∀ f g : Failure, f.page = g.page ↔ f = g := by
  refine ⟨fun f => ⟨lists_details f, lists_page f⟩, fun f g => ⟨page_injective, ?_⟩⟩
  rintro rfl
  rfl

end LayeredViews.Failure
