import LayeredViews.Proofs.Catalog.Listed
import Mathlib.Data.Prod.Lex
import Mathlib.Data.String.Basic

/-!
# Last writes — what a shelf holds after any history of puts

A path spells one key, however its segments are separated (`ShelfKey.spelled_iff`).  Under each key a shelf holds what
has been put there last, finds of the extensions that are tried the first one under which anything has been put, and
lists its keys once each, in the order of location, name and extension (`lastWrites`).
-/

namespace LayeredViews

open Address (isSeparator within)
open Text (Separated)

/-! ### Spelling a key -/

/-- A file is named by the name of a view, a dot and an extension, which are told apart by the last dot; without a dot
the name is all of it. -/
inductive NamesFile : (file name extension : List Char) → Prop where
  | dotted {name extension : List Char} (h : '.' ∉ extension) :
      NamesFile (name ++ '.' :: extension) name extension
  | plain {name : List Char} (h : '.' ∉ name) : NamesFile name name []

namespace ShelfKey

/-- The path leads through the directories of the key to its file; a path without segments spells the empty key. -/
inductive Spelled (path : String) : ShelfKey → Prop where
  | file {dirs : List (List Char)} {file name extension : List Char}
      (hpath : Separated isSeparator path.toList (dirs ++ [file])) (hfile : NamesFile file name extension) :
      Spelled path ⟨within dirs name, String.ofList extension⟩
  | nothing (hpath : Separated isSeparator path.toList []) : Spelled path ⟨⟨"", ""⟩, ""⟩

theorem cutLast?_of_namesFile {file name extension : List Char} (h : NamesFile file name extension) :
    (Text.cutLast? (· == '.') file).getD (file, []) = (name, extension) := by
  cases h with
  | dotted hextension =>
    have hcut := Text.cutLast?_append (p := (· == '.')) (a := name) (b := extension) (c := '.')
      (fun c hc => beq_eq_false_iff_ne.mpr fun heq => hextension (heq ▸ hc)) (beq_self_eq_true _)
    rw [hcut, Option.getD_some]
  | plain hname =>
    have hcut : Text.cutLast? (· == '.') file = none := by
      refine Option.map_eq_none_iff.mpr (Text.cut?_eq_none fun c hc => ?_)
      exact beq_eq_false_iff_ne.mpr fun heq => hname (heq ▸ List.mem_reverse.mp hc)
    rw [hcut, Option.getD_none]

theorem namesFile_cutLast? (file : List Char) :
    let parts := (Text.cutLast? (· == '.') file).getD (file, [])
    NamesFile file parts.1 parts.2 := by
  cases hcut : Text.cutLast? (· == '.') file with
  | none =>
    refine .plain fun hdot => ?_
    have hunbroken := Text.not_of_cut?_eq_none (Option.map_eq_none_iff.mp hcut) '.' (List.mem_reverse.mpr hdot)
    cases hunbroken
  | some parts =>
    obtain ⟨c, hc, rfl, hextension⟩ := Text.cutLast?_eq_some hcut
    obtain rfl := eq_of_beq hc
    refine .dotted fun hdot => ?_
    have hunbroken := hextension '.' hdot
    cases hunbroken

theorem ofPath_of_segments {path : String} {dirs : List (List Char)} {file : List Char}
    (h : Address.segmentsOf path = dirs ++ [file]) :
    let parts := (Text.cutLast? (· == '.') file).getD (file, [])
    ofPath path = ⟨within dirs parts.1, String.ofList parts.2⟩ := by
  unfold ofPath Address.ofPath
  rw [h, Address.ofSegments_concat]
  dsimp only [within]
  rw [String.toList_ofList]
  cases Text.cutLast? (· == '.') file <;> rfl

/-- Every path spells one key. -/
theorem spelled_iff {path : String} {k : ShelfKey} : Spelled path k ↔ ofPath path = k := by
  constructor
  · rintro (⟨hpath, hfile⟩ | hpath)
    · have hparts := cutLast?_of_namesFile hfile
      have hkey := ofPath_of_segments (Text.words_of_separated hpath)
      rw [hparts] at hkey
      exact hkey
    · have hsegments : Address.segmentsOf path = [] := Text.words_of_separated hpath
      unfold ofPath Address.ofPath
      rw [hsegments]
      rfl
  · rintro rfl
    have hpath : Separated isSeparator path.toList (Address.segmentsOf path) := Text.separated_words _ _
    rcases List.eq_nil_or_concat (Address.segmentsOf path) with hnil | ⟨dirs, file, hsegments⟩
    · rw [hnil] at hpath
      have hnothing := Spelled.nothing hpath
      unfold ofPath Address.ofPath
      rw [hnil]
      exact hnothing
    · rw [List.concat_eq_append] at hsegments
      rw [ofPath_of_segments hsegments]
      exact .file (hsegments ▸ hpath) (namesFile_cutLast? file)

example : ofPath "\\a//b.x.html" = ofPath "a/b.x.html" := by decide +kernel

/-! ### The order of keys -/

/-- Location, name and extension, to be compared in this order. -/
def triple (k : ShelfKey) : String ×ₗ String ×ₗ String :=
  toLex (k.location, toLex (k.name, k.extension))

theorem before_iff {k l : ShelfKey} : before k l = true ↔ k.triple < l.triple := by
  unfold before triple Text.before
  simp only [Prod.Lex.toLex_lt_toLex]
  have hirrefl := String.lt_irrefl
  grind

end ShelfKey

/-! ### Histories of puts -/

/-- The key under which a view stands on a shelf. -/
def View.key (v : View) : ShelfKey := ⟨v.toAddress, v.extension⟩

namespace Shelf

variable {sources : List (String × String)} {k : ShelfKey} {extensions : List String}

theorem not_put_of_find?_eq_none {a : Address} (h : (ofSources sources).find? a extensions = none) :
    ∀ x ∈ extensions, ∀ source ∈ sources, ShelfKey.ofPath source.1 ≠ ⟨a, x⟩ := by
  intro x hx source hsource hkey
  obtain ⟨contents, hfound⟩ := exists_find?_iff.mpr ⟨source, hsource, hkey⟩
  have hsome := find?_isSome hx hfound
  rw [h] at hsome
  cases hsome

theorem views_ordered {shelf : Shelf} (h : Table.Ordered ShelfKey.before shelf.entries) (extensions : List String) :
    (shelf.views extensions).Pairwise fun v w => v.key.triple < w.key.triple := by
  unfold views
  refine List.pairwise_map.mpr ((h.filter _).imp fun hlt => ?_)
  exact ShelfKey.before_iff.mp hlt

/-- What a shelf finds and lists after any puts.  A path spells one key.  At an address the view is found whose
extension is the first one under which a source has been put there, with the last such source, and nothing if there is
no such extension.  Listed are the keys under which a source has been put, if their extension is asked for: each of them
once, in the order of location, name and extension, and with its last source. -/
theorem lastWrites (sources : List (String × String)) (extensions : List String) :
    let catalog := (ofSources sources).toCatalog
    (∀ path k, ShelfKey.Spelled path k ↔ ShelfKey.ofPath path = k) ∧
      (∀ a, (∃ first text, FirstExtension sources extensions a first ∧ LastSource sources ⟨a, first⟩ text ∧
          catalog.locate extensions a = .ok (some ⟨a, first, .text text⟩)) ∨
        (∀ x ∈ extensions, ∀ source ∈ sources, ShelfKey.ofPath source.1 ≠ ⟨a, x⟩) ∧
          catalog.locate extensions a = .ok none) ∧
      ∃ views, catalog.list extensions = .ok views ∧
        views.Pairwise (fun v w => v.key.triple < w.key.triple) ∧
        (∀ v ∈ views, ∃ text, v.contents = .text text ∧ LastSource sources v.key text) ∧
        ∀ k, k ∈ views.map View.key ↔
          k.extension ∈ extensions ∧ ∃ source ∈ sources, ShelfKey.ofPath source.1 = k := by
  intro catalog
  have hordered := ofFiles_ordered (sources.map fun source => (source.1, Contents.text source.2))
  refine ⟨fun path k => ShelfKey.spelled_iff, fun a => ?_, (ofSources sources).views extensions, rfl,
    views_ordered hordered extensions, fun v hv => ?_, fun k => ?_⟩
  · have hlocate : catalog.locate extensions a = .ok ((ofSources sources).find? a extensions) := rfl
    rw [hlocate]
    cases hfound : (ofSources sources).find? a extensions with
    | none => exact Or.inr ⟨not_put_of_find?_eq_none hfound, rfl⟩
    | some v =>
      have hfirst := firstExtension_of_find? hfound
      obtain ⟨rfl, -, hshelved⟩ := find?_some hfound
      obtain ⟨text, htext, hlast⟩ := find?_ofSources_iff.mp hshelved
      exact Or.inl ⟨v.extension, text, hfirst, hlast, by rw [← htext]⟩
  · exact find?_ofSources_iff.mp ((mem_views_iff hordered).mp hv).2
  · rw [← exists_find?_iff, List.mem_map]
    constructor
    · rintro ⟨v, hv, rfl⟩
      obtain ⟨hextension, hshelved⟩ := (mem_views_iff hordered).mp hv
      exact ⟨hextension, v.contents, hshelved⟩
    · rintro ⟨hextension, contents, hshelved⟩
      exact ⟨⟨k.toAddress, k.extension, contents⟩, (mem_views_iff hordered).mpr ⟨hextension, hshelved⟩, rfl⟩

end Shelf

end LayeredViews
