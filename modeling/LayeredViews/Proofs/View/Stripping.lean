import LayeredViews.Proofs.Catalog.Shelved

/-!
# Stripping — what taking an extension off leaves of a path

An extension is taken off the text of a path, before the path is cut into segments.  As long as something is left of
its last segment the path leads through the directories that it names.  A last segment that is nothing but the
extension goes as a whole, and the directory in front of it becomes the name of a view: `locate_keepsDirectory_iff`.
-/

namespace LayeredViews

open Address (IsSegment isSeparator within)
open Text (words joinWith)

namespace Finder

/-- The view stands where the path leads: below all segments but the last, and its name is the last one or what is left
of it without an extension. -/
def KeepsDirectory (extensions : List String) (path : String) (v : View) : Prop :=
  ∃ dirs name, Address.segmentsOf path = dirs ++ [name] ∧ v.location = String.ofList (joinWith '/' dirs) ∧
    (v.name.toList = name ∨ ∃ e ∈ extensions, v.name.toList ++ '.' :: e.toList = name)

/-- The last segment is nothing but an extension, and the path ends in none that is tried before it. -/
def EndsInBareExtension (extensions : List String) (path : String) : Prop :=
  ∃ front c before e after, path.toList = front ++ c :: '.' :: e.toList ∧ isSeparator c = true ∧
    extensions = before ++ e :: after ∧ ∀ x ∈ before, ¬ '.' :: x.toList <:+ path.toList

variable {extensions : List String} {path : String}

section

variable (hextensions : ∀ e ∈ extensions, ∀ c ∈ e.toList, isSeparator c = false)
include hextensions

theorem isSegment_bareExtension {e : String} (he : e ∈ extensions) : IsSegment ('.' :: e.toList) :=
  ⟨by simp, List.forall_mem_cons.mpr ⟨rfl, hextensions e he⟩⟩

/-- A last segment that is nothing but an extension leaves the address that the directory in front of it spells. -/
theorem segments_of_bareExtension (h : EndsInBareExtension extensions path) :
    ∃ e ∈ extensions, Address.segmentsOf path =
      words isSeparator (stripAny path.toList extensions) ++ ['.' :: e.toList] := by
  obtain ⟨front, c, before, e, after, hpath, hc, hsplit, hbefore⟩ := h
  have he : e ∈ extensions := hsplit ▸ by simp
  have hbare := isSegment_bareExtension hextensions he
  have hstrip : stripAny path.toList extensions = front ++ [c] := by
    rw [hsplit]
    exact stripAny_of_first after (by simpa using hpath) hbefore
  refine ⟨e, he, ?_⟩
  unfold Address.segmentsOf
  rw [hstrip, hpath, Text.words_append_cons front _ hc, Text.words_append_cons front [] hc,
    Text.words_eq_singleton hbare.1 hbare.2, Text.words_nil, List.append_nil]

/-- Otherwise only the last segment has changed, if any, and something is left of it. -/
theorem segments_of_not_bareExtension (h : ¬ EndsInBareExtension extensions path)
    (hsome : words isSeparator (stripAny path.toList extensions) ≠ []) :
    ∃ dirs name stem, Address.segmentsOf path = dirs ++ [name] ∧
      words isSeparator (stripAny path.toList extensions) = dirs ++ [stem] ∧
        (stem = name ∨ ∃ e ∈ extensions, stem ++ '.' :: e.toList = name) := by
  rcases stripAny_cases path.toList extensions with ⟨hsame, -⟩ | ⟨before, e, after, hsplit, hstrip, hbefore⟩
  · rw [hsame] at hsome ⊢
    obtain ⟨dirs, name, hwords⟩ := (List.eq_nil_or_concat _).resolve_left hsome
    rw [List.concat_eq_append] at hwords
    exact ⟨dirs, name, name, hwords, hwords, Or.inl rfl⟩
  · have he : e ∈ extensions := hsplit ▸ by simp
    have hbare := isSegment_bareExtension hextensions he
    have hsegments : Address.segmentsOf path =
        words isSeparator (stripAny path.toList extensions ++ '.' :: e.toList) := by rw [hstrip]; rfl
    rcases Text.words_append_unbroken (stripAny path.toList extensions) hbare.1 hbare.2 with
      ⟨hempty | ⟨front, c, hfront, hc⟩, -⟩ | ⟨dirs, stem, hwords, hall⟩
    · rw [hempty] at hsome
      exact absurd rfl hsome
    · refine absurd ⟨front, c, before, e, after, ?_, hc, hsplit, hbefore⟩ h
      rw [← hstrip, hfront]
      simp
    · exact ⟨dirs, _, stem, hsegments.trans hall, hwords, Or.inr ⟨e, he, rfl⟩⟩

/-- A view that is found at a path stands where the path leads, unless the last segment is nothing but an extension;
then it is the view that the segments before it lead to. -/
theorem locate_keepsDirectory_iff {shelf : Shelf} {asked : History Address} {v : View}
    (h : (ending ((shelf.finder extensions).locate path) asked).1 = .ok (some v)) :
    (KeepsDirectory extensions path v ↔ ¬ EndsInBareExtension extensions path) ∧
      (EndsInBareExtension extensions path → ∃ dirs name e, e ∈ extensions ∧
        Address.segmentsOf path = dirs ++ [name, '.' :: e.toList] ∧ v.toAddress = within dirs name) := by
  obtain ⟨told, hlocate, -⟩ := shelf.ending_locate extensions path asked
  rw [hlocate] at h
  obtain ⟨a, htarget, hfound⟩ := Option.bind_eq_some_iff.mp (Except.ok.inj h)
  obtain rfl := (Shelf.find?_some hfound).1
  obtain ⟨haddress, hplain⟩ := target?_eq_some_iff.mp htarget
  rw [← haddress] at hplain
  obtain ⟨dirs, stem, hsegments, hwithin, hdirs, -⟩ := Address.exists_within_of_isPlain hplain
  rw [haddress] at hwithin
  have hstripped : words isSeparator (stripAny path.toList extensions) = dirs ++ [stem] := by
    rw [← hsegments]
    unfold Address.segmentsOf normalize Shelf.finder
    rw [String.toList_ofList]
  have hlocation : v.location = (within dirs stem).location := congrArg Address.location hwithin
  by_cases hbare : EndsInBareExtension extensions path
  · obtain ⟨e, he, hpath⟩ := segments_of_bareExtension hextensions hbare
    rw [hstripped] at hpath
    refine ⟨iff_of_false ?_ (not_not_intro hbare), fun _ => ⟨dirs, stem, e, he, by rw [hpath]; simp, hwithin⟩⟩
    rintro ⟨dirs', name, hpath', hlocation', -⟩
    -- the path leads one directory further down
    obtain ⟨rfl, -⟩ := List.append_inj' (hpath.symm.trans hpath') rfl
    have hjoined : within dirs stem = within (dirs ++ [stem]) stem := by
      rw [hlocation] at hlocation'
      exact congrArg (Address.mk · (String.ofList stem)) hlocation'
    have hall : ∀ d ∈ dirs ++ [stem], IsSegment d := fun d hd =>
      Address.isSegment_of_mem_segmentsOf (by rw [hsegments]; exact hd)
    have hlength := congrArg List.length (Address.within_injective hdirs hall hjoined).1
    simp at hlength
  · refine ⟨iff_of_true ?_ hbare, fun h => absurd h hbare⟩
    obtain ⟨dirs', name, stem', hpath, hwords, hname⟩ :=
      segments_of_not_bareExtension hextensions hbare (by rw [hstripped]; simp)
    obtain ⟨rfl, hstem⟩ := List.append_inj' (hstripped.symm.trans hwords) rfl
    obtain rfl := List.singleton_inj.mp hstem
    have hviewName : v.name.toList = stem := by
      rw [show v.name = (within dirs stem).name from congrArg Address.name hwithin]
      exact String.toList_ofList
    exact ⟨dirs, name, hpath, hlocation, by rw [hviewName]; exact hname⟩

end

/-- A path into a directory, which finds the page beside the directory. -/
theorem not_keepsDirectory_bareExtension :
    let v : View := ⟨⟨"", "a"⟩, "html", .text "x"⟩
    (ending (((Shelf.ofSources [("a.html", "x")]).finder ["html"]).locate "a/.html") .empty).1 = .ok (some v) ∧
      ¬ KeepsDirectory ["html"] "a/.html" v := by
  intro v
  have hextensions : ∀ e ∈ ["html"], ∀ c ∈ e.toList, isSeparator c = false := by simp [isSeparator]
  have hlocated : (ending (((Shelf.ofSources [("a.html", "x")]).finder ["html"]).locate "a/.html") .empty).1 =
      .ok (some v) := by decide +kernel
  have hbare : EndsInBareExtension ["html"] "a/.html" :=
    ⟨['a'], '/', [], "html", [], by simp, rfl, rfl, by simp⟩
  exact ⟨hlocated, fun hkeeps => (locate_keepsDirectory_iff hextensions hlocated).1.mp hkeeps hbare⟩

end Finder

end LayeredViews
