import LayeredViews.Catalog.Memory
import LayeredViews.Layering
import LayeredViews.Proofs.Ending
import LayeredViews.Proofs.Table
import LayeredViews.Proofs.View.Spelling
import Mathlib.Data.List.Induction

/-!
# Shelved views — what a finder gives whose catalog is a shelf

A shelf never fails, so that what a finder on it gives for a path is a function of the path (`Shelf.at?`), and
so is the address it asks for (`Finder.target?`).  `ending_locate`, `ending_locateAll` and `ending_resolve` say this
of single paths, of lists of paths and of a view with its layouts, each with the lookups that it takes.
-/

namespace LayeredViews

open Address (IsSegment within leading)

/-! ### Keys -/

theorem Address.name_of_ofPath (path : String) :
    (ofPath path).name = "" ∨ IsSegment (ofPath path).name.toList := by
  rcases ofPath_cases path with ⟨-, hempty⟩ | ⟨dirs, name, -, hwithin, -, hname⟩
  · rw [hempty]
    exact Or.inl rfl
  · rw [hwithin]
    exact Or.inr (by simpa [within] using hname)

/-- An extension that a file may have been shelved under: what follows a last dot. -/
def IsFileExtension (extension : String) : Prop :=
  ∀ c ∈ extension.toList, c ≠ '.' ∧ Address.isSeparator c = false

theorem Address.IsSegment.file {name : List Char} (hname : IsSegment name) {extension : String}
    (hextension : IsFileExtension extension) : IsSegment (name ++ '.' :: extension.toList) :=
  ⟨by simp, List.forall_mem_append.mpr
    ⟨hname.2, List.forall_mem_cons.mpr ⟨rfl, fun c hc => (hextension c hc).2⟩⟩⟩

namespace ShelfKey

theorem extension_of_ofPath (path : String) : IsFileExtension (ofPath path).extension := by
  unfold ofPath
  dsimp only
  split
  · next stem extension hcut =>
    obtain ⟨dot, -, hname, hafter⟩ := Text.cutLast?_eq_some hcut
    intro c hc
    rw [String.toList_ofList] at hc
    refine ⟨by simpa using hafter c hc, ?_⟩
    rcases Address.name_of_ofPath path with hempty | hsegment
    · rw [hempty] at hname
      simp at hname
    · exact hsegment.2 c (by rw [hname]; simp [hc])
  · intro c hc
    simp at hc

/-- The key of a file is the address of the view and its extension. -/
theorem ofPath_file {dirs : List (List Char)} (hdirs : ∀ d ∈ dirs, IsSegment d) {name : List Char}
    (hname : IsSegment name) {extension : String} (hextension : IsFileExtension extension) :
    ofPath ((within dirs name).path ++ "." ++ extension) = ⟨within dirs name, extension⟩ := by
  have hfile : IsSegment (name ++ '.' :: extension.toList) := hname.file hextension
  have haddress : Address.ofPath ((within dirs name).path ++ "." ++ extension) =
      within dirs (name ++ '.' :: extension.toList) := by
    have htext : ((within dirs name).path ++ "." ++ extension).toList =
        leading dirs ++ (name ++ '.' :: extension.toList) := by
      rw [String.toList_append, String.toList_append, Address.toList_path_within hdirs]
      simp
    unfold Address.ofPath Address.segmentsOf
    rw [htext, Address.words_leading_append hdirs, Text.words_eq_singleton hfile.1 hfile.2,
      Address.ofSegments_concat]
  have hcut : Text.cutLast? (· == '.') (name ++ '.' :: extension.toList) =
      some (name, extension.toList) :=
    Text.cutLast?_append (fun c hc => by simpa using (hextension c hc).1) (by simp)
  unfold ofPath
  rw [haddress]
  simp [within, hcut]

end ShelfKey

/-! ### Lookups -/

namespace Shelf

variable {shelf : Shelf} {a : Address} {extensions : List String} {v : View}

/-- A view that is found stands at the address, with one of the extensions. -/
theorem find?_some (h : shelf.find? a extensions = some v) :
    v.toAddress = a ∧ v.extension ∈ extensions ∧
      Table.find? ⟨a, v.extension⟩ shelf.entries = some v.contents := by
  induction extensions with
  | nil => cases h
  | cons extension others ih =>
    rw [find?] at h
    split at h
    · next contents hfound =>
      obtain rfl := Option.some.inj h
      exact ⟨rfl, List.mem_cons_self, hfound⟩
    · obtain ⟨ha, hextension, hfound⟩ := ih h
      exact ⟨ha, List.mem_cons_of_mem extension hextension, hfound⟩

/-- A view found on a shelf is among those listed. -/
theorem mem_views (h : shelf.find? a extensions = some v) : v ∈ shelf.views extensions := by
  obtain ⟨rfl, hextension, hfound⟩ := find?_some h
  exact List.mem_map.mpr ⟨_, List.mem_filter.mpr ⟨Table.mem_of_find? hfound, by simpa using hextension⟩, rfl⟩

theorem find?_isSome {extension : String} (hmem : extension ∈ extensions) {contents : Contents}
    (h : Table.find? ⟨a, extension⟩ shelf.entries = some contents) :
    (shelf.find? a extensions).isSome = true := by
  induction extensions with
  | nil => cases hmem
  | cons other others ih =>
    rw [find?]
    split
    · rfl
    · next hnone =>
      rcases List.mem_cons.mp hmem with rfl | hmem
      · rw [h] at hnone
        cases hnone
      · exact ih hmem

/-- A shelf of files that hold texts. -/
def ofSources (sources : List (String × String)) : Shelf :=
  ofFiles (sources.map fun source => (source.1, .text source.2))

theorem ofFiles_concat (files : List (String × Contents)) (file : String × Contents) :
    ofFiles (files ++ [file]) = (ofFiles files).put file.1 file.2 := by
  simp [ofFiles]

/-- Every key on a shelf is that of one of its files. -/
theorem exists_file_of_find? {files : List (String × Contents)} {k : ShelfKey} {contents : Contents}
    (h : Table.find? k (ofFiles files).entries = some contents) :
    ∃ file ∈ files, ShelfKey.ofPath file.1 = k := by
  induction files using List.reverseRecOn with
  | nil => cases h
  | append_singleton files file ih =>
    rw [ofFiles_concat, put, Table.find?_insert] at h
    split at h
    · next hkey => exact ⟨file, by simp, hkey⟩
    · obtain ⟨earlier, hmem, hkey⟩ := ih h
      exact ⟨earlier, List.mem_append_left _ hmem, hkey⟩

/-- Files that share a key share their contents, or which of them counts is not known. -/
theorem find?_of_file {files : List (String × Contents)} {k : ShelfKey} {contents : Contents}
    (hfile : ∃ file ∈ files, ShelfKey.ofPath file.1 = k)
    (hall : ∀ file ∈ files, ShelfKey.ofPath file.1 = k → file.2 = contents) :
    Table.find? k (ofFiles files).entries = some contents := by
  induction files using List.reverseRecOn with
  | nil => simp at hfile
  | append_singleton files file ih =>
    obtain ⟨hearlier, hlast⟩ := List.forall_mem_append.mp hall
    rw [ofFiles_concat, put, Table.find?_insert]
    by_cases hkey : ShelfKey.ofPath file.1 = k
    · rw [if_pos hkey, hlast file List.mem_cons_self hkey]
    · rw [if_neg hkey]
      refine ih ?_ hearlier
      obtain ⟨other, hmem, hother⟩ := hfile
      rcases List.mem_append.mp hmem with hmem | hmem
      · exact ⟨other, hmem, hother⟩
      · obtain rfl := List.mem_singleton.mp hmem
        exact absurd hother hkey

theorem isFileExtension_of_find? {files : List (String × Contents)}
    (h : (ofFiles files).find? a extensions = some v) : IsFileExtension v.extension := by
  obtain ⟨file, -, hkey⟩ := exists_file_of_find? (find?_some h).2.2
  have hextension := ShelfKey.extension_of_ofPath file.1
  rwa [hkey] at hextension

end Shelf

/-! ### Finders on a shelf -/

/-- The address that a finder asks for to find the view at a path, if it asks at all. -/
def Finder.target? (f : Finder) (path : String) : Option Address :=
  if (Address.ofPath (f.normalize path)).isPlain then some (Address.ofPath (f.normalize path)) else none

theorem Finder.target?_eq_some_iff {f : Finder} {path : String} {a : Address} :
    f.target? path = some a ↔ Address.ofPath (f.normalize path) = a ∧ a.isPlain = true := by
  unfold target?
  split
  · next hplain =>
    rw [Option.some.injEq]
    exact ⟨fun h => ⟨h, h ▸ hplain⟩, And.left⟩
  · next hplain =>
    refine ⟨nofun, ?_⟩
    rintro ⟨rfl, h⟩
    exact absurd h hplain

/-- The paths at which the layouts of a leaf are looked for. -/
def Layering.probes (layoutName leafPath : String) : List String :=
  (candidates layoutName leafPath).filter fun candidate => candidate ≠ leafPath

namespace Shelf

variable (shelf : Shelf) (extensions : List String)

/-- A finder of the views on a shelf. -/
def finder : Finder := ⟨shelf.toCatalog, extensions⟩

/-- The view that a path leads to. -/
def at? (path : String) : Option View :=
  ((shelf.finder extensions).target? path).bind fun a => shelf.find? a extensions

theorem ending_locate (path : String) (asked : History Address) :
    ∃ told, ending ((shelf.finder extensions).locate path) asked = (.ok (shelf.at? extensions path), told) ∧
      told.toList = asked.toList ++ ((shelf.finder extensions).target? path).toList := by
  unfold Finder.locate at? Finder.target?
  dsimp only
  split
  · exact ⟨_, rfl, History.toList_push asked _⟩
  · exact ⟨asked, rfl, (List.append_nil _).symm⟩

theorem ending_require (path : String) (asked : History Address) :
    ∃ told, ending ((shelf.finder extensions).require path) asked =
        ((shelf.at? extensions path).elim (.error (.notFound path)) .ok, told) ∧
      told.toList = asked.toList ++ ((shelf.finder extensions).target? path).toList := by
  obtain ⟨told, hlocate, htold⟩ := shelf.ending_locate extensions path asked
  refine ⟨told, ?_, htold⟩
  unfold Finder.require
  rw [ending_bind_ok hlocate]
  cases shelf.at? extensions path <;> rfl

theorem ending_locateAll (leafPath : String) (candidates : List String) (asked : History Address) :
    let probes := candidates.filter fun candidate => candidate ≠ leafPath
    ∃ told, ending (Layering.locateAll (shelf.finder extensions) leafPath candidates) asked =
        (.ok (probes.filterMap (shelf.at? extensions)), told) ∧
      told.toList = asked.toList ++ probes.filterMap (shelf.finder extensions).target? := by
  induction candidates generalizing asked with
  | nil => exact ⟨asked, rfl, (List.append_nil _).symm⟩
  | cons candidate others ih =>
    rw [Layering.locateAll]
    by_cases hleaf : candidate = leafPath
    · rw [if_pos hleaf, List.filter_cons_of_neg (by simpa using hleaf)]
      exact ih asked
    · rw [if_neg hleaf, List.filter_cons_of_pos (by simpa using hleaf)]
      obtain ⟨told, hlocate, htold⟩ := shelf.ending_locate extensions candidate asked
      obtain ⟨more, hothers, hmore⟩ := ih told
      have hall : more.toList = asked.toList ++ (candidate ::
          others.filter fun candidate => candidate ≠ leafPath).filterMap (shelf.finder extensions).target? := by
        rw [hmore, htold, List.filterMap_cons]
        cases (shelf.finder extensions).target? candidate <;> simp
      refine ⟨more, ?_, hall⟩
      rw [ending_bind_ok hlocate, List.filterMap_cons]
      cases shelf.at? extensions candidate with
      | none => exact hothers
      | some view => exact ending_bind_ok hothers _

/-- What resolving a view gives, and the lookups it takes. -/
theorem ending_resolve (layoutName path : String) (asked : History Address) :
    (shelf.at? extensions path = none →
      (ending (Layering.resolve (shelf.finder extensions) layoutName path) asked).1 =
        .error (.notFound path)) ∧
    ∀ leaf, shelf.at? extensions path = some leaf →
      let probes := Layering.probes layoutName leaf.path
      ∃ told, ending (Layering.resolve (shelf.finder extensions) layoutName path) asked =
          (.ok ⟨probes.filterMap (shelf.at? extensions), leaf⟩, told) ∧
        told.toList = asked.toList ++ (((shelf.finder extensions).target? path).toList ++
          probes.filterMap (shelf.finder extensions).target?) := by
  obtain ⟨told, hrequire, htold⟩ := shelf.ending_require extensions path asked
  refine ⟨fun hnone => ?_, fun leaf hleaf => ?_⟩
  · rw [hnone] at hrequire
    unfold Layering.resolve
    rw [ending_bind_error hrequire]
  · rw [hleaf] at hrequire
    obtain ⟨more, hlayouts, hmore⟩ :=
      shelf.ending_locateAll extensions leaf.path (Layering.candidates layoutName leaf.path) told
    refine ⟨more, ?_, by rw [hmore, htold, List.append_assoc]; rfl⟩
    unfold Layering.resolve
    rw [ending_bind_ok hrequire]
    exact ending_bind_ok hlayouts _

end Shelf

end LayeredViews
