import LayeredViews.Proofs.Catalog.Shelved
import LayeredViews.Proofs.FileSystem.Walk
import LayeredViews.Proofs.View.Offered

/-!
# Agreement — a directory and a shelf of the same files

The files of a tree may be read from the directory that holds them, or put on a shelf under their relative paths.
Both ways a path gives the same text, or is not found.  They differ where a path runs through a file as if it were a
directory: the shelf has nothing there, and the directory has a fault (`read_agrees_iff`).
-/

namespace LayeredViews

open Address (IsSegment isPlainSegment within)
open Text (joinWith)

/-! ### Reading by a path -/

namespace Finder

variable (f : Finder) (path : String) (asked : History Address)

/-- What the catalog gives for the address that a path leads to. -/
def located : Except ContentError (Option View) :=
  (f.target? path).elim (.ok none) (f.catalog.locate f.extensions)

theorem ending_locate : (ending (f.locate path) asked).1 = f.located path := by
  unfold locate located target?
  dsimp only
  by_cases hplain : (Address.ofPath (f.normalize path)).isPlain = true
  · rw [if_pos hplain, if_pos hplain, Search.ending_lookUp]
    rfl
  · rw [if_neg hplain, if_neg hplain]
    rfl

theorem ending_read :
    (ending (f.read path) asked).1 =
      (f.located path).bind fun found => found.elim (.error (.notFound path)) View.source := by
  have hlocate := f.ending_locate path asked
  unfold read require
  rw [bind_assoc, ending_bind, ← hlocate]
  rcases ending (f.locate path) asked with ⟨e | found, asked'⟩
  · rfl
  cases found with
  | none => rfl
  | some view =>
    dsimp only
    rw [pure_bind]
    dsimp only [Except.bind, Option.elim]
    cases view.source <;> rfl

end Finder

/-- A finder of the views in a directory. -/
def Directory.finder (d : Directory) (extensions : List String) : Finder := ⟨d.toCatalog, extensions⟩

/-! ### Relative paths -/

/-- The path of a file from the root of its tree. -/
def relativePath (place : Place) : String :=
  String.ofList (joinWith '/' (place.map String.toList))

/-- The place of the file of a view. -/
def Address.filePlace (a : Address) (extension : String) : Place :=
  (directories a.location).map String.ofList ++ [a.name ++ "." ++ extension]

theorem Address.filePlace_within {dirs : List (List Char)} (hdirs : ∀ d ∈ dirs, IsSegment d) (name : List Char)
    (extension : String) :
    (within dirs name).filePlace extension =
      dirs.map String.ofList ++ [String.ofList name ++ "." ++ extension] := by
  unfold filePlace
  rw [directories_within hdirs]
  rfl

theorem ofPath_relativePath {place : Place} (hplace : ∀ name ∈ place, IsSegment name.toList) :
    Address.ofPath (relativePath place) = Address.ofSegments (place.map String.toList) := by
  unfold Address.ofPath Address.segmentsOf relativePath
  rw [String.toList_ofList, Text.words_joinWith Address.isSeparator_slash (List.forall_mem_map.mpr hplace)]

/-- The relative path of a file spells the key of a view, exactly if it is the file of the view. -/
theorem ShelfKey.ofPath_relativePath_iff {place : Place} (hplace : ∀ name ∈ place, IsSegment name.toList)
    {dirs : List (List Char)} (hdirs : ∀ d ∈ dirs, IsSegment d) (name : List Char) {extension : String}
    (hne : extension ≠ "") (hextension : IsFileExtension extension) :
    ofPath (relativePath place) = ⟨within dirs name, extension⟩ ↔
      place = (within dirs name).filePlace extension := by
  rw [Address.filePlace_within hdirs]
  unfold ofPath
  rw [ofPath_relativePath hplace]
  rcases List.eq_nil_or_concat place with rfl | ⟨front, last, rfl⟩
  · refine iff_of_false (fun h => hne (congrArg ShelfKey.extension h).symm) (by simp)
  rw [List.concat_eq_append] at hplace ⊢
  obtain ⟨hfront, -⟩ := List.forall_mem_append.mp hplace
  have hfront : ∀ d ∈ front.map String.toList, IsSegment d := List.forall_mem_map.mpr hfront
  rw [List.map_append, List.map_singleton, Address.ofSegments_concat]
  have hlast : (within (front.map String.toList) last.toList).name.toList = last.toList := String.toList_ofList
  dsimp only
  rw [hlast]
  constructor
  · intro h
    cases hcut : Text.cutLast? (· == '.') last.toList with
    | none =>
      rw [hcut] at h
      exact absurd (congrArg ShelfKey.extension h).symm hne
    | some cut =>
      obtain ⟨stem, rest⟩ := cut
      rw [hcut] at h
      obtain ⟨haddress, hrest⟩ := ShelfKey.mk.inj h
      obtain ⟨rfl, rfl⟩ := Address.within_injective hfront hdirs haddress
      obtain ⟨dot, hdot, hsplit, -⟩ := Text.cutLast?_eq_some hcut
      obtain rfl := eq_of_beq hdot
      have hnamed : last = String.ofList stem ++ "." ++ extension := by
        rw [← hrest, ← String.toList_inj, hsplit]
        simp
      rw [hnamed]
      simp [Function.comp_def]
  · intro h
    obtain ⟨rfl, hnamed⟩ := List.append_inj' h rfl
    obtain rfl := List.singleton_inj.mp hnamed
    have hsplit : (String.ofList name ++ "." ++ extension).toList = name ++ '.' :: extension.toList := by simp
    have hcut : Text.cutLast? (· == '.') (name ++ '.' :: extension.toList) = some (name, extension.toList) :=
      Text.cutLast?_append (fun c hc => by simpa using (hextension c hc).1) (by simp)
    rw [hsplit, hcut]
    simp [within, Function.comp_def]

/-! ### The files of a tree -/

/-- These are the files of a tree of directories, each with its text: none is unreadable, and there are no links. -/
structure FileTree.Holds (t : FileTree) (files : List (Place × String)) : Prop where
  linkFree : t.LinkFree
  readable : ∀ place contents, t.get? place = some (.file contents) → ∃ text, contents.read = .ok text
  listed : ∀ place text, (place, text) ∈ files ↔
    ∃ contents, t.get? place = some (.file contents) ∧ contents.read = .ok text
  named : ∀ file ∈ files, ∀ name ∈ file.1, IsEntryName name.toList

/-- The shelf on which files are put under their relative paths. -/
def shelfOf (files : List (Place × String)) : Shelf :=
  .ofSources (files.map fun file => (relativePath file.1, file.2))

/-- No file that has a backslash in a name is put on the shelf at the address. -/
def Unmixed (files : List (Place × String)) (a : Address) : Prop :=
  ∀ file ∈ files, (∃ name ∈ file.1, '\\' ∈ name.toList) →
    (ShelfKey.ofPath (relativePath file.1)).toAddress ≠ a

theorem IsEntryName.isSegment {name : List Char} (h : IsEntryName name) (hbackslash : '\\' ∉ name) :
    IsSegment name := by
  refine ⟨h.ne_nil, fun c hc => ?_⟩
  unfold Address.isSeparator
  rw [Bool.or_eq_false_iff, beq_eq_false_iff_ne, beq_eq_false_iff_ne]
  exact ⟨fun heq => h.slash_notMem (heq ▸ hc), fun heq => hbackslash (heq ▸ hc)⟩

section Shelved

variable {t : FileTree} {files : List (Place × String)} (hholds : t.Holds files) {dirs : List (List Char)}
  {name : List Char} (hdirs : ∀ d ∈ dirs, IsSegment d) (hname : IsSegment name)
  (hunmixed : Unmixed files (within dirs name)) {extension : String} (hne : extension ≠ "")
  (hextension : IsFileExtension extension)
include hholds hdirs hunmixed hne hextension

theorem place_of_key {file : Place × String} (hfile : file ∈ files)
    (hkey : ShelfKey.ofPath (relativePath file.1) = ⟨within dirs name, extension⟩) :
    file.1 = (within dirs name).filePlace extension := by
  refine (ShelfKey.ofPath_relativePath_iff (fun part hpart => ?_) hdirs name hne hextension).mp hkey
  refine (hholds.named file hfile part hpart).isSegment fun hbackslash => ?_
  exact hunmixed file hfile ⟨part, hpart, hbackslash⟩ (congrArg ShelfKey.toAddress hkey)

/-- Where the tree has no file for a view there is none on the shelf. -/
theorem shelved_eq_none
    (h : ∀ contents, t.get? (dirs.map String.ofList ++ [String.ofList name ++ "." ++ extension]) ≠
      some (.file contents)) :
    Table.find? ⟨within dirs name, extension⟩ (shelfOf files).entries = none := by
  refine Option.eq_none_iff_forall_not_mem.mpr fun contents hshelved => ?_
  obtain ⟨entry, hentry, hkey⟩ := Shelf.exists_file_of_find? hshelved
  obtain ⟨source, hsource, rfl⟩ := List.mem_map.mp hentry
  obtain ⟨file, hfile, rfl⟩ := List.mem_map.mp hsource
  obtain ⟨onDisk, honDisk, -⟩ := (hholds.listed file.1 file.2).mp hfile
  rw [place_of_key hholds hdirs hunmixed hne hextension hfile hkey, Address.filePlace_within hdirs] at honDisk
  exact h onDisk honDisk

include hname in
/-- The file of a view is on the shelf with its text. -/
theorem shelved_of_file {contents : Contents} {text : String}
    (hfile : t.get? ((within dirs name).filePlace extension) = some (.file contents))
    (htext : contents.read = .ok text) :
    Table.find? ⟨within dirs name, extension⟩ (shelfOf files).entries = some (.text text) := by
  have hmem : ((within dirs name).filePlace extension, text) ∈ files :=
    (hholds.listed _ text).mpr ⟨contents, hfile, htext⟩
  have hparts : ∀ part ∈ (within dirs name).filePlace extension, IsSegment part.toList := by
    rw [Address.filePlace_within hdirs, List.forall_mem_append, List.forall_mem_map]
    refine ⟨by simpa using hdirs, ?_⟩
    simpa using hname.file hextension
  have hkey := (ShelfKey.ofPath_relativePath_iff hparts hdirs name hne hextension).mpr rfl
  refine Shelf.find?_of_file ⟨_, List.mem_map_of_mem (List.mem_map_of_mem hmem), hkey⟩ fun entry hentry hother => ?_
  obtain ⟨source, hsource, rfl⟩ := List.mem_map.mp hentry
  obtain ⟨file, hmem', rfl⟩ := List.mem_map.mp hsource
  obtain ⟨contents', hfile', htext'⟩ := (hholds.listed file.1 file.2).mp hmem'
  rw [place_of_key hholds hdirs hunmixed hne hextension hmem' hother, hfile] at hfile'
  obtain rfl := FileTree.file.inj (Option.some.inj hfile')
  rw [htext] at htext'
  exact congrArg Contents.text (Except.ok.inj htext').symm

end Shelved

/-! ### Both ways -/

/-- Views that may be located in different ways, of the same text. -/
def SameText (v w : Option View) : Prop :=
  v = none ∧ w = none ∨ ∃ x y text, v = some x ∧ w = some y ∧ x.source = .ok text ∧ y.source = .ok text

theorem SameText.read {v w : Option View} (h : SameText v w) (path : String) :
    v.elim (.error (.notFound path)) View.source = w.elim (.error (.notFound path)) View.source ∧
      (v.elim (.error (.notFound path)) View.source = .error (.notFound path) ∨
        ∃ text, v.elim (.error (.notFound path)) View.source = .ok text) := by
  rcases h with ⟨rfl, rfl⟩ | ⟨x, y, text, rfl, rfl, hx, hy⟩
  · exact ⟨rfl, Or.inl rfl⟩
  · exact ⟨hx.trans hy.symm, Or.inr ⟨text, hx⟩⟩

theorem View.source_of_read {contents : Contents} {text : String} (h : contents.read = .ok text) (a : Address)
    (extension : String) : View.source ⟨a, extension, contents⟩ = .ok text := by
  unfold source
  rw [h]

section Located

variable {t : FileTree} {files : List (Place × String)} (hholds : t.Holds files) {d : Directory}
  (hroot : d.files.ground d.root = .ok t) {dirs : List (List Char)} {name : List Char}
  (hdirs : ∀ d ∈ dirs, isPlainSegment d = true) (hname : isPlainSegment name = true)
  (hunmixed : Unmixed files (within dirs name)) {extensions : List String}
  (hextensions : ∀ x ∈ extensions, x ≠ "" ∧ IsFileExtension x)
  (hlimits : ∀ x ∈ extensions, d.files.stat (d.fileOf (within dirs name) x) ≠ .error .nameTooLong ∧
    d.files.stat (d.fileOf (within dirs name) x) ≠ .error .nulInName)
include hholds hroot hdirs hname hextensions

/-- The path of a view's file leads where the tree has its place. -/
theorem leads_fileOf {extension : String} (hx : extension ∈ extensions) :
    d.files.stat (d.fileOf (within dirs name) extension) = .error .nulInName ∨
      FileSystem.Leads t (dirs.map String.ofList) (String.ofList name ++ "." ++ extension)
        (d.files.stat (d.fileOf (within dirs name) extension)) := by
  refine Directory.leads_file hroot hholds.linkFree hdirs hname fun hmem => ?_
  have hseparator := ((hextensions extension hx).2 '/' hmem).2
  cases hseparator

include hlimits

/-- At the path of a view's file there is the file, no file, or a fault if the path runs through a file. -/
theorem fileOf_cases {extension : String} (hx : extension ∈ extensions) :
    let place := dirs.map String.ofList ++ [String.ofList name ++ "." ++ extension]
    let entry := d.files.stat (d.fileOf (within dirs name) extension)
    (∃ contents, t.get? place = some (.file contents) ∧ entry = .ok (.file contents)) ∨
      (∀ contents, t.get? place ≠ some (.file contents)) ∧
        ((¬ t.Crosses (dirs.map String.ofList) ∧ Directory.PassedOver entry) ∨
          t.Crosses (dirs.map String.ofList) ∧ entry = .error .notDirectory) := by
  intro place entry
  obtain ⟨hshort, hclean⟩ := hlimits extension hx
  have hleads : FileSystem.Leads t (dirs.map String.ofList) (String.ofList name ++ "." ++ extension) entry :=
    (leads_fileOf hholds hroot hdirs hname hextensions hx).resolve_left hclean
  have hfree : ∀ target, t.get? place ≠ some (.link target) := fun target => hholds.linkFree place target
  have hbelow : t.Crosses (dirs.map String.ofList) → t.get? place = none := fun h => h.get?_eq_none (by simp)
  change entry ≠ _ at hshort
  generalize entry = entry at hleads hshort ⊢
  cases hleads with
  | @found sub h =>
    have hclear : ¬ t.Crosses (dirs.map String.ofList) := fun hcrosses => by
      rw [hbelow hcrosses] at h
      cases h
    cases sub with
    | file contents => exact Or.inl ⟨contents, h, rfl⟩
    | dir entries =>
      refine Or.inr ⟨fun contents hfile => ?_, Or.inl ⟨hclear, Or.inr ⟨_, rfl, nofun⟩⟩⟩
      rw [h] at hfile
      cases hfile
    | link target => exact absurd h (hfree target)
  | absent h hclear =>
    refine Or.inr ⟨fun contents hfile => ?_, Or.inl ⟨hclear, Or.inl rfl⟩⟩
    rw [h] at hfile
    cases hfile
  | crossing h =>
    refine Or.inr ⟨fun contents hfile => ?_, Or.inr ⟨h, rfl⟩⟩
    rw [hbelow h] at hfile
    cases hfile
  | tooLong => exact absurd rfl hshort

include hunmixed

/-- Where no file is in place of a directory, the shelf has the view that the directory locates. -/
theorem sameText_of_not_crosses (hcrosses : ¬ t.Crosses (dirs.map String.ofList)) :
    ∃ found, d.locateUnder (within dirs name) extensions = .ok found ∧
      SameText found ((shelfOf files).find? (within dirs name) extensions) := by
  have hsegments := Address.segments_of_plainSegments hdirs
  induction extensions with
  | nil => exact ⟨none, rfl, Or.inl ⟨rfl, rfl⟩⟩
  | cons x others ih =>
    obtain ⟨⟨hne, hextension⟩, hothers⟩ := List.forall_mem_cons.mp hextensions
    have hentry := fileOf_cases hholds hroot hdirs hname hextensions hlimits List.mem_cons_self
    rw [Shelf.find?]
    rcases hentry with ⟨contents, hfile, hstat⟩ | ⟨hnone, ⟨-, hpassed⟩ | ⟨hcross, -⟩⟩
    · obtain ⟨text, htext⟩ := hholds.readable _ contents hfile
      rw [← Address.filePlace_within hsegments] at hfile
      rw [shelved_of_file hholds hsegments (Address.isSegment_of_isPlainSegment hname) hunmixed hne hextension
        hfile htext, Directory.locateUnder_file hstat]
      exact ⟨_, rfl, Or.inr ⟨_, _, text, rfl, rfl, View.source_of_read htext _ x, rfl⟩⟩
    · rw [shelved_eq_none hholds hsegments hunmixed hne hextension hnone, Directory.locateUnder_passedOver hpassed]
      exact ih hothers (List.forall_mem_cons.mp hlimits).2
    · exact absurd hcross hcrosses

/-- Where a file is in place of a directory, there is no view on the shelf, and the directory has a fault. -/
theorem fault_of_crosses (hcrosses : t.Crosses (dirs.map String.ofList)) (hne : extensions ≠ []) :
    d.locateUnder (within dirs name) extensions = .error (.unavailable (within dirs name).path .notDirectory) ∧
      (shelfOf files).find? (within dirs name) extensions = none := by
  have hsegments := Address.segments_of_plainSegments hdirs
  have hentry : ∀ x ∈ extensions,
      d.files.stat (d.fileOf (within dirs name) x) = .error .notDirectory ∧
        Table.find? ⟨within dirs name, x⟩ (shelfOf files).entries = none := by
    intro x hx
    rcases fileOf_cases hholds hroot hdirs hname hextensions hlimits hx with
      ⟨contents, hfile, -⟩ | ⟨hnone, ⟨hclear, -⟩ | ⟨-, hstat⟩⟩
    · rw [hcrosses.get?_eq_none (by simp)] at hfile
      cases hfile
    · exact absurd hcrosses hclear
    · obtain ⟨hx, hextension⟩ := hextensions x hx
      exact ⟨hstat, shelved_eq_none hholds hsegments hunmixed hx hextension hnone⟩
  constructor
  · obtain ⟨x, others, rfl⟩ := List.exists_cons_of_ne_nil hne
    exact Directory.locateUnder_fault nofun (hentry x List.mem_cons_self).1
  · refine Option.eq_none_iff_forall_not_mem.mpr fun v hv => ?_
    obtain ⟨-, hmem, hshelved⟩ := Shelf.find?_some hv
    rw [(hentry v.extension hmem).2] at hshelved
    cases hshelved

end Located

/-- The path leads to an address some of whose directories are a file in the tree, and there is an extension to look
under. -/
def FileTree.Blocks (t : FileTree) (f : Finder) (path : String) : Prop :=
  f.extensions ≠ [] ∧
    ∃ a, f.target? path = some a ∧ t.Crosses ((Address.directories a.location).map String.ofList)

theorem FileTree.blocks_within_iff {t : FileTree} {f : Finder} {path : String} {dirs : List (List Char)}
    {name : List Char} (htarget : f.target? path = some (within dirs name)) (hdirs : ∀ d ∈ dirs, IsSegment d) :
    t.Blocks f path ↔ f.extensions ≠ [] ∧ t.Crosses (dirs.map String.ofList) := by
  unfold Blocks
  rw [htarget]
  simp [Address.directories_within hdirs]

/-- Reading a path gives the same from a directory and from a shelf of its files, its text or that it is not found,
exactly if it does not run through a file.  If it does, it is not found on the shelf, and the directory has the
fault that the file is no directory.

The directory holds a tree of readable files in directories, and its root may be reached through links; what
is looked at hits no limit on the lengths of names; extensions are not empty and have neither dots nor separators; and
no file with a backslash in a name, which the shelf takes for a separator, is put where the path leads. -/
theorem read_agrees_iff {d : Directory} {t : FileTree} {files : List (Place × String)} {extensions : List String}
    {path : String} (hroot : d.files.ground d.root = .ok t) (hholds : t.Holds files)
    (hextensions : ∀ x ∈ extensions, x ≠ "" ∧ IsFileExtension x)
    (hlimits : ∀ a ∈ (d.finder extensions).target? path, ∀ x ∈ extensions,
      d.files.stat (d.fileOf a x) ≠ .error .nameTooLong ∧ d.files.stat (d.fileOf a x) ≠ .error .nulInName)
    (hunmixed : ∀ a ∈ (d.finder extensions).target? path, Unmixed files a) :
    let onDisk := (ending ((d.finder extensions).read path) .empty).1
    let onShelf := (ending (((shelfOf files).finder extensions).read path) .empty).1
    (onDisk = onShelf ↔ ¬ t.Blocks (d.finder extensions) path) ∧
      (onShelf = .error (.notFound path) ∨ ∃ text, onShelf = .ok text) ∧
      (t.Blocks (d.finder extensions) path → onShelf = .error (.notFound path) ∧
        ∃ a, (d.finder extensions).target? path = some a ∧
          onDisk = .error (.unavailable a.path .notDirectory)) := by
  intro onDisk onShelf
  have hdisk := (d.finder extensions).ending_read path .empty
  have hshelf := ((shelfOf files).finder extensions).ending_read path .empty
  have htargets : ((shelfOf files).finder extensions).target? path = (d.finder extensions).target? path := rfl
  unfold Finder.located at hdisk hshelf
  rw [htargets] at hshelf
  cases htarget : (d.finder extensions).target? path with
  | none =>
    rw [htarget] at hdisk hshelf
    have hclear : ¬ t.Blocks (d.finder extensions) path := by
      rintro ⟨-, a, ha, -⟩
      rw [htarget] at ha
      cases ha
    exact ⟨iff_of_true (hdisk.trans hshelf.symm) hclear, Or.inl hshelf, fun h => absurd h hclear⟩
  | some a =>
    obtain ⟨haddress, hplain⟩ := Finder.target?_eq_some_iff.mp htarget
    obtain ⟨dirs, name, rfl, hname, hdirs⟩ : a.Rooted := haddress ▸ Address.rooted_of_isPlain (haddress ▸ hplain)
    have hlocate : d.locate extensions (within dirs name) = d.locateUnder (within dirs name) extensions :=
      if_pos hplain
    have hblocks : t.Blocks (d.finder extensions) path ↔ extensions ≠ [] ∧ t.Crosses (dirs.map String.ofList) :=
      FileTree.blocks_within_iff htarget (Address.segments_of_plainSegments hdirs)
    have hshort := hlimits (within dirs name) htarget
    have hapart := hunmixed (within dirs name) htarget
    rw [htarget] at hdisk hshelf
    change onDisk = (d.locate extensions (within dirs name)).bind fun found =>
      found.elim (.error (.notFound path)) View.source at hdisk
    change onShelf = ((shelfOf files).find? (within dirs name) extensions).elim (.error (.notFound path))
      View.source at hshelf
    rw [hlocate] at hdisk
    by_cases hblocked : t.Blocks (d.finder extensions) path
    · obtain ⟨hne, hcrosses⟩ := hblocks.mp hblocked
      obtain ⟨hfault, hnone⟩ := fault_of_crosses hholds hroot hdirs hname hapart hextensions hshort hcrosses hne
      rw [hfault] at hdisk
      rw [hnone] at hshelf
      refine ⟨iff_of_false ?_ (not_not_intro hblocked), Or.inl hshelf, fun _ => ⟨hshelf, _, rfl, hdisk⟩⟩
      rw [hdisk, hshelf]
      exact nofun
    · have hsame : ∃ found, d.locateUnder (within dirs name) extensions = .ok found ∧
          SameText found ((shelfOf files).find? (within dirs name) extensions) := by
        by_cases hne : extensions = []
        · subst hne
          exact ⟨none, rfl, Or.inl ⟨rfl, rfl⟩⟩
        · exact sameText_of_not_crosses hholds hroot hdirs hname hapart hextensions hshort
            fun hcrosses => hblocked (hblocks.mpr ⟨hne, hcrosses⟩)
      obtain ⟨found, hfound, htexts⟩ := hsame
      obtain ⟨hread, hanswer⟩ := htexts.read path
      rw [hfound] at hdisk
      rw [← hread] at hshelf
      exact ⟨iff_of_true (hdisk.trans hshelf.symm) hblocked, hshelf ▸ hanswer, fun h => absurd h hblocked⟩

/-- A directory with one file. -/
def homeOnly : Directory where
  files := { tree := .dir [("views", .dir [("home.html", .file (.text "x"))])], here := [] }
  root := "views"

theorem FileTree.get?_homeOnly {place : Place} {sub : FileTree}
    (h : (dir [("home.html", .file (.text "x"))]).get? place = some sub) :
    (place = [] ∧ sub = .dir [("home.html", .file (.text "x"))]) ∨
      place = ["home.html"] ∧ sub = .file (.text "x") := by
  cases place with
  | nil =>
    rw [get?_nil] at h
    exact Or.inl ⟨rfl, (Option.some.inj h).symm⟩
  | cons name rest =>
    rw [get?_dir_cons] at h
    by_cases hname : "home.html" = name
    · subst hname
      cases rest with
      | nil => exact Or.inr ⟨rfl, (Option.some.inj h).symm⟩
      | cons _ _ => cases h
    · simp [Table.find?, hname] at h

theorem FileTree.holds_homeOnly :
    Holds (.dir [("home.html", .file (.text "x"))]) [(["home.html"], "x")] where
  linkFree place target h := by
    rcases get?_homeOnly h with ⟨-, h⟩ | ⟨-, h⟩ <;> cases h
  readable place contents h := by
    rcases get?_homeOnly h with ⟨-, h⟩ | ⟨-, h⟩
    · cases h
    · obtain rfl := FileTree.file.inj h
      exact ⟨"x", rfl⟩
  listed place text := by
    rw [List.mem_singleton, Prod.mk.injEq]
    constructor
    · rintro ⟨rfl, rfl⟩
      exact ⟨.text "x", rfl, rfl⟩
    · rintro ⟨contents, h, htext⟩
      rcases get?_homeOnly h with ⟨-, h⟩ | ⟨hplace, h⟩
      · cases h
      · obtain rfl := FileTree.file.inj h
        exact ⟨hplace, (Except.ok.inj htext).symm⟩
  named file hfile name hname := by
    obtain rfl := List.mem_singleton.mp hfile
    obtain rfl := List.mem_singleton.mp hname
    exact .of_isPlainSegment (by decide)

/-- A path through the file is not found on a shelf of the file, and in the directory it is a fault. -/
theorem read_disagrees_homeOnly :
    let t := FileTree.dir [("home.html", .file (.text "x"))]
    let files : List (Place × String) := [(["home.html"], "x")]
    homeOnly.files.ground homeOnly.root = .ok t ∧ t.Holds files ∧
      (ending (((shelfOf files).finder ["html"]).read "home.html/x") .empty).1 = .error (.notFound "home.html/x") ∧
      (ending ((homeOnly.finder ["html"]).read "home.html/x") .empty).1 =
        .error (.unavailable "home.html/x" .notDirectory) := by
  intro t files
  have hroot : homeOnly.files.ground homeOnly.root = .ok t := rfl
  have hextensions : ∀ x ∈ ["html"], x ≠ "" ∧ IsFileExtension x := by
    simp [IsFileExtension, Address.isSeparator]
  have htarget : (homeOnly.finder ["html"]).target? "home.html/x" = some ⟨"home.html", "x"⟩ := by decide +kernel
  have hstat : homeOnly.files.stat (homeOnly.fileOf ⟨"home.html", "x"⟩ "html") = .error .notDirectory := rfl
  have hlimits : ∀ a ∈ (homeOnly.finder ["html"]).target? "home.html/x", ∀ x ∈ ["html"],
      homeOnly.files.stat (homeOnly.fileOf a x) ≠ .error .nameTooLong ∧
        homeOnly.files.stat (homeOnly.fileOf a x) ≠ .error .nulInName := by
    intro a ha x hx
    obtain rfl := Option.some.inj (htarget.symm.trans ha)
    obtain rfl := List.mem_singleton.mp hx
    rw [hstat]
    exact ⟨nofun, nofun⟩
  have hunmixed : ∀ a ∈ (homeOnly.finder ["html"]).target? "home.html/x", Unmixed files a := by
    intro a _ file hfile hbackslash
    obtain rfl := List.mem_singleton.mp hfile
    exact absurd hbackslash (by decide)
  have hcrosses : t.Crosses ((Address.directories "home.html").map String.ofList) :=
    ⟨["home.html"], by decide, .text "x", rfl⟩
  have hblocks : t.Blocks (homeOnly.finder ["html"]) "home.html/x" := ⟨by decide, _, htarget, hcrosses⟩
  obtain ⟨hshelf, a, ha, hdisk⟩ :=
    (read_agrees_iff hroot FileTree.holds_homeOnly hextensions hlimits hunmixed).2.2 hblocks
  obtain rfl := Option.some.inj (htarget.symm.trans ha)
  exact ⟨hroot, FileTree.holds_homeOnly, hshelf, hdisk⟩

end LayeredViews
