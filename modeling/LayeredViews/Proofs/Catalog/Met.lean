import LayeredViews.Proofs.Catalog.Checked
import LayeredViews.Proofs.FileSystem.Walk

/-!
# Met files — what listing a directory comes to

Listing goes through every directory of a tree.  In a tree without links it ends well exactly if the path of each
directory can be walked, and then it has met the file at each place (`visit_ok_iff`, `mem_of_visit`).  A located view
is put together from a name and an extension, and a met file is taken apart at its last dot, so that a view is listed
as it is located unless its extension has a dot (`located_listed_iff`).
-/

namespace LayeredViews

open Address (isPlainSegment within)

/-! ### Trees without links -/

namespace FileTree

/-- Directories and files, with the entries of each directory in order. -/
inductive Regular : FileTree → Prop where
  | file (contents : Contents) : Regular (.file contents)
  | dir {entries : List (String × FileTree)} (hordered : Table.Ordered Text.before entries)
      (hentries : ∀ e ∈ entries, Regular e.2) : Regular (.dir entries)

variable {t : FileTree}

theorem Regular.get? (h : t.Regular) {place : Place} {sub : FileTree} (hsub : t.get? place = some sub) :
    sub.Regular := by
  induction place generalizing t with
  | nil =>
    rw [get?_nil] at hsub
    exact Option.some.inj hsub ▸ h
  | cons name rest ih =>
    cases h with
    | file contents => cases hsub
    | dir hordered hentries =>
      obtain ⟨entry, hentry, hsub⟩ := Option.bind_eq_some_iff.mp ((get?_dir_cons _ _ _).symm.trans hsub)
      exact ih (hentries _ (Table.mem_of_find? hentry)) hsub

theorem Regular.linkFree (h : t.Regular) : t.LinkFree := fun _ _ hlink => nomatch h.get? hlink

end FileTree

namespace Directory

variable {d : Directory} {t : FileTree} {follow : Follow} {names : List String} {place : Place}
  {around : List OpenDirectory}

/-- The paths of the directories in a tree, met under some names, can be walked. -/
def Opens (d : Directory) (names : List String) (t : FileTree) : Prop :=
  ∀ place entries, t.get? place = some (.dir entries) → FileSystem.pathFault? (d.shownPath (names ++ place)) = none

/-! ### Visits -/

theorem Opens.entry {entries : List (String × FileTree)} (h : d.Opens names (.dir entries))
    (hordered : Table.Ordered Text.before entries) {e : String × FileTree} (he : e ∈ entries) :
    d.Opens (names ++ [e.1]) e.2 := by
  intro place entries' hget
  rw [List.append_assoc]
  refine h (e.1 :: place) entries' ?_
  rw [FileTree.get?_dir_cons, (hordered.mem_iff_find? Text.before_order).mp he]
  exact hget

theorem visit_dir_ok {entries : List (String × FileTree)} {met : List Met}
    (h : d.visit follow names place around (.dir entries) = .ok met) :
    FileSystem.pathFault? (d.shownPath names) = none ∧
      d.visitAll follow names place (⟨d.shownPath names, place⟩ :: around) entries = .ok met := by
  rw [visit] at h
  split at h
  · cases h
  · next hclean => exact ⟨hclean, h⟩

/-- The entries of a directory are visited one by one. -/
theorem visit_of_visitAll {entries : List (String × FileTree)} {met : List Met}
    (h : d.visitAll follow names place around entries = .ok met) {e : String × FileTree} (he : e ∈ entries) :
    ∃ own, d.visit follow (names ++ [e.1]) (place ++ [e.1]) around e.2 = .ok own ∧ own ⊆ met := by
  induction entries generalizing met with
  | nil => cases he
  | cons first rest ih =>
    obtain ⟨name, entry⟩ := first
    rw [visitAll] at h
    cases hfirst : d.visit follow (names ++ [name]) (place ++ [name]) around entry with
    | error fault =>
      rw [hfirst] at h
      cases h
    | ok own =>
      rw [hfirst] at h
      cases hrest : d.visitAll follow names place around rest with
      | error fault =>
        rw [hrest] at h
        cases h
      | ok others =>
        rw [hrest] at h
        obtain rfl := Except.ok.inj h
        rcases List.mem_cons.mp he with rfl | he
        · exact ⟨own, hfirst, List.subset_append_left _ _⟩
        · obtain ⟨own', hown, hsub⟩ := ih hrest he
          exact ⟨own', hown, List.subset_append_of_subset_right _ hsub⟩

theorem visitAll_ok {entries : List (String × FileTree)}
    (h : ∀ e ∈ entries, ∃ own, d.visit follow (names ++ [e.1]) (place ++ [e.1]) around e.2 = .ok own) :
    ∃ met, d.visitAll follow names place around entries = .ok met := by
  induction entries with
  | nil => exact ⟨[], by rw [visitAll]⟩
  | cons first rest ih =>
    obtain ⟨⟨own, hfirst⟩, hothers⟩ := List.forall_mem_cons.mp h
    obtain ⟨others, hrest⟩ := ih hothers
    exact ⟨own ++ others, by rw [visitAll, hfirst, hrest]⟩

/-- A visit has visited what is below, too. -/
theorem visit_below {met : List Met} (h : d.visit follow names place around t = .ok met) {more : Place}
    {sub : FileTree} (hsub : t.get? more = some sub) :
    ∃ place' around' own, d.visit follow (names ++ more) place' around' sub = .ok own ∧ own ⊆ met := by
  induction more generalizing t names place around met with
  | nil =>
    rw [FileTree.get?_nil] at hsub
    obtain rfl := Option.some.inj hsub
    exact ⟨place, around, met, by rwa [List.append_nil], List.Subset.refl _⟩
  | cons name rest ih =>
    cases t with
    | file contents => cases hsub
    | link target => cases hsub
    | dir entries =>
      obtain ⟨entry, hentry, hsub⟩ := Option.bind_eq_some_iff.mp ((FileTree.get?_dir_cons _ _ _).symm.trans hsub)
      obtain ⟨own, hown, hmet⟩ := visit_of_visitAll (visit_dir_ok h).2 (Table.mem_of_find? hentry)
      obtain ⟨place', around', own', hown', hmet'⟩ := ih hown hsub
      rw [List.append_assoc] at hown'
      exact ⟨place', around', own', hown', List.Subset.trans hmet' hmet⟩

/-- The file at each place has been met. -/
theorem mem_of_visit {met : List Met} (h : d.visit follow names place around t = .ok met) {more : Place}
    {contents : Contents} (hfile : t.get? more = some (.file contents)) :
    ⟨names ++ more, readBy (d.shownPath (names ++ more)) contents⟩ ∈ met := by
  obtain ⟨place', around', own, hown, hmet⟩ := visit_below h hfile
  rw [visit] at hown
  obtain rfl := Except.ok.inj hown
  exact hmet List.mem_cons_self

/-- A tree without links is visited exactly if the paths of its directories can be walked. -/
theorem visit_ok_iff (ht : t.Regular) :
    (∃ met, d.visit follow names place around t = .ok met) ↔ d.Opens names t := by
  constructor
  · rintro ⟨met, h⟩ more entries hdir
    obtain ⟨place', around', own, hown, -⟩ := visit_below h hdir
    exact (visit_dir_ok hown).1
  · intro hopens
    induction ht generalizing names place around with
    | file contents => exact ⟨_, by rw [visit]⟩
    | @dir entries hordered hentries ih =>
      have hclean : FileSystem.pathFault? (d.shownPath names) = none := by
        have hhere := hopens [] entries (FileTree.get?_nil _)
        rwa [List.append_nil] at hhere
      rw [visit, hclean]
      exact visitAll_ok fun e he => ih e he (hopens.entry hordered he)

/-! ### Views of met files -/

theorem viewOf?_file {dirs : List (List Char)} {name : List Char} {extension : String} {extensions : List String}
    (hname : name ≠ []) (hdot : '.' ∉ extension.toList) (hmem : extension ∈ extensions) (contents : Contents) :
    d.viewOf? extensions ⟨dirs.map String.ofList ++ [String.ofList name ++ "." ++ extension], contents⟩ =
      some ⟨within dirs name, extension, contents⟩ := by
  have hlocation : "/".intercalate (dirs.map String.ofList) = String.ofList (Text.joinWith '/' dirs) := by
    rw [← String.toList_inj, String.toList_intercalate, String.toList_ofList, Text.joinWith_eq_intercalate]
    simp [Function.comp_def]
  have hfile : (String.ofList name ++ "." ++ extension).toList = name ++ '.' :: extension.toList := by simp
  have hparts : stemAndExtension? (String.ofList name ++ "." ++ extension) = some (String.ofList name, extension) := by
    have hcut : Text.cutLast? (· == '.') (name ++ '.' :: extension.toList) = some (name, extension.toList) :=
      Text.cutLast?_append (fun c hc => beq_eq_false_iff_ne.mpr fun heq => hdot (heq ▸ hc)) (beq_self_eq_true _)
    unfold stemAndExtension?
    rw [hfile, hcut]
    cases name with
    | nil => exact absurd rfl hname
    | cons c name => simp
  unfold viewOf? fileName
  dsimp only
  rw [List.getLast?_concat, List.dropLast_concat]
  dsimp only
  rw [hparts, hlocation]
  dsimp only
  rw [if_pos (List.contains_iff_mem.mpr hmem)]
  rfl

/-- What follows the last dot has no dot. -/
theorem dot_notMem_of_viewOf? {extensions : List String} {m : Met} {v : View} (h : d.viewOf? extensions m = some v) :
    '.' ∉ v.extension.toList := by
  unfold viewOf? stemAndExtension? at h
  split at h
  · cases h
  next stem extension hparts =>
  split at hparts
  · cases hparts
  · cases hparts
  next hcut =>
  obtain ⟨-, -, -, hafter⟩ := Text.cutLast?_eq_some hcut
  obtain ⟨rfl, rfl⟩ := Prod.mk.inj (Option.some.inj hparts)
  split at h
  · obtain rfl := Option.some.inj h
    intro hdot
    rw [String.toList_ofList] at hdot
    exact absurd (hafter '.' hdot) (by decide)
  · cases h

/-! ### Listing -/

/-- A view with the location, the name and the extension of this one is listed. -/
def Lists (d : Directory) (extensions : List String) (v : View) : Prop :=
  ∃ views, d.views extensions = .ok views ∧ ∃ w ∈ views, w.toAddress = v.toAddress ∧ w.extension = v.extension

/-- All of the root's tree is met, and nothing if the root has no path. -/
theorem met_of_ground (hroot : d.files.ground d.root = .ok t) :
    (d.root = "" ∧ d.met = .ok []) ∨
      d.root ≠ "" ∧ ∃ place, d.met = d.visit (d.followLinks (FileSystem.linkLimit + 1)) [] place [] t := by
  unfold FileSystem.ground at hroot
  by_cases hempty : d.root = ""
  · refine Or.inl ⟨hempty, ?_⟩
    have hnowhere : d.files.resolve "" = .error .notFound := rfl
    unfold met
    rw [hempty, hnowhere]
  · rw [if_neg hempty] at hroot
    refine Or.inr ⟨hempty, ?_⟩
    unfold FileSystem.stat at hroot
    unfold met
    cases hresolve : d.files.resolve d.root with
    | error fault =>
      rw [hresolve] at hroot
      cases hroot
    | ok place =>
      rw [hresolve] at hroot
      dsimp only at hroot ⊢
      cases hget : d.files.tree.get? place with
      | none =>
        rw [hget] at hroot
        cases hroot
      | some sub =>
        rw [hget] at hroot
        obtain rfl := Except.ok.inj hroot
        exact ⟨place, rfl⟩

theorem opens_of_lists (hroot : d.files.ground d.root = .ok t) (ht : t.Regular) {extensions : List String} {v : View}
    (h : d.Lists extensions v) : '.' ∉ v.extension.toList ∧ d.root ≠ "" ∧ d.Opens [] t := by
  obtain ⟨views, hviews, w, hw, -, hextension⟩ := h
  unfold Directory.views at hviews
  rcases d.met_of_ground hroot with ⟨-, hmet⟩ | ⟨hne, place, hmet⟩ <;> rw [hmet] at hviews
  · obtain rfl := Except.ok.inj hviews
    cases hw
  · cases hvisit : d.visit (d.followLinks (FileSystem.linkLimit + 1)) [] place [] t with
    | error fault =>
      rw [hvisit] at hviews
      cases hviews
    | ok met =>
      rw [hvisit] at hviews
      obtain rfl := Except.ok.inj hviews
      obtain ⟨m, -, hview⟩ := List.mem_filterMap.mp hw
      exact ⟨hextension ▸ dot_notMem_of_viewOf? hview, hne, (visit_ok_iff ht).mp ⟨met, hvisit⟩⟩

/-- A file in the root's tree whose path can be walked is listed as the view of its name and its extension. -/
theorem mem_views_of_file (hroot : d.files.ground d.root = .ok t) (ht : t.Regular) (hne : d.root ≠ "")
    (hopens : d.Opens [] t) {dirs : List (List Char)} {name : List Char} {extension : String}
    {extensions : List String} (hname : name ≠ []) (hdot : '.' ∉ extension.toList) (hmem : extension ∈ extensions)
    {contents : Contents} :
    let place := dirs.map String.ofList ++ [String.ofList name ++ "." ++ extension]
    t.get? place = some (.file contents) → FileSystem.pathFault? (d.shownPath place) = none →
      ∃ views, d.views extensions = .ok views ∧ ⟨within dirs name, extension, contents⟩ ∈ views := by
  intro place hfile hclean
  obtain ⟨-, start, hmet⟩ := (d.met_of_ground hroot).resolve_left fun h => hne h.1
  obtain ⟨met, hvisit⟩ := (visit_ok_iff ht).mpr hopens
  rw [hvisit] at hmet
  unfold Directory.views
  rw [hmet]
  refine ⟨_, rfl, List.mem_filterMap.mpr ⟨⟨place, contents⟩, ?_, viewOf?_file hname hdot hmem contents⟩⟩
  have hfound := mem_of_visit hvisit hfile
  unfold readBy at hfound
  rw [List.nil_append, hclean] at hfound
  exact hfound

theorem shownPath_filePlace (d : Directory) {dirs : List (List Char)} (hdirs : ∀ dir ∈ dirs, Address.IsSegment dir)
    (name : List Char) (extension : String) :
    d.shownPath (dirs.map String.ofList ++ [String.ofList name ++ "." ++ extension]) =
      d.fileOf (within dirs name) extension := by
  unfold shownPath fileOf
  rw [Address.directories_within hdirs, List.foldl_concat]
  rfl

/-- A view that is located is listed too, with its location, name and extension, exactly if its extension has no dot,
the root has a path, and the path of each directory below can be walked.  A check that comes to its end has then
compiled it.

The root holds a tree of files in directories, and may itself be reached through links; extensions have no slash. -/
theorem located_listed_iff (hroot : d.files.ground d.root = .ok t) (ht : t.Regular) {dirs : List (List Char)}
    {name : List Char} (hdirs : ∀ dir ∈ dirs, isPlainSegment dir = true) {extensions : List String}
    (hextensions : ∀ x ∈ extensions, '/' ∉ x.toList) {v : View}
    (h : d.locate extensions (within dirs name) = .ok (some v)) :
    (d.Lists extensions v ↔ '.' ∉ v.extension.toList ∧ d.root ≠ "" ∧ d.Opens [] t) ∧
      (d.Lists extensions v → ∀ e : Engine, e.catalog = d.toCatalog → e.settings.extensions = extensions →
        ∀ failures, e.checkAll.1 = .ok failures → v.Compiles ∨ ∃ f ∈ failures, v.compiled = .error (.failure f)) := by
  have hsegments := Address.segments_of_plainSegments hdirs
  unfold locate at h
  split at h
  case isFalse => cases h
  next hplain =>
  obtain ⟨haddress, hstat, before, after, hsplit, -⟩ := locateUnder_eq_some_iff.mp h
  have hmem : v.extension ∈ extensions := hsplit ▸ by simp
  have hname : isPlainSegment name = true := by
    rw [Address.isPlain_within hsegments, Bool.and_eq_true] at hplain
    exact hplain.1
  have hfile : t.get? (dirs.map String.ofList ++ [String.ofList name ++ "." ++ v.extension]) =
      some (.file v.contents) := by
    have hleads := d.leads_file hroot ht.linkFree hdirs hname (hextensions v.extension hmem)
    rw [hstat] at hleads
    rcases hleads with hfault | hfound
    · cases hfault
    · cases hfound
      assumption
  have hclean := FileSystem.pathFault?_of_stat hstat
  have hlisted : '.' ∉ v.extension.toList → d.root ≠ "" → d.Opens [] t →
      ∃ views, d.views extensions = .ok views ∧ v ∈ views := by
    intro hdot hne hopens
    have hview := mem_views_of_file hroot ht hne hopens (Address.isSegment_of_isPlainSegment hname).1 hdot hmem hfile
      (d.shownPath_filePlace hsegments name v.extension ▸ hclean)
    rwa [← haddress] at hview
  refine ⟨⟨opens_of_lists hroot ht, ?_⟩, fun hlists e hcatalog hsettings failures hchecked => ?_⟩
  · rintro ⟨hdot, hne, hopens⟩
    obtain ⟨views, hviews, hv⟩ := hlisted hdot hne hopens
    exact ⟨views, hviews, v, hv, rfl, rfl⟩
  · obtain ⟨hdot, hne, hopens⟩ := opens_of_lists hroot ht hlists
    obtain ⟨views, hviews, hv⟩ := hlisted hdot hne hopens
    have hlist : e.finder.listAll = .ok views := by
      show e.catalog.list e.settings.extensions = _
      rw [hcatalog, hsettings]
      exact hviews
    exact e.checked_of_checkAll hlist hchecked v hv

/-- A directory with one file, whose name has two dots. -/
def twoDots : Directory where
  files := { tree := .dir [("views", .dir [("home.tpl.html", .file (.text "x"))])], here := [] }
  root := "views"

/-- The file is located by an extension that has a dot, and then it is not listed. -/
theorem not_listed_twoDots :
    let v : View := ⟨⟨"", "home"⟩, "tpl.html", .text "x"⟩
    twoDots.locate ["tpl.html"] ⟨"", "home"⟩ = .ok (some v) ∧ ¬ twoDots.Lists ["tpl.html"] v := by
  intro v
  have hroot : twoDots.files.ground twoDots.root = .ok (.dir [("home.tpl.html", .file (.text "x"))]) := rfl
  have htree : FileTree.Regular (.dir [("home.tpl.html", .file (.text "x"))]) :=
    .dir (List.pairwise_singleton _ _) (List.forall_mem_singleton.mpr (.file _))
  have hlocated : twoDots.locate ["tpl.html"] (within [] "home".toList) = .ok (some v) := rfl
  have hlists := (located_listed_iff hroot htree (by simp) (by simp) hlocated).1
  exact ⟨hlocated, fun h => (hlists.mp h).1 (by decide)⟩

end Directory

end LayeredViews
