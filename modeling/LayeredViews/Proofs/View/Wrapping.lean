import LayeredViews.Proofs.Catalog.Shelved
import LayeredViews.Settings
import Mathlib.Data.List.Nodup

/-!
# Wrapping — which layouts wrap a view

For views in memory and a layout name that is a segment of its own, `resolve_on_shelf` gives the layouts of a view
exactly: those found under the name in each directory from the root down to the view's own, but for the view
itself.  A layout name with an extension to take off, or with a backslash in it, is valid too; for these the view
may be found again where its layouts are looked for, and `exists_wrapsItself_iff` says for which settings it is.
-/

namespace LayeredViews

open Address (IsSegment within leading isPlainSegment)
open Text (words)

namespace Layering

/-! ### Where layouts are looked for -/

/-- Where the layouts of a view stand: under their name in each directory from the root down to its own. -/
def places (dirs : List (List Char)) (layoutName : String) : List Address :=
  (List.range (dirs.length + 1)).map fun depth => within (dirs.take depth) layoutName.toList

variable {dirs : List (List Char)} {name : List Char} {layoutName : String}

theorem candidates_within (hdirs : ∀ d ∈ dirs, IsSegment d) (hname : IsSegment name) (layoutName : String) :
    candidates layoutName (within dirs name).path = (places dirs layoutName).map Address.path := by
  unfold candidates locationsAbove places
  dsimp only
  rw [Address.ofPath_path_within hdirs hname, Address.directories_within hdirs, List.map_map, List.map_map]
  simp [within, Function.comp_def]

theorem mem_places {a : Address} (h : a ∈ places dirs layoutName) :
    ∃ depth ≤ dirs.length, a = within (dirs.take depth) layoutName.toList := by
  obtain ⟨depth, hdepth, rfl⟩ := List.mem_map.mp h
  exact ⟨depth, Nat.lt_succ_iff.mp (List.mem_range.mp hdepth), rfl⟩

theorem places_nodup (hdirs : ∀ d ∈ dirs, IsSegment d) (layoutName : String) :
    (places dirs layoutName).Nodup := by
  have htake : ∀ depth, ∀ d ∈ dirs.take depth, IsSegment d := fun depth d hd => hdirs d (List.mem_of_mem_take hd)
  refine List.Nodup.map_on (fun depth hdepth depth' hdepth' heq => ?_) List.nodup_range
  have hlength := congrArg List.length (Address.within_injective (htake depth) (htake depth') heq).1
  rw [List.length_take, List.length_take] at hlength
  rw [List.mem_range] at hdepth hdepth'
  omega

end Layering

/-! ### Located views -/

namespace Shelf

variable {shelf : Shelf} {extensions : List String} {path : String} {leaf : View}

/-- A view that stands on a shelf at a plain address, where a path leads to it. -/
structure Placed (shelf : Shelf) (extensions : List String) (path : String) (v : View) : Prop where
  target : (shelf.finder extensions).target? path = some v.toAddress
  found : shelf.find? v.toAddress extensions = some v
  address : v.toAddress = within (Address.directories v.location) v.name.toList
  dirs : ∀ d ∈ Address.directories v.location, isPlainSegment d = true
  name : isPlainSegment v.name.toList = true

theorem placed_of_at? (h : shelf.at? extensions path = some leaf) : shelf.Placed extensions path leaf := by
  obtain ⟨a, htarget, hfound⟩ := Option.bind_eq_some_iff.mp h
  obtain rfl := (find?_some hfound).1
  obtain ⟨haddress, hplain⟩ := Finder.target?_eq_some_iff.mp htarget
  have hplain' := hplain
  rw [← haddress] at hplain'
  obtain ⟨dirs, name, -, hwithin, hdirs, -⟩ := Address.exists_within_of_isPlain hplain'
  rw [haddress] at hwithin
  have hlocation : Address.directories leaf.location = dirs := by
    rw [show leaf.location = (within dirs name).location from congrArg Address.location hwithin]
    exact Address.directories_within hdirs name
  have hname : leaf.name.toList = name := by
    rw [show leaf.name = (within dirs name).name from congrArg Address.name hwithin]
    exact String.toList_ofList
  rw [hwithin, Address.isPlain_within hdirs, Bool.and_eq_true, List.all_eq_true] at hplain
  refine ⟨htarget, hfound, ?_, ?_, ?_⟩
  · rw [hlocation, hname]
    exact hwithin
  · rw [hlocation]
    exact hplain.2
  · rw [hname]
    exact hplain.1

namespace Placed

variable (h : shelf.Placed extensions path leaf)
include h

theorem segments : ∀ d ∈ Address.directories leaf.location, IsSegment d :=
  Address.segments_of_plainSegments h.dirs

theorem isSegment_name : IsSegment leaf.name.toList :=
  Address.isSegment_of_isPlainSegment h.name

theorem path_eq : leaf.path = (within (Address.directories leaf.location) leaf.name.toList).path :=
  congrArg Address.path h.address

theorem segments_take (depth : Nat) :
    ∀ d ∈ (Address.directories leaf.location).take depth, IsSegment d :=
  fun d hd => h.segments d (List.mem_of_mem_take hd)

theorem candidates_eq (layoutName : String) :
    Layering.candidates layoutName leaf.path =
      (Layering.places (Address.directories leaf.location) layoutName).map Address.path := by
  rw [h.path_eq]
  exact Layering.candidates_within h.segments h.isSegment_name layoutName

end Placed

theorem map_toAddress_filterMap (shelf : Shelf) (extensions : List String) (as : List Address) :
    (as.filterMap fun a => shelf.find? a extensions).map View.toAddress =
      as.filter fun a => (shelf.find? a extensions).isSome := by
  induction as with
  | nil => rfl
  | cons a as ih =>
    cases hfound : shelf.find? a extensions with
    | none => simp [hfound, ih]
    | some v => simp [hfound, ih, (find?_some hfound).1]

end Shelf

/-! ### Layouts under a plain name -/

namespace Layering

variable {shelf : Shelf} {extensions : List String} {layoutName path : String} {leaf : View}

/-- A place of layouts has the path of the leaf only if the leaf stands there. -/
theorem path_place_eq_iff (hplain : isPlainSegment layoutName.toList = true)
    (hleaf : shelf.Placed extensions path leaf) {a : Address}
    (ha : a ∈ places (Address.directories leaf.location) layoutName) :
    a.path = leaf.path ↔ shelf.find? a extensions = some leaf := by
  constructor
  · intro hsame
    obtain ⟨depth, -, rfl⟩ := mem_places ha
    have hspelled := congrArg Address.ofPath (hsame.trans hleaf.path_eq)
    rw [Address.ofPath_path_within (hleaf.segments_take depth) (Address.isSegment_of_isPlainSegment hplain),
      Address.ofPath_path_within hleaf.segments hleaf.isSegment_name, ← hleaf.address] at hspelled
    rw [hspelled]
    exact hleaf.found
  · intro hsame
    rw [← (Shelf.find?_some hsame).1]
    rfl

/-- The layouts of a leaf are looked for at its places, but for the one where the leaf itself is found. -/
theorem probes_eq (hplain : isPlainSegment layoutName.toList = true) (hleaf : shelf.Placed extensions path leaf) :
    probes layoutName leaf.path =
      ((places (Address.directories leaf.location) layoutName).filter fun a =>
        shelf.find? a extensions ≠ some leaf).map Address.path := by
  unfold probes
  rw [hleaf.candidates_eq layoutName, List.filter_map]
  refine congrArg (List.map Address.path) (List.filter_congr fun a ha => ?_)
  exact decide_eq_decide.mpr (not_congr (path_place_eq_iff hplain hleaf ha))

/-- A view at a place of the layouts of a leaf stands in a directory above the leaf, or in its own. -/
theorem directories_prefix (hleaf : shelf.Placed extensions path leaf) {a : Address}
    (ha : a ∈ places (Address.directories leaf.location) layoutName) {v : View}
    (hview : shelf.find? a extensions = some v) :
    Address.directories v.location <+: Address.directories leaf.location := by
  obtain ⟨depth, -, heq⟩ := mem_places ha
  obtain rfl := (Shelf.find?_some hview).1
  have hlocation : v.location = _ := congrArg Address.location heq
  rw [hlocation, Address.directories_within (hleaf.segments_take depth)]
  exact List.take_prefix depth _

section PlainName

variable (hextensions : ∀ e ∈ extensions, ∀ c ∈ e.toList, Address.isSeparator c = false)
  (hplain : isPlainSegment layoutName.toList = true)
  (hname : (shelf.finder extensions).normalize layoutName = layoutName)
include hextensions hplain hname

/-- The path of a place of layouts leads to that place. -/
theorem target?_path_place (hleaf : shelf.Placed extensions path leaf) {a : Address}
    (ha : a ∈ places (Address.directories leaf.location) layoutName) :
    (shelf.finder extensions).target? a.path = some a := by
  obtain ⟨depth, -, rfl⟩ := mem_places ha
  have hdirs := hleaf.segments_take depth
  have hbare : Finder.stripAny layoutName.toList extensions = layoutName.toList := by
    have htext := congrArg String.toList hname
    rwa [Finder.normalize, String.toList_ofList] at htext
  refine Finder.target?_eq_some_iff.mpr ⟨?_, ?_⟩
  · unfold Finder.normalize Shelf.finder
    rw [Address.toList_path_within hdirs, Finder.stripAny_leading hextensions, hbare,
      ← Address.toList_path_within hdirs, String.ofList_toList]
    exact Address.ofPath_path_within hdirs (Address.isSegment_of_isPlainSegment hplain)
  · rw [Address.isPlain_within hdirs, hplain, Bool.true_and, List.all_eq_true]
    exact fun d hd => hleaf.dirs d (List.mem_of_mem_take hd)

/-- The lookups for the layouts of a leaf are made at its places. -/
theorem filterMap_target?_probes (hleaf : shelf.Placed extensions path leaf) :
    (probes layoutName leaf.path).filterMap (shelf.finder extensions).target? =
      (places (Address.directories leaf.location) layoutName).filter fun a =>
        shelf.find? a extensions ≠ some leaf := by
  have hagree : ∀ a ∈ (places (Address.directories leaf.location) layoutName).filter fun a =>
      shelf.find? a extensions ≠ some leaf, ((shelf.finder extensions).target? ∘ Address.path) a = some a := by
    intro a ha
    rw [Function.comp_apply]
    exact target?_path_place hextensions hplain hname hleaf (List.mem_of_mem_filter ha)
  rw [probes_eq hplain hleaf, List.filterMap_map, List.filterMap_congr hagree, List.filterMap_some]

/-- The layouts of a leaf are the views at those of its places where there is one. -/
theorem filterMap_at?_probes (hleaf : shelf.Placed extensions path leaf) :
    (probes layoutName leaf.path).filterMap (shelf.at? extensions) =
      ((places (Address.directories leaf.location) layoutName).filter fun a =>
        shelf.find? a extensions ≠ some leaf).filterMap fun a => shelf.find? a extensions := by
  have hagree : ∀ a ∈ (places (Address.directories leaf.location) layoutName).filter fun a =>
      shelf.find? a extensions ≠ some leaf,
      (shelf.at? extensions ∘ Address.path) a = shelf.find? a extensions := by
    intro a ha
    have htarget := target?_path_place hextensions hplain hname hleaf (List.mem_of_mem_filter ha)
    rw [Function.comp_apply, Shelf.at?, htarget, Option.bind_some]
  rw [probes_eq hplain hleaf, List.filterMap_map, List.filterMap_congr hagree]

/-- What is looked up for a view on a shelf, and which layouts it has: those that stand under the layout name in
each directory from the root down to the view's own, but for the view itself. -/
theorem resolve_on_shelf (path : String) :
    let f := shelf.finder extensions
    ((∃ missing, (ending (resolve f layoutName path) .empty).1 = .error (.notFound missing)) ↔
      (ending (f.locate path) .empty).1 = .ok none) ∧
    ∀ leaf, (ending (f.locate path) .empty).1 = .ok (some leaf) →
      let tried := (places (Address.directories leaf.location) layoutName).filter fun a =>
        shelf.find? a extensions ≠ some leaf
      let layouts := tried.filterMap fun a => shelf.find? a extensions
      (∃ told, ending (resolve f layoutName path) .empty = (.ok ⟨layouts, leaf⟩, told) ∧
        told.toList = leaf.toAddress :: tried) ∧
      (layouts.map View.toAddress).Nodup ∧ leaf ∉ layouts ∧
      ∀ v ∈ layouts, Address.directories v.location <+: Address.directories leaf.location := by
  intro f
  obtain ⟨hmissing, hfound⟩ := shelf.ending_resolve extensions layoutName path .empty
  have hlocate : (ending (f.locate path) .empty).1 = .ok (shelf.at? extensions path) := by
    obtain ⟨told, hend, -⟩ := shelf.ending_locate extensions path .empty
    exact congrArg Prod.fst hend
  rw [hlocate]
  refine ⟨?_, fun leaf hleaf => ?_⟩
  · cases hat : shelf.at? extensions path with
    | none => exact ⟨fun _ => rfl, fun _ => ⟨path, hmissing hat⟩⟩
    | some leaf =>
      obtain ⟨told, hend, -⟩ := hfound leaf hat
      rw [hend]
      exact ⟨nofun, nofun⟩
  intro tried layouts
  obtain ⟨told, hend, htold⟩ := hfound leaf (Except.ok.inj hleaf)
  have hplaced : shelf.Placed extensions path leaf := Shelf.placed_of_at? (Except.ok.inj hleaf)
  rw [filterMap_at?_probes hextensions hplain hname hplaced] at hend
  rw [filterMap_target?_probes hextensions hplain hname hplaced, hplaced.target] at htold
  refine ⟨⟨told, hend, htold⟩, ?_, fun hmem => ?_, fun v hv => ?_⟩
  · rw [Shelf.map_toAddress_filterMap]
    exact ((places_nodup hplaced.segments layoutName).filter _).filter _
  · obtain ⟨a, ha, hsame⟩ := List.mem_filterMap.mp hmem
    exact of_decide_eq_true (List.mem_filter.mp ha).2 hsame
  · obtain ⟨a, ha, hview⟩ := List.mem_filterMap.mp hv
    exact directories_prefix hplaced (List.mem_of_mem_filter ha) hview

end PlainName

/-- Files with a layout at the root and one in a directory. -/
def nestedLayouts : Shelf :=
  .ofFiles [("_ViewStart.html", .text "root"), ("a\\_ViewStart.html", .text "a"), ("a/c.html", .text "c")]

theorem resolve_on_shelf_nested :
    let f := nestedLayouts.finder ["txt", "html"]
    ∃ told, ending (resolve f "_ViewStart" "/a\\_ViewStart.html") .empty =
        (.ok ⟨[⟨⟨"", "_ViewStart"⟩, "html", .text "root"⟩], ⟨⟨"a", "_ViewStart"⟩, "html", .text "a"⟩⟩, told) ∧
      told.toList = [⟨"a", "_ViewStart"⟩, ⟨"", "_ViewStart"⟩] := by
  intro f
  have hextensions : ∀ e ∈ ["txt", "html"], ∀ c ∈ e.toList, Address.isSeparator c = false := by
    simp [Address.isSeparator]
  have hname : f.normalize "_ViewStart" = "_ViewStart" := by decide +kernel
  have hleaf : (ending (f.locate "/a\\_ViewStart.html") .empty).1 =
      .ok (some ⟨⟨"a", "_ViewStart"⟩, "html", .text "a"⟩) := by decide +kernel
  have htried : (places (Address.directories "a") "_ViewStart").filter (fun a =>
      nestedLayouts.find? a ["txt", "html"] ≠ some ⟨⟨"a", "_ViewStart"⟩, "html", .text "a"⟩) =
        [⟨"", "_ViewStart"⟩] := by decide +kernel
  have hlayouts : [(⟨"", "_ViewStart"⟩ : Address)].filterMap (fun a => nestedLayouts.find? a ["txt", "html"]) =
      [⟨⟨"", "_ViewStart"⟩, "html", .text "root"⟩] := by decide +kernel
  obtain ⟨htold, -⟩ := (resolve_on_shelf hextensions (by decide) hname "/a\\_ViewStart.html").2 _ hleaf
  rw [htried, hlayouts] at htold
  exact htold

end Layering

/-! ### Views that wrap themselves -/

/-- The view is found again among its own layouts. -/
def Layering.WrapsItself (l : Layering) : Prop :=
  ∃ v ∈ l.layouts, v.toAddress = l.leaf.toAddress ∧ v.extension = l.leaf.extension

/-- A view that stands on a shelf wraps itself exactly if a path at which its layouts are looked for leads to its
address. -/
theorem Layering.wrapsItself_iff {shelf : Shelf} {extensions : List String} {layoutName path : String} {leaf : View}
    (hleaf : shelf.Placed extensions path leaf) :
    WrapsItself ⟨(probes layoutName leaf.path).filterMap (shelf.at? extensions), leaf⟩ ↔
      ∃ probe ∈ probes layoutName leaf.path, (shelf.finder extensions).target? probe = some leaf.toAddress := by
  unfold WrapsItself
  dsimp only
  constructor
  · rintro ⟨v, hv, hagain, -⟩
    obtain ⟨probe, hprobe, hview⟩ := List.mem_filterMap.mp hv
    exact ⟨probe, hprobe, hagain ▸ (Shelf.placed_of_at? hview).target⟩
  · rintro ⟨probe, hprobe, htarget⟩
    have hat : shelf.at? extensions probe = some leaf := Option.bind_eq_some_iff.mpr ⟨_, htarget, hleaf.found⟩
    exact ⟨leaf, List.mem_filterMap.mpr ⟨probe, hprobe, hat⟩, rfl, rfl⟩

namespace Settings

/-- The layout name without an extension of views, if it ends in one. -/
def bareLayoutName (s : Settings) : List Char :=
  Finder.stripAny s.layoutName.toList s.extensions

theorem slash_notMem_of_validate {s : Settings} (h : s.validate = .ok ()) : '/' ∉ s.layoutName.toList := by
  intro hslash
  unfold validate at h
  split at h
  · cases h
  · rw [List.contains_iff_mem.mpr hslash, Bool.or_true] at h
    cases h

variable {s : Settings} {shelf : Shelf} {path : String} {leaf : View}

/-- If a view is found again where a layout of it is looked for, then it is the layout name that spells the rest of
its path. -/
theorem words_bareLayoutName (hleaf : shelf.Placed s.extensions path leaf) {depth : Nat}
    (hagain : (shelf.finder s.extensions).target?
      (within ((Address.directories leaf.location).take depth) s.layoutName.toList).path = some leaf.toAddress) :
    words Address.isSeparator s.bareLayoutName =
      (Address.directories leaf.location).drop depth ++ [leaf.name.toList] := by
  obtain ⟨haddress, hplain⟩ := Finder.target?_eq_some_iff.mp hagain
  rw [← haddress] at hplain
  obtain ⟨dirs, name, hsegments, hwithin, hdirs, -⟩ := Address.exists_within_of_isPlain hplain
  rw [haddress, hleaf.address] at hwithin
  obtain ⟨rfl, rfl⟩ := Address.within_injective hleaf.segments hdirs hwithin
  -- the segments are too long to come from the directories alone
  have hnormalize : ((shelf.finder s.extensions).normalize
      (within ((Address.directories leaf.location).take depth) s.layoutName.toList).path).toList =
        Finder.stripAny (leading ((Address.directories leaf.location).take depth) ++ s.layoutName.toList)
          s.extensions := by
    rw [Finder.normalize, String.toList_ofList, Address.toList_path_within (hleaf.segments_take depth)]
    rfl
  rw [Address.segmentsOf, hnormalize] at hsegments
  have hsplit := List.take_append_drop depth (Address.directories leaf.location)
  have hlong : ((Address.directories leaf.location).take depth).flatten.length <
      (Address.directories leaf.location ++ [leaf.name.toList]).flatten.length := by
    have hall := congrArg (fun dirs => dirs.flatten.length) hsplit
    have hname : 0 < leaf.name.toList.length := List.length_pos_of_ne_nil hleaf.isSegment_name.1
    simp only [List.flatten_append, List.length_append, List.flatten_singleton] at hall ⊢
    omega
  rw [← hsegments] at hlong
  rw [Finder.stripAny_leading_of_lt (hleaf.segments_take depth) hlong,
    Address.words_leading_append (hleaf.segments_take depth)] at hsegments
  have hparts := hsegments.trans (congrArg (· ++ [leaf.name.toList]) hsplit.symm)
  rw [List.append_assoc] at hparts
  exact List.append_cancel_left hparts

/-- A view found again where a layout of it is looked for, at another path than its own. -/
theorem bareLayoutName_of_probe (hvalid : s.validate = .ok ()) (hleaf : shelf.Placed s.extensions path leaf)
    {probe : String} (hprobe : probe ∈ Layering.probes s.layoutName leaf.path)
    (hagain : (shelf.finder s.extensions).target? probe = some leaf.toAddress) :
    (Address.ofPath (String.ofList s.bareLayoutName)).isPlain = true ∧
      (s.bareLayoutName ≠ s.layoutName.toList ∨ '\\' ∈ s.layoutName.toList) := by
  obtain ⟨hcandidate, hother⟩ := List.mem_filter.mp hprobe
  rw [hleaf.candidates_eq] at hcandidate
  obtain ⟨a, ha, rfl⟩ := List.mem_map.mp hcandidate
  obtain ⟨depth, -, rfl⟩ := Layering.mem_places ha
  have hwords := words_bareLayoutName hleaf hagain
  have hdrop : ∀ d ∈ (Address.directories leaf.location).drop depth, isPlainSegment d = true := fun d hd =>
    hleaf.dirs d (List.mem_of_mem_drop hd)
  constructor
  · rw [Address.ofPath, Address.segmentsOf, String.toList_ofList, hwords, Address.ofSegments_concat,
      Address.isPlain_within fun d hd => hleaf.segments d (List.mem_of_mem_drop hd), hleaf.name, Bool.true_and,
      List.all_eq_true]
    exact hdrop
  · by_contra hplain
    obtain ⟨hsame, hback⟩ := not_or.mp hplain
    rw [not_not] at hsame
    -- then the layout name is a segment, and the probe is the leaf's own path
    have hseparators : ∀ c ∈ s.layoutName.toList, Address.isSeparator c = false := by
      intro c hc
      have hslash : c ≠ '/' := fun h => slash_notMem_of_validate hvalid (h ▸ hc)
      have hbackslash : c ≠ '\\' := fun h => hback (h ▸ hc)
      simp [Address.isSeparator, hslash, hbackslash]
    have hne : s.layoutName.toList ≠ [] := by
      intro hnil
      rw [hsame, hnil, Text.words_nil] at hwords
      simp at hwords
    rw [hsame, Text.words_eq_singleton hne hseparators] at hwords
    obtain ⟨hnil, hname⟩ := List.append_inj' ((List.nil_append _).trans hwords) rfl
    rw [List.cons.injEq] at hname
    refine of_decide_eq_true hother ?_
    rw [hleaf.path_eq, ← hname.1, List.take_of_length_le (List.drop_eq_nil_iff.mp hnil.symm)]

/-- A view wraps itself only if the layout name may lead to it at a path that is not its own. -/
theorem bareLayoutName_of_wrapsItself (hvalid : s.validate = .ok ()) {l : Layering}
    (hresolve : (ending (Layering.resolve (shelf.finder s.extensions) s.layoutName path) .empty).1 = .ok l)
    (hwraps : l.WrapsItself) :
    (Address.ofPath (String.ofList s.bareLayoutName)).isPlain = true ∧
      (s.bareLayoutName ≠ s.layoutName.toList ∨ '\\' ∈ s.layoutName.toList) ∧
        shelf.find? l.leaf.toAddress s.extensions = some l.leaf := by
  obtain ⟨hmissing, hfound⟩ := shelf.ending_resolve s.extensions s.layoutName path .empty
  cases hat : shelf.at? s.extensions path with
  | none =>
    rw [hmissing hat] at hresolve
    cases hresolve
  | some leaf =>
    obtain ⟨told, hend, -⟩ := hfound leaf hat
    rw [hend] at hresolve
    obtain rfl := Except.ok.inj hresolve
    have hleaf := Shelf.placed_of_at? hat
    obtain ⟨probe, hprobe, htarget⟩ := (Layering.wrapsItself_iff hleaf).mp hwraps
    obtain ⟨hplain, hodd⟩ := bareLayoutName_of_probe hvalid hleaf hprobe htarget
    exact ⟨hplain, hodd, hleaf.found⟩

/-- A layout name that ends in an extension of views, or has a backslash in it, is not the path of the view that it
leads to. -/
theorem path_ne_layoutName (hvalid : s.validate = .ok ())
    (hplain : (Address.ofPath (String.ofList s.bareLayoutName)).isPlain = true)
    (hodd : s.bareLayoutName ≠ s.layoutName.toList ∨ '\\' ∈ s.layoutName.toList) :
    (Address.ofPath (String.ofList s.bareLayoutName)).path ≠ s.layoutName := by
  intro hpath
  obtain ⟨dirs, name, hsegments, hwithin, hdirs, hname⟩ := Address.exists_within_of_isPlain hplain
  rw [hwithin] at hpath
  have htext := congrArg String.toList hpath
  rw [Address.toList_path_within hdirs] at htext
  -- without a slash in front the layout name is the whole address
  have hnil : dirs = [] := by
    by_contra hne
    refine slash_notMem_of_validate hvalid ?_
    rw [← htext, leading, if_neg hne]
    simp
  rw [hnil, leading, if_pos rfl, List.nil_append] at htext
  rw [hnil, List.nil_append, Address.segmentsOf, String.toList_ofList, htext] at hsegments
  rw [htext] at hname
  rcases hodd with hshort | hback
  · have hfront : s.bareLayoutName <+: s.layoutName.toList := Finder.stripAny_prefix _ _
    have hletters := Text.flatten_words Address.isSeparator s.bareLayoutName
    rw [hsegments, List.flatten_singleton] at hletters
    have hlength := List.length_filter_le (fun c => !Address.isSeparator c) s.bareLayoutName
    rw [← hletters] at hlength
    exact hshort (hfront.eq_of_length_le hlength)
  · cases hname.2 '\\' hback

/-- The one view on a shelf, at the address that the layout name leads to, wraps itself when it is asked for under
that name. -/
theorem wrapsItself_alone (hvalid : s.validate = .ok ())
    (hplain : (Address.ofPath (String.ofList s.bareLayoutName)).isPlain = true)
    (hodd : s.bareLayoutName ≠ s.layoutName.toList ∨ '\\' ∈ s.layoutName.toList)
    {leaf : View} (haddress : leaf.toAddress = Address.ofPath (String.ofList s.bareLayoutName))
    (hfound : shelf.find? leaf.toAddress s.extensions = some leaf) :
    ∃ l, (ending (Layering.resolve (shelf.finder s.extensions) s.layoutName s.layoutName) .empty).1 = .ok l ∧
      l.WrapsItself := by
  have htarget : (shelf.finder s.extensions).target? s.layoutName = some leaf.toAddress := by
    refine Finder.target?_eq_some_iff.mpr ⟨haddress.symm, ?_⟩
    rw [haddress]
    exact hplain
  have hat : shelf.at? s.extensions s.layoutName = some leaf :=
    Option.bind_eq_some_iff.mpr ⟨_, htarget, hfound⟩
  have hleaf := Shelf.placed_of_at? hat
  obtain ⟨told, hend, -⟩ := (shelf.ending_resolve s.extensions s.layoutName s.layoutName .empty).2 leaf hat
  refine ⟨_, congrArg Prod.fst hend, (Layering.wrapsItself_iff hleaf).mpr ⟨s.layoutName, ?_, htarget⟩⟩
  -- at the root the layout name is the path that is looked at
  have hroot : (within ((Address.directories leaf.location).take 0) s.layoutName.toList).path = s.layoutName := by
    simp [within, Address.path, Text.joinWith]
  have hcandidate : s.layoutName ∈ Layering.candidates s.layoutName leaf.path := by
    rw [hleaf.candidates_eq]
    exact List.mem_map.mpr ⟨_, List.mem_map.mpr ⟨0, List.mem_range.mpr (Nat.succ_pos _), rfl⟩, hroot⟩
  refine List.mem_filter.mpr ⟨hcandidate, decide_eq_true fun hsame => path_ne_layoutName hvalid hplain hodd ?_⟩
  rw [← haddress]
  exact hsame.symm

/-- For some views in memory one of them wraps itself, exactly if the layout name leads to a plain address, ends in an
extension of views or has a backslash in it, and some extension of views is one that files may have. -/
theorem exists_wrapsItself_iff (hvalid : s.validate = .ok ()) :
    (∃ sources path l, (ending (Layering.resolve ((Shelf.ofSources sources).finder s.extensions) s.layoutName path)
        .empty).1 = .ok l ∧ l.WrapsItself) ↔
      (Address.ofPath (String.ofList s.bareLayoutName)).isPlain = true ∧
        (s.bareLayoutName ≠ s.layoutName.toList ∨ '\\' ∈ s.layoutName.toList) ∧
          ∃ e ∈ s.extensions, IsFileExtension e := by
  constructor
  · rintro ⟨sources, path, l, hresolve, hwraps⟩
    obtain ⟨hplain, hodd, hfound⟩ := bareLayoutName_of_wrapsItself hvalid hresolve hwraps
    rw [Shelf.ofSources] at hfound
    exact ⟨hplain, hodd, l.leaf.extension, (Shelf.find?_some hfound).2.1, Shelf.isFileExtension_of_find? hfound⟩
  · rintro ⟨hplain, hodd, e, he, hextension⟩
    obtain ⟨dirs, name, -, hwithin, hdirs, hname⟩ := Address.exists_within_of_isPlain hplain
    let sources := [((within dirs name).path ++ "." ++ e, "")]
    have hentry : Table.find? ⟨within dirs name, e⟩ (Shelf.ofSources sources).entries = some (.text "") := by
      rw [← ShelfKey.ofPath_file hdirs hname hextension]
      exact (Table.find?_insert ..).trans (if_pos rfl)
    obtain ⟨leaf, hleaf⟩ := Option.isSome_iff_exists.mp (Shelf.find?_isSome he hentry)
    obtain ⟨haddress, -, -⟩ := Shelf.find?_some hleaf
    rw [← haddress] at hleaf hwithin
    obtain ⟨l, hresolve, hwraps⟩ := wrapsItself_alone hvalid hplain hodd hwithin.symm hleaf
    exact ⟨sources, s.layoutName, l, hresolve, hwraps⟩

/-- Settings whose layout name ends in an extension of views. -/
def layoutNameWithExtension : Settings := { default with layoutName := "_ViewStart.html" }

theorem exists_wrapsItself_layoutNameWithExtension :
    layoutNameWithExtension.validate = .ok () ∧
      ∃ sources path l,
        (ending (Layering.resolve ((Shelf.ofSources sources).finder layoutNameWithExtension.extensions)
          layoutNameWithExtension.layoutName path) .empty).1 = .ok l ∧ l.WrapsItself := by
  have hvalid : layoutNameWithExtension.validate = .ok () := by decide +kernel
  have hplain : (Address.ofPath (String.ofList layoutNameWithExtension.bareLayoutName)).isPlain = true := by
    decide +kernel
  have hshort : layoutNameWithExtension.bareLayoutName ≠ layoutNameWithExtension.layoutName.toList := by
    decide +kernel
  have hextension : IsFileExtension "html" := by
    simp [IsFileExtension, Address.isSeparator]
  exact ⟨hvalid, (exists_wrapsItself_iff hvalid).mpr ⟨hplain, Or.inl hshort, "html", by decide, hextension⟩⟩

end Settings

end LayeredViews
