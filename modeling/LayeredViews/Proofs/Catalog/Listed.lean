import LayeredViews.Proofs.Catalog.Shelved
import LayeredViews.Proofs.Since

/-!
# Listed views — a shelf's listing and what its views are found by

A shelf is ordered by its keys, whatever has been put on it, and has under each key what has been put there last.  So
it lists what lookups find.  The other way round a listed view is found by its full name, up to its extension: of those
under which something stands at its address the first one counts (`listed_located`).
-/

namespace LayeredViews

open Address (IsSegment isPlainSegment within)

/-! ### Keys -/

namespace ShelfKey

/-- Keys are compared by location, then by name, then by extension. -/
theorem before_order : Table.KeyOrder before where
  irrefl k := by simp [before, Text.before_irrefl]
  trans {a b c} hab hbc := by
    have htrans := @Text.before_order.trans
    have hirrefl := Text.before_irrefl
    unfold before at *
    grind
  total {a b} hne := by
    have htotal := @Text.before_order.total
    obtain ⟨⟨location, name⟩, extension⟩ := a
    obtain ⟨⟨location', name'⟩, extension'⟩ := b
    unfold before
    grind

/-- The key of a file is that of a name below directories. -/
theorem exists_within (path : String) :
    ∃ dirs name, (ofPath path).toAddress = within dirs name ∧ ∀ d ∈ dirs, IsSegment d := by
  obtain ⟨name, hkey⟩ : ∃ name, (ofPath path).toAddress = ⟨(Address.ofPath path).location, String.ofList name⟩ := by
    unfold ofPath
    dsimp only
    split
    · exact ⟨_, rfl⟩
    · exact ⟨(Address.ofPath path).name.toList, by simp⟩
  rcases Address.ofPath_cases path with ⟨-, hempty⟩ | ⟨dirs, last, -, hwithin, hdirs, -⟩
  · rw [hempty] at hkey
    exact ⟨[], name, hkey, by simp⟩
  · rw [hwithin] at hkey
    exact ⟨dirs, name, hkey, hdirs⟩

end ShelfKey

/-! ### What stands on a shelf -/

namespace Shelf

/-- This text has been put under the key, and no other since. -/
def LastSource (sources : List (String × String)) (k : ShelfKey) (text : String) : Prop :=
  Since (fun source => ShelfKey.ofPath source.1 = k ∧ source.2 = text) (fun source => ShelfKey.ofPath source.1 ≠ k)
    sources

/-- Some source has been put at the address with this extension, and with none of those before it. -/
def FirstExtension (sources : List (String × String)) (extensions : List String) (a : Address)
    (extension : String) : Prop :=
  ∃ before after, extensions = before ++ extension :: after ∧
    (∃ source ∈ sources, ShelfKey.ofPath source.1 = ⟨a, extension⟩) ∧
    ∀ x ∈ before, ∀ source ∈ sources, ShelfKey.ofPath source.1 ≠ ⟨a, x⟩

variable {sources : List (String × String)} {k : ShelfKey} {text : String} {a : Address} {extensions : List String}
  {v : View}

theorem ofFiles_ordered (files : List (String × Contents)) :
    Table.Ordered ShelfKey.before (ofFiles files).entries := by
  induction files using List.reverseRecOn with
  | nil => exact Table.ordered_nil
  | append_singleton files file ih =>
    rw [ofFiles_concat]
    exact ih.insert ShelfKey.before_order _ _

theorem ofSources_concat (sources : List (String × String)) (source : String × String) :
    ofSources (sources ++ [source]) = (ofSources sources).put source.1 (.text source.2) := by
  unfold ofSources
  rw [List.map_append, List.map_singleton, ofFiles_concat]

/-- Under each key there is the source that has been put there last. -/
theorem find?_ofSources_iff {contents : Contents} :
    Table.find? k (ofSources sources).entries = some contents ↔
      ∃ text, contents = .text text ∧ LastSource sources k text := by
  unfold LastSource
  induction sources using List.reverseRecOn with
  | nil => simp [ofSources, ofFiles, empty, not_since_nil]
  | append_singleton sources source ih =>
    rw [ofSources_concat, put, Table.find?_insert]
    by_cases hkey : ShelfKey.ofPath source.1 = k
    · simp [since_concat, hkey, eq_comm]
    · simp [since_concat, hkey, ih]

/-- There is something under a key if any source has been put there. -/
theorem exists_find?_iff :
    (∃ contents, Table.find? k (ofSources sources).entries = some contents) ↔
      ∃ source ∈ sources, ShelfKey.ofPath source.1 = k := by
  induction sources using List.reverseRecOn with
  | nil => simp [ofSources, ofFiles, empty]
  | append_singleton sources source ih =>
    rw [ofSources_concat, put, Table.find?_insert]
    by_cases hkey : ShelfKey.ofPath source.1 = k
    · simp [hkey]
    · simp [hkey, ih]

variable {shelf : Shelf}

/-- A view that is found has the first extension under which something stands at its address. -/
theorem none_before_find? (h : shelf.find? a extensions = some v) :
    ∃ before after, extensions = before ++ v.extension :: after ∧
      ∀ x ∈ before, Table.find? ⟨a, x⟩ shelf.entries = none := by
  induction extensions with
  | nil => cases h
  | cons x others ih =>
    rw [find?] at h
    split at h
    · obtain rfl := Option.some.inj h
      exact ⟨[], others, rfl, by simp⟩
    · next hnone =>
      obtain ⟨before, after, rfl, hbefore⟩ := ih h
      exact ⟨x :: before, after, rfl, List.forall_mem_cons.mpr ⟨hnone, hbefore⟩⟩

theorem firstExtension_of_find? (h : (ofSources sources).find? a extensions = some v) :
    FirstExtension sources extensions a v.extension := by
  obtain ⟨before, after, hsplit, hbefore⟩ := none_before_find? h
  refine ⟨before, after, hsplit, exists_find?_iff.mp ⟨_, (find?_some h).2.2⟩, fun x hx source hsource hkey => ?_⟩
  obtain ⟨contents, hfound⟩ := exists_find?_iff.mpr ⟨source, hsource, hkey⟩
  rw [hbefore x hx] at hfound
  cases hfound

/-- The views that an ordered shelf lists are those that stand on it with one of the extensions. -/
theorem mem_views_iff (h : Table.Ordered ShelfKey.before shelf.entries) :
    v ∈ shelf.views extensions ↔
      v.extension ∈ extensions ∧ Table.find? ⟨v.toAddress, v.extension⟩ shelf.entries = some v.contents := by
  unfold views
  rw [List.mem_map, ← h.mem_iff_find? ShelfKey.before_order]
  constructor
  · rintro ⟨e, he, rfl⟩
    obtain ⟨hmem, hextension⟩ := List.mem_filter.mp he
    exact ⟨by simpa [toView] using hextension, hmem⟩
  · rintro ⟨hextension, hmem⟩
    exact ⟨_, List.mem_filter.mpr ⟨hmem, by simpa using hextension⟩, rfl⟩

end Shelf

/-! ### Full names -/

namespace Finder

variable {f : Finder} (hextensions : ∀ e ∈ f.extensions, IsFileExtension e) {v : View} (hv : v.extension ∈ f.extensions)
include hextensions hv

/-- Of a full name the extension of the view comes off, whatever the name looks like. -/
theorem normalize_fullName : f.normalize v.fullName = v.path := by
  have hfull : v.fullName.toList = v.path.toList ++ '.' :: v.extension.toList := by simp [View.fullName]
  have hcut : ∀ stem e, e ∈ f.extensions →
      Text.cutLast? (· == '.') (stem ++ '.' :: e.toList) = some (stem, e.toList) := fun stem e he =>
    Text.cutLast?_append (fun c hc => by simpa using (hextensions e he c hc).1) (by simp)
  have hstrip : stripAny v.fullName.toList f.extensions = v.path.toList := by
    rcases stripAny_cases v.fullName.toList f.extensions with ⟨-, hnone⟩ | ⟨before, e, after, hsplit, hstrip, -⟩
    · exact absurd ⟨v.path.toList, hfull.symm⟩ (hnone v.extension hv)
    · -- both extensions start at the last dot
      have he := hcut (stripAny v.fullName.toList f.extensions) e (hsplit ▸ by simp)
      have hown := hcut v.path.toList v.extension hv
      rw [← hfull, ← hstrip, he] at hown
      exact (Prod.mk.inj (Option.some.inj hown)).1
  unfold normalize
  rw [hstrip, String.ofList_toList]

/-- The full name of a view leads to its address, if that is one that can be asked for. -/
theorem target?_fullName {dirs : List (List Char)} {name : List Char} (haddress : v.toAddress = within dirs name)
    (hdirs : ∀ d ∈ dirs, IsSegment d) (hplain : v.isPlain = true) : f.target? v.fullName = some v.toAddress := by
  refine target?_eq_some_iff.mpr ⟨?_, hplain⟩
  have hname : isPlainSegment name = true := by
    have h := hplain
    rw [haddress, Address.isPlain_within hdirs, Bool.and_eq_true] at h
    exact h.1
  rw [normalize_fullName hextensions hv]
  unfold View.path
  rw [haddress]
  exact Address.ofPath_path_within hdirs (Address.isSegment_of_isPlainSegment hname)

end Finder

/-! ### Listing and locating -/

namespace Shelf

variable {extensions : List String}

theorem ending_read_of_at? (shelf : Shelf) {path text : String} {a : Address} {extension : String}
    (h : shelf.at? extensions path = some ⟨a, extension, .text text⟩) (asked : History Address) :
    (ending ((shelf.finder extensions).read path) asked).1 = .ok text := by
  obtain ⟨told, hrequire, -⟩ := shelf.ending_require extensions path asked
  rw [h] at hrequire
  unfold Finder.read
  rw [ending_bind_ok hrequire]
  rfl

/-- What lookups find is listed.  And a listed view with a plain address is found by its full name: at its address, with
the first of the extensions under which a source has been put there, and with the last such source. -/
theorem listed_located (hextensions : ∀ e ∈ extensions, IsFileExtension e) (sources : List (String × String)) :
    let f := (ofSources sources).finder extensions
    ∃ views, f.listAll = .ok views ∧
      (∀ path asked v, (ending (f.locate path) asked).1 = .ok (some v) → v ∈ views) ∧
      ∀ v ∈ views, v.isPlain = true → ∃ first text, FirstExtension sources extensions v.toAddress first ∧
        LastSource sources ⟨v.toAddress, first⟩ text ∧ (∀ e, extensions = [e] → ⟨v.toAddress, first, .text text⟩ = v) ∧
        ∀ asked, (ending (f.locate v.fullName) asked).1 = .ok (some ⟨v.toAddress, first, .text text⟩) ∧
          (ending (f.read v.fullName) asked).1 = .ok text := by
  intro f
  have hlocate : ∀ path asked, (ending (f.locate path) asked).1 = .ok ((ofSources sources).at? extensions path) := by
    intro path asked
    obtain ⟨told, hend, -⟩ := (ofSources sources).ending_locate extensions path asked
    exact congrArg Prod.fst hend
  refine ⟨(ofSources sources).views extensions, rfl, fun path asked v h => ?_, fun v hv hplain => ?_⟩
  · rw [hlocate] at h
    obtain ⟨a, -, hfound⟩ := Option.bind_eq_some_iff.mp (Except.ok.inj h)
    exact mem_views hfound
  obtain ⟨hextension, hshelved⟩ := (mem_views_iff (ofFiles_ordered _)).mp hv
  obtain ⟨source, -, hkey⟩ := exists_find?_iff.mp ⟨_, hshelved⟩
  obtain ⟨dirs, name, haddress, hdirs⟩ := ShelfKey.exists_within source.1
  rw [hkey] at haddress
  have htarget : f.target? v.fullName = some v.toAddress :=
    Finder.target?_fullName hextensions hextension haddress hdirs hplain
  obtain ⟨w, hw⟩ := Option.isSome_iff_exists.mp (find?_isSome hextension hshelved)
  obtain ⟨hsame, -, hfound⟩ := find?_some hw
  obtain ⟨text, htext, hlast⟩ := find?_ofSources_iff.mp hfound
  obtain ⟨a, first, contents⟩ := w
  obtain rfl : a = v.toAddress := hsame
  obtain rfl : contents = .text text := htext
  have hat : (ofSources sources).at? extensions v.fullName = some ⟨v.toAddress, first, .text text⟩ := by
    unfold at?
    rw [show ((ofSources sources).finder extensions).target? v.fullName = some v.toAddress from htarget]
    exact hw
  refine ⟨first, text, firstExtension_of_find? hw, hlast, fun e he => ?_, fun asked => ?_⟩
  · -- the view's own extension is the only one
    obtain rfl := he
    obtain rfl := List.mem_singleton.mp hextension
    rw [Shelf.find?, hshelved] at hw
    exact (Option.some.inj hw).symm
  · exact ⟨(hlocate _ asked).trans (congrArg Except.ok hat), ending_read_of_at? _ hat asked⟩

/-- Views of one name and one whose name ends in an extension, with a source that has been replaced. -/
def homonyms : List (String × String) :=
  [("a.html", "1"), ("a.txt", "2"), ("a.txt.html", "3"), ("/a.txt", "4")]

theorem listed_located_homonyms :
    let f := (ofSources homonyms).finder ["txt", "html"]
    (∀ e ∈ ["txt", "html"], IsFileExtension e) ∧ ∃ views, f.listAll = .ok views ∧
      ∃ v ∈ views, v.isPlain = true ∧ v.fullName = "a.html" ∧ LastSource homonyms ⟨v.toAddress, "txt"⟩ "4" ∧
        (ending (f.read v.fullName) .empty).1 = .ok "4" := by
  intro f
  have hextensions : ∀ e ∈ ["txt", "html"], IsFileExtension e := by
    simp [IsFileExtension, Address.isSeparator]
  obtain ⟨views, hlist, -, hall⟩ := listed_located hextensions homonyms
  have hviews : views = (ofSources homonyms).views ["txt", "html"] := (Except.ok.inj hlist).symm
  have hv : (⟨⟨"", "a"⟩, "html", .text "1"⟩ : View) ∈ views := by
    rw [hviews]
    decide +kernel
  obtain ⟨first, text, -, hlast, -, hfound⟩ := hall _ hv (by decide +kernel)
  have hlocate : (ending (f.locate "a.html") .empty).1 = .ok (some ⟨⟨"", "a"⟩, "txt", .text "4"⟩) := by
    decide +kernel
  obtain ⟨-, rfl, htext⟩ := View.mk.inj (Option.some.inj (Except.ok.inj ((hfound .empty).1.symm.trans hlocate)))
  obtain rfl := Contents.text.inj htext
  exact ⟨hextensions, views, hlist, _, hv, by decide +kernel, by decide +kernel, hlast, (hfound .empty).2⟩

end Shelf

end LayeredViews
