import LayeredViews.Catalog.Directory
import LayeredViews.Proofs.View.Spelling
import Mathlib.Data.List.Basic

/-!
# Located files — which paths a directory looks at

The paths at which a directory looks for a view go on from its root, down through names of entries
(`fileOf_descends`): whatever the address and the extension hold, none of them leads up or starts elsewhere.
What is located depends on nothing but the entries at these paths.
-/

namespace LayeredViews

open Address (isPlainSegment)
open Text (words)

/-! ### Names and paths -/

/-- Names an entry of a directory, and neither the directory itself nor the one above. -/
structure IsEntryName (name : List Char) : Prop where
  ne_nil : name ≠ []
  ne_here : name ≠ ['.']
  ne_above : name ≠ ['.', '.']
  slash_notMem : '/' ∉ name

theorem IsEntryName.of_isPlainSegment {name : List Char} (h : isPlainSegment name = true) :
    IsEntryName name := by
  have hslash := (Address.isSegment_of_isPlainSegment h).slash_notMem
  simp only [isPlainSegment, Bool.and_eq_true, Bool.not_eq_true', bne_iff_ne] at h
  obtain ⟨⟨⟨hempty, hhere⟩, habove⟩, -⟩ := h
  exact ⟨by simpa using hempty, hhere, habove, hslash⟩

/-- The file of a plain name is an entry also if its extension is empty or starts with a dot. -/
theorem IsEntryName.file {name extension : List Char} (h : IsEntryName name) (hextension : '/' ∉ extension) :
    IsEntryName (name ++ '.' :: extension) where
  ne_nil := by simp
  ne_here heq := by
    have hlength := congrArg List.length heq
    have hpos := List.length_pos_iff.mpr h.ne_nil
    simp only [List.length_append, List.length_cons, List.length_nil] at hlength
    omega
  ne_above heq := by
    have hlength := congrArg List.length heq
    have hpos := List.length_pos_iff.mpr h.ne_nil
    simp only [List.length_append, List.length_cons, List.length_nil] at hlength
    -- two dots are the name of one dot with an empty extension
    have hextension : extension = [] := List.eq_nil_of_length_eq_zero (by omega)
    subst hextension
    exact h.ne_here (List.append_inj_left' (heq : name ++ ['.'] = ['.'] ++ ['.']) rfl)
  slash_notMem := by simp [h.slash_notMem, hextension]

theorem IsEntryName.words_eq {part : String} (h : IsEntryName part.toList) :
    words (· == '/') part.toList = [part.toList] := by
  refine Text.words_eq_singleton h.ne_nil fun c hc => ?_
  rw [beq_eq_false_iff_ne]
  rintro rfl
  exact h.slash_notMem hc

theorem IsEntryName.endsInSlash_append {part : String} (h : IsEntryName part.toList) (front : String) :
    FileSystem.endsInSlash (front ++ part) = false := by
  have hlast : (front ++ part).toList.getLast? = part.toList.getLast? := by
    rw [String.toList_append, List.getLast?_append_of_ne_nil _ h.ne_nil]
  unfold FileSystem.endsInSlash
  rw [hlast, decide_eq_false_iff_not]
  exact fun hslash => h.slash_notMem (List.mem_of_getLast? hslash)

/-- Where a path starts is told by its first character. -/
theorem startOf_append {path : String} (hne : ¬ path.isEmpty = true) (more : String) (here : Place) :
    FileSystem.startOf here (path ++ more) = FileSystem.startOf here path := by
  have hnonempty : path.toList ≠ [] := by
    intro hnil
    exact hne (String.isEmpty_iff.mpr (String.toList_eq_nil_iff.mp hnil))
  unfold FileSystem.startOf
  rw [String.toList_append, List.head?_append_of_ne_nil _ hnonempty]

/-- A path that goes on from another one, down through some names. -/
structure Descends (root path : String) (names : List (List Char)) : Prop where
  down : ∀ name ∈ names, IsEntryName name
  continues : root.toList <+: path.toList
  starts : ∀ here, FileSystem.startOf here path = FileSystem.startOf here root
  words_eq : words (· == '/') path.toList = words (· == '/') root.toList ++ names
  stays : names = [] → path = root
  ends : names ≠ [] → FileSystem.endsInSlash path = false

theorem Descends.refl (root : String) : Descends root root [] :=
  ⟨by simp, List.prefix_refl _, fun _ => rfl, (List.append_nil _).symm, fun _ => rfl, fun h => absurd rfl h⟩

theorem Descends.trans {root path further : String} {names more : List (List Char)}
    (h : Descends root path names) (h' : Descends path further more) :
    Descends root further (names ++ more) where
  down := List.forall_mem_append.mpr ⟨h.down, h'.down⟩
  continues := h.continues.trans h'.continues
  starts here := (h'.starts here).trans (h.starts here)
  words_eq := by rw [h'.words_eq, h.words_eq, List.append_assoc]
  stays hnil := by
    obtain ⟨hnames, hmore⟩ := List.append_eq_nil_iff.mp hnil
    rw [h'.stays hmore, h.stays hnames]
  ends hne := by
    by_cases hmore : more = []
    · rw [h'.stays hmore]
      exact h.ends fun hnames => hne (List.append_eq_nil_iff.mpr ⟨hnames, hmore⟩)
    · exact h'.ends hmore

namespace Directory

theorem join_descends (path : String) {part : String} (hpart : IsEntryName part.toList) :
    Descends path (join path part) [part.toList] := by
  have hdown : ∀ name ∈ [part.toList], IsEntryName name := by simpa using hpart
  unfold join
  by_cases hempty : path.isEmpty = true
  · rw [if_pos hempty]
    obtain rfl := String.isEmpty_iff.mp hempty
    have hlast := hpart.endsInSlash_append ""
    rw [String.empty_append] at hlast
    refine ⟨hdown, by simp, fun here => ?_, hpart.words_eq, nofun, fun _ => hlast⟩
    have hhead : part.toList.head? ≠ some '/' := fun h => hpart.slash_notMem (List.mem_of_head? h)
    unfold FileSystem.startOf
    rw [if_neg hhead]
    rfl
  rw [if_neg hempty]
  by_cases hslash : path.toList.getLast? = some '/'
  · rw [if_pos hslash]
    obtain ⟨front, hfront⟩ := List.getLast?_eq_some_iff.mp hslash
    refine ⟨hdown, by simp, startOf_append hempty part, ?_, nofun, fun _ => hpart.endsInSlash_append path⟩
    rw [String.toList_append, hfront, List.append_assoc, List.singleton_append,
      Text.words_append_cons _ _ (by rfl), Text.words_append_cons _ _ (by rfl), hpart.words_eq]
    simp
  · rw [if_neg hslash]
    have hlast := hpart.endsInSlash_append (path ++ "/")
    rw [String.append_assoc] at hlast ⊢
    refine ⟨hdown, by simp, startOf_append hempty ("/" ++ part), ?_, nofun, fun _ => hlast⟩
    have htext : (path ++ ("/" ++ part)).toList = path.toList ++ '/' :: part.toList := by simp
    rw [htext, Text.words_append_cons _ _ (by rfl), hpart.words_eq]

theorem joins_descend (root : String) {names : List (List Char)} (hnames : ∀ name ∈ names, IsEntryName name) :
    Descends root ((names.map String.ofList).foldl join root) names := by
  induction names generalizing root with
  | nil => exact .refl root
  | cons name names ih =>
    obtain ⟨hname, hothers⟩ := List.forall_mem_cons.mp hnames
    have hpart : IsEntryName (String.ofList name).toList := by rwa [String.toList_ofList]
    have hfirst := join_descends root hpart
    rw [String.toList_ofList] at hfirst
    exact hfirst.trans (ih _ hothers)

/-- The path of a view's file goes from the root down through the directories of its address. -/
theorem fileOf_descends (d : Directory) {a : Address} (hplain : a.isPlain = true) {extension : String}
    (hextension : '/' ∉ extension.toList) :
    Descends d.root (d.fileOf a extension)
      (Address.directories a.location ++ [a.name.toList ++ '.' :: extension.toList]) := by
  obtain ⟨hname, hdirs⟩ := Bool.and_eq_true_iff.mp hplain
  have hentries : ∀ dir ∈ Address.directories a.location, IsEntryName dir := fun dir hdir =>
    .of_isPlainSegment (List.all_eq_true.mp hdirs dir hdir)
  have hfile : (a.name ++ "." ++ extension).toList = a.name.toList ++ '.' :: extension.toList := by simp
  have hlast := join_descends (((Address.directories a.location).map String.ofList).foldl join d.root)
    (hfile ▸ (IsEntryName.of_isPlainSegment hname).file hextension)
  rw [hfile] at hlast
  exact (joins_descend d.root hentries).trans hlast

/-! ### Locating -/

theorem locateUnder_cons (d : Directory) (a : Address) (extension : String) (others : List String) :
    d.locateUnder a (extension :: others) =
      match d.files.stat (d.fileOf a extension) with
      | .ok (.file contents) => .ok (some ⟨a, extension, contents⟩)
      | .ok _ => d.locateUnder a others
      | .error .notFound => d.locateUnder a others
      | .error fault => .error (.unavailable a.path fault) := by
  -- with the entry left open, no path is walked to see that both sides agree
  generalize hstat : d.files.stat (d.fileOf a extension) = entry
  conv_lhs => unfold locateUnder
  rcases entry with fault | entry
  · cases fault <;> simp only [hstat]
  · cases entry <;> simp only [hstat]

variable {d : Directory} {a : Address} {extensions : List String} {v : View}

/-- What is located depends on no more than the entries at the paths of the files. -/
theorem locate_congr {files : FileSystem}
    (h : ∀ x ∈ extensions, files.stat (d.fileOf a x) = d.files.stat (d.fileOf a x)) :
    ({ d with files } : Directory).locate extensions a = d.locate extensions a := by
  have hunder : ({ d with files } : Directory).locateUnder a extensions = d.locateUnder a extensions := by
    induction extensions with
    | nil => rfl
    | cons x others ih =>
      obtain ⟨hx, hothers⟩ := List.forall_mem_cons.mp h
      have hstat : files.stat (Directory.fileOf { d with files } a x) = d.files.stat (d.fileOf a x) := hx
      rw [locateUnder_cons, locateUnder_cons, hstat, ih hothers]
  unfold locate
  rw [hunder]

/-- The entry at a path is no file, or there is none. -/
def PassedOver (entry : Except ReadFault FileTree) : Prop :=
  entry = .error .notFound ∨ ∃ t, entry = .ok t ∧ ∀ contents, t ≠ .file contents

theorem entry_cases (entry : Except ReadFault FileTree) :
    (∃ contents, entry = .ok (.file contents)) ∨ PassedOver entry ∨
      ∃ fault, fault ≠ .notFound ∧ entry = .error fault := by
  rcases entry with fault | t
  · by_cases hfault : fault = .notFound
    · exact Or.inr (Or.inl (Or.inl (congrArg Except.error hfault)))
    · exact Or.inr (Or.inr ⟨fault, hfault, rfl⟩)
  · cases t with
    | file contents => exact Or.inl ⟨contents, rfl⟩
    | dir entries => exact Or.inr (Or.inl (Or.inr ⟨_, rfl, nofun⟩))
    | link target => exact Or.inr (Or.inl (Or.inr ⟨_, rfl, nofun⟩))

section Steps

variable {extension : String} {others : List String}

theorem locateUnder_file {contents : Contents}
    (h : d.files.stat (d.fileOf a extension) = .ok (.file contents)) :
    d.locateUnder a (extension :: others) = .ok (some ⟨a, extension, contents⟩) := by
  rw [locateUnder_cons, h]

theorem locateUnder_passedOver (h : PassedOver (d.files.stat (d.fileOf a extension))) :
    d.locateUnder a (extension :: others) = d.locateUnder a others := by
  rw [locateUnder_cons]
  rcases h with h | ⟨t, h, ht⟩ <;> rw [h]
  cases t with
  | file contents => exact absurd rfl (ht contents)
  | dir entries => rfl
  | link target => rfl

theorem locateUnder_fault {fault : ReadFault} (hfault : fault ≠ .notFound)
    (h : d.files.stat (d.fileOf a extension) = .error fault) :
    d.locateUnder a (extension :: others) = .error (.unavailable a.path fault) := by
  rw [locateUnder_cons, h]
  cases fault
  case notFound => exact absurd rfl hfault
  all_goals rfl

end Steps

theorem not_passedOver_file (contents : Contents) : ¬ PassedOver (.ok (.file contents)) := by
  rintro (h | ⟨t, h, ht⟩)
  · cases h
  · exact ht contents (Except.ok.inj h).symm

/-- A view is located by the first extension that is not passed over, and has the contents of its file. -/
theorem locateUnder_eq_some_iff :
    d.locateUnder a extensions = .ok (some v) ↔
      v.toAddress = a ∧ d.files.stat (d.fileOf a v.extension) = .ok (.file v.contents) ∧
        ∃ before after, extensions = before ++ v.extension :: after ∧
          ∀ x ∈ before, PassedOver (d.files.stat (d.fileOf a x)) := by
  induction extensions with
  | nil =>
    refine iff_of_false nofun ?_
    rintro ⟨-, -, before, after, hsplit, -⟩
    simp at hsplit
  | cons x others ih =>
    have hfirst : ∀ before after : List String, x :: others = before ++ v.extension :: after →
        (∀ y ∈ before, PassedOver (d.files.stat (d.fileOf a y))) →
          ¬ PassedOver (d.files.stat (d.fileOf a x)) → x = v.extension := by
      intro before after hsplit hbefore hx
      cases before with
      | nil => exact (List.cons.inj hsplit).1
      | cons y before =>
        obtain rfl := (List.cons.inj hsplit).1
        exact absurd (hbefore x List.mem_cons_self) hx
    rcases entry_cases (d.files.stat (d.fileOf a x)) with ⟨contents, hx⟩ | hx | ⟨fault, hfault, hx⟩
    · rw [locateUnder_file hx]
      constructor
      · intro h
        obtain rfl := Option.some.inj (Except.ok.inj h)
        exact ⟨rfl, hx, [], others, rfl, by simp⟩
      · rintro ⟨rfl, hfile, before, after, hsplit, hbefore⟩
        obtain rfl := hfirst before after hsplit hbefore (hx ▸ not_passedOver_file contents)
        rw [hfile] at hx
        obtain rfl := FileTree.file.inj (Except.ok.inj hx)
        rfl
    · rw [locateUnder_passedOver hx, ih]
      refine and_congr_right fun _ => and_congr_right fun hfile => ?_
      constructor
      · rintro ⟨before, after, rfl, hbefore⟩
        exact ⟨x :: before, after, rfl, List.forall_mem_cons.mpr ⟨hx, hbefore⟩⟩
      · rintro ⟨before, after, hsplit, hbefore⟩
        cases before with
        | nil =>
          obtain ⟨rfl, -⟩ := List.cons.inj hsplit
          rw [hfile] at hx
          exact absurd hx (not_passedOver_file v.contents)
        | cons y before =>
          obtain ⟨rfl, hothers⟩ := List.cons.inj hsplit
          exact ⟨before, after, hothers, fun z hz => hbefore z (List.mem_cons_of_mem x hz)⟩
    · rw [locateUnder_fault hfault hx]
      refine iff_of_false nofun ?_
      rintro ⟨-, hfile, before, after, hsplit, hbefore⟩
      have hnot : ¬ PassedOver (d.files.stat (d.fileOf a x)) := by
        rw [hx]
        rintro (h | ⟨t, h, -⟩)
        · exact hfault (Except.error.inj h)
        · cases h
      obtain rfl := hfirst before after hsplit hbefore hnot
      rw [hfile] at hx
      cases hx

end Directory

end LayeredViews
