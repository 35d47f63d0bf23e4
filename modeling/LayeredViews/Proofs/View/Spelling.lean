import LayeredViews.Proofs.Text.Split
import LayeredViews.View.Finder

/-!
# Spelling — paths, the addresses they spell, and their extensions

`Address.within` is the address of a name below nested directories.  Its path spells it again
(`ofPath_path_within`), so that paths made from addresses lead where they should.  `stripAny_append` says what
taking an extension off leaves of a path whose last part is given: all that is in front of that part, or less
if the extension reaches further.
-/

namespace LayeredViews

open Text (words joinWith)

namespace Address

/-! ### Segments -/

/-- A text that a path may hold between two separators. -/
def IsSegment (segment : List Char) : Prop :=
  segment ≠ [] ∧ ∀ c ∈ segment, isSeparator c = false

theorem isSegment_of_isPlainSegment {segment : List Char} (h : isPlainSegment segment = true) :
    IsSegment segment := by
  simp only [isPlainSegment, Bool.and_eq_true, Bool.not_eq_true', List.any_eq_false] at h
  obtain ⟨⟨⟨hne, -⟩, -⟩, hall⟩ := h
  exact ⟨by simpa using hne, fun c hc => by simpa using hall c hc⟩

theorem segments_of_plainSegments {dirs : List (List Char)} (h : ∀ d ∈ dirs, isPlainSegment d = true) :
    ∀ d ∈ dirs, IsSegment d :=
  fun d hd => isSegment_of_isPlainSegment (h d hd)

theorem isSegment_of_mem_segmentsOf {path : String} {segment : List Char}
    (h : segment ∈ segmentsOf path) : IsSegment segment :=
  Text.of_mem_words h

theorem isSeparator_slash : isSeparator '/' = true := rfl

theorem IsSegment.slash_notMem {segment : List Char} (h : IsSegment segment) : '/' ∉ segment := by
  intro hmem
  have hslash := h.2 '/' hmem
  rw [isSeparator_slash] at hslash
  cases hslash

theorem IsSegment.beq_slash {segment : List Char} (h : IsSegment segment) :
    ∀ c ∈ segment, (c == '/') = false := by
  intro c hc
  refine beq_eq_false_iff_ne.mpr ?_
  rintro rfl
  exact h.slash_notMem hc

/-! ### Names below directories -/

/-- The address of a name below nested directories, the outermost one first. -/
def within (dirs : List (List Char)) (name : List Char) : Address :=
  ⟨String.ofList (joinWith '/' dirs), String.ofList name⟩

theorem ofSegments_concat (dirs : List (List Char)) (name : List Char) :
    ofSegments (dirs ++ [name]) = within dirs name := by
  unfold ofSegments
  rw [List.getLast?_concat, List.dropLast_concat]
  rfl

theorem directories_within {dirs : List (List Char)} (h : ∀ d ∈ dirs, IsSegment d) (name : List Char) :
    directories (within dirs name).location = dirs := by
  unfold directories within
  rw [String.toList_ofList]
  exact Text.words_joinWith (by simp) fun d hd => ⟨(h d hd).1, (h d hd).beq_slash⟩

/-- The text in front of a name in a path through some directories. -/
def leading (dirs : List (List Char)) : List Char :=
  if dirs = [] then [] else joinWith '/' dirs ++ ['/']

theorem toList_path_within {dirs : List (List Char)} (h : ∀ d ∈ dirs, IsSegment d) (name : List Char) :
    (within dirs name).path.toList = leading dirs ++ name := by
  have hempty : (String.ofList (joinWith '/' dirs)).isEmpty = true ↔ dirs = [] := by
    rw [String.isEmpty_iff, ← Text.joinWith_eq_nil_iff fun d hd => (h d hd).1]
    constructor
    · intro hnil
      simpa using congrArg String.toList hnil
    · intro hnil
      rw [hnil]
  unfold path within leading
  by_cases hdirs : dirs = []
  · rw [if_pos (hempty.mpr hdirs), if_pos hdirs]
    simp
  · rw [if_neg (mt hempty.mp hdirs), if_neg hdirs]
    simp

theorem words_leading_append {dirs : List (List Char)} (h : ∀ d ∈ dirs, IsSegment d) (cs : List Char) :
    words isSeparator (leading dirs ++ cs) = dirs ++ words isSeparator cs := by
  unfold leading
  split
  · next hnil => simp [hnil]
  · rw [List.append_assoc, List.singleton_append, Text.words_append_cons _ _ isSeparator_slash,
      Text.words_joinWith isSeparator_slash h]

/-- The path of an address is cut into what the address was made from. -/
theorem segmentsOf_path_within {dirs : List (List Char)} (h : ∀ d ∈ dirs, IsSegment d) {name : List Char}
    (hname : IsSegment name) : segmentsOf (within dirs name).path = dirs ++ [name] := by
  unfold segmentsOf
  rw [toList_path_within h, words_leading_append h, Text.words_eq_singleton hname.1 hname.2]

theorem ofPath_path_within {dirs : List (List Char)} (h : ∀ d ∈ dirs, IsSegment d) {name : List Char}
    (hname : IsSegment name) : ofPath (within dirs name).path = within dirs name := by
  unfold ofPath
  rw [segmentsOf_path_within h hname, ofSegments_concat]

theorem within_injective {dirs dirs' : List (List Char)} {name name' : List Char}
    (h : ∀ d ∈ dirs, IsSegment d) (h' : ∀ d ∈ dirs', IsSegment d) (heq : within dirs name = within dirs' name') :
    dirs = dirs' ∧ name = name' := by
  have hdirs := directories_within h name
  rw [heq, directories_within h'] at hdirs
  have hname := congrArg (fun a => a.name.toList) heq
  simp only [within, String.toList_ofList] at hname
  exact ⟨hdirs.symm, hname⟩

theorem isPlain_within {dirs : List (List Char)} (h : ∀ d ∈ dirs, IsSegment d) (name : List Char) :
    (within dirs name).isPlain = (isPlainSegment name && dirs.all isPlainSegment) := by
  unfold isPlain
  rw [directories_within h]
  simp [within]

/-- A path without segments spells the empty address, any other that of its last segment below the ones before. -/
theorem ofPath_cases (path : String) :
    (segmentsOf path = [] ∧ ofPath path = ⟨"", ""⟩) ∨
      ∃ dirs name, segmentsOf path = dirs ++ [name] ∧ ofPath path = within dirs name ∧
        (∀ d ∈ dirs, IsSegment d) ∧ IsSegment name := by
  rcases List.eq_nil_or_concat (segmentsOf path) with hnil | ⟨dirs, name, hsegments⟩
  · refine Or.inl ⟨hnil, ?_⟩
    rw [ofPath, hnil, ofSegments_nil]
  · rw [List.concat_eq_append] at hsegments
    have hall : ∀ d ∈ dirs ++ [name], IsSegment d := fun d hd => isSegment_of_mem_segmentsOf (hsegments ▸ hd)
    obtain ⟨hdirs, hname⟩ := List.forall_mem_append.mp hall
    refine Or.inr ⟨dirs, name, hsegments, ?_, hdirs, hname name List.mem_cons_self⟩
    rw [ofPath, hsegments, ofSegments_concat]

/-- A plain address that a path spells is that of its last segment below the ones before. -/
theorem exists_within_of_isPlain {path : String} (h : (ofPath path).isPlain = true) :
    ∃ dirs name, segmentsOf path = dirs ++ [name] ∧ ofPath path = within dirs name ∧
      (∀ d ∈ dirs, IsSegment d) ∧ IsSegment name := by
  rcases ofPath_cases path with ⟨-, hempty⟩ | hwithin
  · rw [hempty] at h
    cases h
  · exact hwithin

/-- A plain name below plain directories, which the location has with single slashes between them. -/
def Rooted (a : Address) : Prop :=
  ∃ dirs name, a = within dirs name ∧ isPlainSegment name = true ∧ ∀ dir ∈ dirs, isPlainSegment dir = true

theorem rooted_of_isPlain {path : String} (h : (ofPath path).isPlain = true) :
    (ofPath path).Rooted := by
  obtain ⟨dirs, name, -, haddress, hdirs, -⟩ := exists_within_of_isPlain h
  rw [haddress, isPlain_within hdirs, Bool.and_eq_true, List.all_eq_true] at h
  exact ⟨dirs, name, haddress, h⟩

end Address

/-! ### Extensions -/

namespace Finder

/-- The first extension in which a path ends comes off, if there is one. -/
theorem stripAny_cases (path : List Char) (extensions : List String) :
    (stripAny path extensions = path ∧ ∀ e ∈ extensions, ¬ '.' :: e.toList <:+ path) ∨
      ∃ before e after, extensions = before ++ e :: after ∧
        stripAny path extensions ++ '.' :: e.toList = path ∧ ∀ x ∈ before, ¬ '.' :: x.toList <:+ path := by
  induction extensions with
  | nil => exact Or.inl ⟨rfl, by simp⟩
  | cons e others ih =>
    rw [stripAny]
    cases hdrop : Text.dropEnd? ('.' :: e.toList) path with
    | some stem => exact Or.inr ⟨[], e, others, rfl, (Text.dropEnd?_iff.mp hdrop).symm, by simp⟩
    | none =>
      have hnot : ¬ '.' :: e.toList <:+ path := by
        rintro ⟨stem, hstem⟩
        rw [Text.dropEnd?_iff.mpr hstem.symm] at hdrop
        cases hdrop
      rcases ih with ⟨hsame, hnone⟩ | ⟨before, x, after, rfl, hstrip, hbefore⟩
      · exact Or.inl ⟨hsame, List.forall_mem_cons.mpr ⟨hnot, hnone⟩⟩
      · exact Or.inr ⟨e :: before, x, after, rfl, hstrip, List.forall_mem_cons.mpr ⟨hnot, hbefore⟩⟩

theorem stripAny_of_first {before : List String} {path stem : List Char} {e : String} (after : List String)
    (hpath : path = stem ++ '.' :: e.toList) (hbefore : ∀ x ∈ before, ¬ '.' :: x.toList <:+ path) :
    stripAny path (before ++ e :: after) = stem := by
  induction before with
  | nil => rw [List.nil_append, stripAny, Text.dropEnd?_iff.mpr hpath]
  | cons x before ih =>
    obtain ⟨hx, hothers⟩ := List.forall_mem_cons.mp hbefore
    have hnone : Text.dropEnd? ('.' :: x.toList) path = none := by
      refine Option.eq_none_iff_forall_not_mem.mpr fun rest hrest => hx ?_
      exact ⟨rest, (Text.dropEnd?_iff.mp hrest).symm⟩
    rw [List.cons_append, stripAny, hnone]
    exact ih hothers

theorem stripAny_prefix (path : List Char) (extensions : List String) :
    stripAny path extensions <+: path := by
  rcases stripAny_cases path extensions with ⟨hsame, -⟩ | ⟨before, e, after, -, hstrip, -⟩
  · exact ⟨[], by rw [List.append_nil, hsame]⟩
  · exact ⟨_, hstrip⟩

/-- Taking an extension off a path takes it off the last part alone, or leaves not even all that is in front of
that part. -/
theorem stripAny_append (front last : List Char) (extensions : List String) :
    stripAny (front ++ last) extensions = front ++ stripAny last extensions ∨
      ∃ e ∈ extensions, ∃ cut, cut ≠ [] ∧ stripAny (front ++ last) extensions ++ cut = front ∧
        '.' :: e.toList = cut ++ last := by
  induction extensions with
  | nil => exact Or.inl rfl
  | cons e others ih =>
    rw [stripAny, stripAny]
    cases hdrop : Text.dropEnd? ('.' :: e.toList) (front ++ last) with
    | none =>
      have hlast : Text.dropEnd? ('.' :: e.toList) last = none := by
        refine Option.eq_none_iff_forall_not_mem.mpr fun stem hstem => ?_
        have hwhole : front ++ last = (front ++ stem) ++ '.' :: e.toList := by
          rw [Text.dropEnd?_iff.mp hstem, List.append_assoc]
        rw [Text.dropEnd?_iff.mpr hwhole] at hdrop
        cases hdrop
      rw [hlast]
      rcases ih with h | ⟨e', he', h⟩
      · exact Or.inl h
      · exact Or.inr ⟨e', List.mem_cons_of_mem e he', h⟩
    | some stem =>
      rcases List.append_eq_append_iff.mp (Text.dropEnd?_iff.mp hdrop) with
        ⟨more, hstem, hlast⟩ | ⟨cut, hfront, hends⟩
      · rw [Text.dropEnd?_iff.mpr hlast]
        exact Or.inl hstem
      · by_cases hcut : cut = []
        · -- the extension is the last part as a whole
          subst hcut
          have hwhole : last = [] ++ '.' :: e.toList := hends.symm
          rw [Text.dropEnd?_iff.mpr hwhole]
          exact Or.inl (by simpa using hfront.symm)
        · exact Or.inr ⟨e, List.mem_cons_self, cut, hcut, hfront.symm, hends⟩

/-- In a path an extension without separators comes off the name alone. -/
theorem stripAny_leading {extensions : List String}
    (hextensions : ∀ e ∈ extensions, ∀ c ∈ e.toList, Address.isSeparator c = false)
    (dirs : List (List Char)) (name : List Char) :
    stripAny (Address.leading dirs ++ name) extensions = Address.leading dirs ++ stripAny name extensions := by
  rcases stripAny_append (Address.leading dirs) name extensions with h | ⟨e, he, cut, hcut, hleft, hends⟩
  · exact h
  · exfalso
    unfold Address.leading at hleft
    split at hleft
    · exact hcut (List.append_eq_nil_iff.mp hleft).2
    · -- the extension would hold the slash in front of the name
      obtain ⟨init, c, rfl⟩ := (List.eq_nil_or_concat cut).resolve_left hcut
      rw [List.concat_eq_append, ← List.append_assoc] at hleft
      obtain rfl : c = '/' := by simpa using (List.append_inj' hleft rfl).2
      have hslash : '/' ∈ '.' :: e.toList := by
        rw [hends]
        simp
      rcases List.mem_cons.mp hslash with h | h
      · cases h
      · cases hextensions e he '/' h

/-- What is left of a path comes from its last part too, unless it holds no more than the directories in front. -/
theorem stripAny_leading_of_lt {dirs : List (List Char)} (hdirs : ∀ d ∈ dirs, Address.IsSegment d)
    {name : List Char} {extensions : List String}
    (hlong : dirs.flatten.length <
      (words Address.isSeparator (stripAny (Address.leading dirs ++ name) extensions)).flatten.length) :
    stripAny (Address.leading dirs ++ name) extensions = Address.leading dirs ++ stripAny name extensions := by
  rcases stripAny_append (Address.leading dirs) name extensions with h | ⟨-, -, cut, -, hcut, -⟩
  · exact h
  · exfalso
    have hletters := Text.flatten_words Address.isSeparator (Address.leading dirs)
    have hwords := Address.words_leading_append hdirs []
    rw [List.append_nil, Text.words_nil, List.append_nil] at hwords
    rw [hwords, ← hcut, List.filter_append, ← Text.flatten_words] at hletters
    rw [hletters, List.length_append] at hlong
    omega

end Finder

end LayeredViews
