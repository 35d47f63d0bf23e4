import LayeredViews.Proofs.Text.Position
import Mathlib.Data.String.Basic

/-!
# Offsets — the index of a string at each of its places

A place of a string (`String.Pos`) is a byte offset at which a character starts, or the end.  At each of them the index
finds a line, a start of it and a slice, and gives the line and column that are counted in the text in front of the place
(`LineIndex.position_counts`); on every other offset there is no slice (`LineIndex.position?_eq_error_iff`).  A later place
has a later position.
-/

namespace LayeredViews.Text

theorem utf8Length_eq_utf8Len (cs : List Char) : utf8Length cs = String.utf8Len cs := by
  induction cs with
  | nil => rfl
  | cons c cs ih => rw [utf8Length, String.utf8Len, ih, Nat.add_comm]

theorem utf8Length_toList (s : String) : utf8Length s.toList = s.utf8ByteSize := by
  rw [utf8Length_eq_utf8Len, ← String.utf8ByteSize_ofList, String.ofList_toList]

/-! ### Places of a string -/

section Places

variable {source : String}

/-- The characters in front of a place. -/
def textBefore (p : source.Pos) : List Char := (source.sliceTo p).copy.toList

/-- The characters from a place on. -/
def textFrom (p : source.Pos) : List Char := (source.sliceFrom p).copy.toList

theorem textBefore_append (p : source.Pos) : source.toList = textBefore p ++ textFrom p := by
  rw [textBefore, textFrom, ← String.toList_append, ← p.splits.eq_append]

theorem utf8Length_textBefore (p : source.Pos) : utf8Length (textBefore p) = p.offset.byteIdx := by
  rw [textBefore, utf8Length_toList, p.splits.offset_eq_rawEndPos, String.byteIdx_rawEndPos]

/-- There is more text in front of a later place. -/
theorem textBefore_of_lt {p q : source.Pos} (h : p < q) :
    ∃ more, more ≠ [] ∧ textBefore q = textBefore p ++ more := by
  have hoffsets : p.offset.byteIdx < q.offset.byteIdx := h
  rw [← utf8Length_textBefore, ← utf8Length_textBefore] at hoffsets
  have htexts := (textBefore_append p).symm.trans (textBefore_append q)
  rcases List.append_eq_append_iff.mp htexts with ⟨more, hq, -⟩ | ⟨more, hp, -⟩
  · refine ⟨more, ?_, hq⟩
    rintro rfl
    rw [hq, List.append_nil] at hoffsets
    exact Nat.lt_irrefl _ hoffsets
  · rw [hp, utf8Length_append] at hoffsets
    omega

theorem behind_before_iff {p q : source.Pos} :
    (Position.behind (textBefore p)).Before (.behind (textBefore q)) ↔ p < q := by
  have hlater : ∀ {p q : source.Pos}, p < q →
      (Position.behind (textBefore p)).Before (.behind (textBefore q)) := by
    intro p q hlt
    obtain ⟨more, hmore, htext⟩ := textBefore_of_lt hlt
    rw [htext]
    exact Position.behind_before _ hmore
  refine ⟨fun hbefore => ?_, hlater⟩
  rcases Nat.lt_trichotomy p.offset.byteIdx q.offset.byteIdx with hlt | heq | hgt
  · exact hlt
  · obtain rfl := String.Pos.ext (String.Pos.Raw.ext heq)
    exact absurd rfl hbefore.ne
  · exact absurd rfl (hbefore.trans (hlater hgt)).ne

end Places

/-! ### The index at a place -/

namespace LineIndex

theorem position?_textBefore (source : String) (p : source.Pos) :
    (ofText source.toList).position? p.offset.byteIdx = .ok (.behind (textBefore p)) := by
  rw [← utf8Length_textBefore, textBefore_append p, position?_behind]

theorem position_textBefore (source : String) (p : source.Pos) :
    (ofText source.toList).position p.offset.byteIdx = .behind (textBefore p) := by
  rw [← utf8Length_textBefore, textBefore_append p, position_behind]

/-- The index of a string does not fail at any of its places, and agrees with counting there.  The line found is the
number of line feeds in front of the place; it is one of the index, starts at or before the place, and the slice in
between is all that is in front of the place since the last line feed, or since the start.  Line and column are one
more than the number of the line and the length of that slice.  And positions are in order as their places are. -/
theorem position_counts (source : String) :
    let index := ofText source.toList
    (∀ p : source.Pos,
      let offset := p.offset.byteIdx
      let before := (source.sliceTo p).copy.toList
      let line := before.count '\n'
      let sinceNewline := before.reverse.takeWhile (· != '\n')
      index.line? offset = .ok line ∧
        (∃ start, index.starts[line]? = some start ∧ start ≤ offset ∧
          slice? start offset source.toList = some sinceNewline.reverse) ∧
        index.position? offset = .ok (index.position offset) ∧
        index.position offset = ⟨1 + line, 1 + sinceNewline.length⟩) ∧
      ∀ p q : source.Pos,
        (index.position p.offset.byteIdx).Before (index.position q.offset.byteIdx) ↔ p < q := by
  intro index
  constructor
  · intro p offset before line sinceNewline
    have htext : source.toList = before ++ textFrom p := textBefore_append p
    have hoffset : offset = utf8Length before := (utf8Length_textBefore p).symm
    have hposition : index.position offset = .behind before := position_textBefore source p
    refine ⟨?_, ?_, ?_, ?_⟩
    · rw [hoffset, ← line?_behind before (textFrom p), ← htext]
    · have hslice := slice?_behind before (textFrom p)
      rwa [← htext, ← hoffset] at hslice
    · rw [hposition]
      exact position?_textBefore source p
    · rw [hposition, Position.behind, Nat.add_comm 1, Nat.add_comm 1]
  · intro p q
    rw [position_textBefore, position_textBefore, behind_before_iff]

/-- A line of two-byte characters, an empty line and the end of the text. -/
example : let index := ofText "éé\n\nb".toList
    [0, 2, 4, 5, 6, 7].map index.position = [⟨1, 1⟩, ⟨1, 2⟩, ⟨1, 3⟩, ⟨2, 1⟩, ⟨3, 1⟩, ⟨3, 2⟩] := by
  decide +kernel

theorem isValid_of_position? {source : String} {offset : Nat} {pos : Position}
    (h : (ofText source.toList).position? offset = .ok pos) : String.Pos.Raw.IsValid source ⟨offset⟩ := by
  obtain ⟨before, rest, htext, hoffset⟩ := append_of_position? h
  refine String.Pos.Raw.isValid_iff_exists_append.mpr ⟨String.ofList before, String.ofList rest, ?_, ?_⟩
  · rw [← String.ofList_append, ← htext, String.ofList_toList]
  · have hlength := utf8Length_toList (String.ofList before)
    rw [String.toList_ofList, hoffset] at hlength
    exact String.Pos.Raw.ext hlength

/-- The index of a string fails exactly on the offsets that are no places of it, and for want of a slice. -/
theorem position?_eq_error_iff (source : String) (offset : Nat) (fault : IndexFault) :
    (ofText source.toList).position? offset = .error fault ↔
      fault = .badSlice ∧ ¬ String.Pos.Raw.IsValid source ⟨offset⟩ := by
  constructor
  · intro h
    refine ⟨eq_badSlice_of_position? h, fun hvalid => ?_⟩
    have hok := position?_textBefore source ⟨⟨offset⟩, hvalid⟩
    cases h.symm.trans hok
  · rintro ⟨rfl, hinvalid⟩
    cases hposition : (ofText source.toList).position? offset with
    | ok pos => exact absurd (isValid_of_position? hposition) hinvalid
    | error fault => rw [eq_badSlice_of_position? hposition]

/-- Inside of a character of two bytes, and behind the end. -/
example : let index := ofText "é\n".toList
    index.position? 1 = .error .badSlice ∧ index.position? 4 = .error .badSlice := by
  decide +kernel

end LineIndex

end LayeredViews.Text
