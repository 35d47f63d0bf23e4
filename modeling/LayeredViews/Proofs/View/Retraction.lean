import LayeredViews.Proofs.View.Spelling

/-!
# Retraction — a path cut into directory and name, and put together again

The path of an address that was read off a path has the same segments as that path (`segmentsOf_path_ofPath`), whatever
separators stood between and around them.  So reading it again gives the same address, and the segments, which are
all that the address depends on, are also told by it.
-/

namespace LayeredViews

namespace Address

/-- The segments of a path are the non-empty pieces between its separators. -/
theorem segmentsOf_eq (path : String) :
    segmentsOf path = (path.toList.splitOnP isSeparator).filter fun segment => !segment.isEmpty :=
  Text.words_eq_splitOnP isSeparator path.toList

/-- The path of an address keeps the segments of the path that spelled it. -/
theorem segmentsOf_path_ofPath (path : String) : segmentsOf (ofPath path).path = segmentsOf path := by
  rcases ofPath_cases path with ⟨hnil, hempty⟩ | ⟨dirs, name, hsegments, hwithin, hdirs, hname⟩
  · rw [hempty, hnil, path_of_root]
    rfl
  · rw [hwithin, hsegments, segmentsOf_path_within hdirs hname]

theorem ofPath_path_ofPath (path : String) : ofPath (ofPath path).path = ofPath path := by
  rw [ofPath, segmentsOf_path_ofPath, ofPath]

/-- Two paths spell one address exactly if they have the same segments. -/
theorem ofPath_eq_iff {path other : String} :
    ofPath other = ofPath path ↔ segmentsOf other = segmentsOf path := by
  constructor
  · intro haddress
    rw [← segmentsOf_path_ofPath other, haddress, segmentsOf_path_ofPath]
  · intro hsegments
    rw [ofPath, hsegments, ofPath]

theorem empty_iff_segmentsOf_eq_nil (path : String) :
    ((ofPath path).location = "" ∧ (ofPath path).name = "") ↔ segmentsOf path = [] := by
  constructor
  · rintro ⟨-, hname⟩
    rcases ofPath_cases path with ⟨hnil, -⟩ | ⟨dirs, name, -, hwithin, -, hsegment⟩
    · exact hnil
    · rw [hwithin] at hname
      have hnothing : name = [] := by simpa [within] using congrArg String.toList hname
      exact absurd hnothing hsegment.1
  · intro hnil
    rw [ofPath, hnil]
    exact ⟨rfl, rfl⟩

/-- Reading an address off a path is a retraction.  The segments are the non-empty pieces of the path between slashes
and backslashes.  The name is the last of them, and the location the others with single slashes between; both are empty
exactly if there is no segment.  The address is spelled by its own path again, and by another path exactly if that has
the same segments. -/
theorem ofPath_retraction (path : String) :
    let segments := (path.toList.splitOnP isSeparator).filter fun segment => !segment.isEmpty
    ((segments = [] ∧ ofPath path = ⟨"", ""⟩) ∨
        ∃ dirs name, segments = dirs ++ [name] ∧ (∀ d ∈ dirs, IsSegment d) ∧ IsSegment name ∧
          ofPath path = ⟨String.ofList (['/'].intercalate dirs), String.ofList name⟩) ∧
      ((ofPath path).location = "" ∧ (ofPath path).name = "" ↔ segments = []) ∧
      ofPath (ofPath path).path = ofPath path ∧
      ∀ other, ofPath other = ofPath path ↔
        (other.toList.splitOnP isSeparator).filter (fun segment => !segment.isEmpty) = segments := by
  intro segments
  have hsegments : segmentsOf path = segments := segmentsOf_eq path
  refine ⟨?_, ?_, ofPath_path_ofPath path, fun other => ?_⟩
  · rw [← hsegments]
    rcases ofPath_cases path with hempty | ⟨dirs, name, hcut, hwithin, hdirs, hname⟩
    · exact Or.inl hempty
    · refine Or.inr ⟨dirs, name, hcut, hdirs, hname, ?_⟩
      rw [hwithin, within, Text.joinWith_eq_intercalate]
  · rw [← hsegments]
    exact empty_iff_segmentsOf_eq_nil path
  · rw [ofPath_eq_iff, segmentsOf_eq other, hsegments]

example : ofPath "\\a//b\\/c/" = ⟨"a/b", "c"⟩ := by decide +kernel

end Address

end LayeredViews
