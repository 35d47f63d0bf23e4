import LayeredViews.Proofs.Template.TagPositions

/-!
# Tag order — tags stand at ascending positions of their source

The scan comes to the tags of a source one after the other.  What it may still tell stands at or behind the
place where it has come to, or, inside of a tag, where that tag was opened (`scanFrom_ascends`).  So no two tags
of a source have the same position: `places_ascending`.
-/

namespace LayeredViews.Template

open Text (LineIndex Position utf8Length)

namespace Scan

/-- Where the tags of a scan stand, and then the one that is never closed. -/
def places (s : Scan) : List Position :=
  s.tokens.filterMap Token.pos? ++ s.unclosed.toList

theorem places_cons (t : Token) (s : Scan) : (s.cons t).places = t.pos?.toList ++ s.places := by
  cases t <;> rfl

theorem places_consText (pending : List Char) (s : Scan) : (s.consText pending).places = s.places := by
  unfold consText
  split
  · rfl
  · rfl

/-- Positions in ascending order, none of them before the first one. -/
structure AscendsFrom (first : Position) (ps : List Position) : Prop where
  ascending : ps.Pairwise Position.Before
  bounded : ∀ p ∈ ps, p = first ∨ first.Before p

variable {first first' : Position} {ps : List Position}

theorem AscendsFrom.nil : AscendsFrom first [] := ⟨.nil, by simp⟩

theorem AscendsFrom.before (h : AscendsFrom first' ps) (hfirst : first.Before first') :
    ∀ p ∈ ps, first.Before p := by
  intro p hp
  rcases h.bounded p hp with rfl | hlater
  · exact hfirst
  · exact hfirst.trans hlater

theorem AscendsFrom.mono (h : AscendsFrom first' ps) (hfirst : first.Before first') : AscendsFrom first ps :=
  ⟨h.ascending, fun p hp => Or.inr (h.before hfirst p hp)⟩

theorem AscendsFrom.cons (h : AscendsFrom first' ps) (hfirst : first.Before first') :
    AscendsFrom first (first :: ps) where
  ascending := List.pairwise_cons.mpr ⟨h.before hfirst, h.ascending⟩
  bounded := List.forall_mem_cons.mpr ⟨Or.inl rfl, fun p hp => Or.inr (h.before hfirst p hp)⟩

/-- The first place that a scan may still tell: that of the tag it is inside of, or where it has come to. -/
def nextPlace (index : LineIndex) (before : List Char) : ScanMode → Position
  | .text _ => .behind before
  | .tag opened _ => index.position opened

/-- The tag that a scan is inside of was opened before the place where the scan has come to. -/
def OpenedBefore (index : LineIndex) (before : List Char) : ScanMode → Prop
  | .text _ => True
  | .tag opened _ => (index.position opened).Before (.behind before)

theorem scanFrom_ascends {source : List Char} (before : List Char) {mode : ScanMode} {offset : Nat}
    {rest : List Char} (hsource : source = before ++ rest) (hoffset : offset = utf8Length before)
    (hmode : OpenedBefore (.ofText source) before mode) :
    AscendsFrom (nextPlace (.ofText source) before mode)
      (scanFrom (.ofText source) mode offset rest).places := by
  fun_induction scanFrom (.ofText source) mode offset rest generalizing before with
  | case1 pending offset cs ih =>
    have hsize : offset + 3 = utf8Length (before ++ ['\\', '{', '{']) := by
      simp [hoffset, Text.utf8Length]
      decide
    have hrest := ih (before ++ ['\\', '{', '{']) (by simp [hsource]) hsize trivial
    exact hrest.mono (Position.behind_before before (by simp))
  | case2 pending offset cs ih =>
    have hsize : offset + 2 = utf8Length (before ++ ['{', '{']) := by
      simp [hoffset, Text.utf8Length]
      decide
    have hhere : (LineIndex.ofText source).position offset = .behind before := by
      rw [hsource, hoffset, LineIndex.position_behind]
    have hopened : OpenedBefore (.ofText source) (before ++ ['{', '{']) (.tag offset []) := by
      show ((LineIndex.ofText source).position offset).Before _
      rw [hhere]
      exact Position.behind_before before (by simp)
    have hrest := ih (before ++ ['{', '{']) (by simp [hsource]) hsize hopened
    rw [nextPlace, hhere] at hrest
    rwa [places_consText]
  | case3 pending offset c cs _ _ ih =>
    have hrest := ih (before ++ [c]) (by simp [hsource]) (by simp [hoffset, Text.utf8Length]) trivial
    exact hrest.mono (Position.behind_before before (by simp))
  | case4 pending offset =>
    rw [places_consText]
    exact .nil
  | case5 opened body offset cs ih =>
    have hsize : offset + 2 = utf8Length (before ++ ['}', '}']) := by
      simp [hoffset, Text.utf8Length]
      decide
    have hrest := ih (before ++ ['}', '}']) (by simp [hsource]) hsize trivial
    rw [places_cons]
    exact hrest.cons (hmode.trans (Position.behind_before before (by simp)))
  | case6 opened body offset c cs _ ih =>
    exact ih (before ++ [c]) (by simp [hsource]) (by simp [hoffset, Text.utf8Length])
      (hmode.trans (Position.behind_before before (by simp)))
  | case7 opened body offset => exact AscendsFrom.nil.cons hmode

/-- The tags of a source stand at ascending positions, one that is never closed behind all others. -/
theorem places_ascending (source : String) : (ofText source).places.Pairwise Position.Before := by
  have hall : AscendsFrom (nextPlace (.ofText source.toList) [] (.text [])) (ofText source).places :=
    scanFrom_ascends [] rfl rfl (by trivial)
  exact hall.ascending

end Scan

end LayeredViews.Template
