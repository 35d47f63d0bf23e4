import LayeredViews.Layering
import LayeredViews.Proofs.Ending
import Mathlib.Data.Set.Defs

/-!
# Offered views — where the members of a layering come from

Whatever a search finds is a view that the catalog gave for some address, and for one that the search has
asked for.
-/

namespace LayeredViews

/-- The catalog gives the view for some address. -/
def Finder.Offers (f : Finder) (v : View) : Prop :=
  ∃ a, f.catalog.locate f.extensions a = .ok (some v)

/-- The catalog gives the view for an address among some. -/
def Finder.FoundAt (f : Finder) (asked : List Address) (v : View) : Prop :=
  ∃ a ∈ asked, f.catalog.locate f.extensions a = .ok (some v)

/-- The sources of the views that the catalog gives. -/
def Finder.sources (f : Finder) : Set String :=
  { source | ∃ v, f.Offers v ∧ v.source = .ok source }

variable {f : Finder} {path : String} {asked : History Address} {v : View}

theorem Finder.FoundAt.offers {addresses : List Address} (h : f.FoundAt addresses v) : f.Offers v := by
  obtain ⟨a, -, ha⟩ := h
  exact ⟨a, ha⟩

theorem Finder.FoundAt.mono {addresses more : List Address} (h : f.FoundAt addresses v)
    (hmore : addresses ⊆ more) : f.FoundAt more v := by
  obtain ⟨a, hmem, ha⟩ := h
  exact ⟨a, hmore hmem, ha⟩

/-! ### Single lookups -/

theorem Search.ending_lookUp (catalog : Catalog) (extensions : List String) (a : Address) :
    ending (lookUp catalog extensions a) asked = (catalog.locate extensions a, asked.push a) := by
  unfold ending lookUp
  cases catalog.locate extensions a <;> rfl

theorem Finder.asked_subset_locate (f : Finder) (path : String) (asked : History Address) :
    asked.toList ⊆ (ending (f.locate path) asked).2.toList := by
  unfold Finder.locate
  dsimp only
  split
  · rw [Search.ending_lookUp, History.toList_push]
    exact List.subset_append_left _ _
  · exact List.Subset.refl _

theorem Finder.found_of_locate (h : (ending (f.locate path) asked).1 = .ok (some v)) :
    f.FoundAt (ending (f.locate path) asked).2.toList v := by
  unfold Finder.locate at h ⊢
  dsimp only at h ⊢
  split at h
  · next hplain =>
    rw [if_pos hplain, Search.ending_lookUp, History.toList_push]
    rw [Search.ending_lookUp] at h
    exact ⟨_, by simp, h⟩
  · cases h

theorem Finder.found_of_require (h : (ending (f.require path) asked).1 = .ok v) :
    f.FoundAt (ending (f.require path) asked).2.toList v := by
  have hlocate : (ending (f.locate path) asked).1 = .ok (some v) →
      f.FoundAt (ending (f.locate path) asked).2.toList v := Finder.found_of_locate
  unfold Finder.require at h ⊢
  rw [ending_bind] at h ⊢
  rcases hr : ending (f.locate path) asked with ⟨_ | found, asked'⟩ <;> rw [hr] at h hlocate
  · cases h
  · cases found with
    | none => cases h
    | some v' =>
      obtain rfl := Except.ok.inj h
      exact hlocate rfl

/-! ### Layerings -/

namespace Layering

theorem asked_subset_locateAll (f : Finder) (leafPath : String) (candidates : List String)
    (asked : History Address) :
    asked.toList ⊆ (ending (locateAll f leafPath candidates) asked).2.toList := by
  induction candidates generalizing asked with
  | nil => exact List.Subset.refl _
  | cons candidate others ih =>
    have hlocate := f.asked_subset_locate candidate asked
    rw [locateAll]
    split
    · exact ih asked
    rw [ending_bind]
    rcases hr : ending (f.locate candidate) asked with ⟨_ | found, asked'⟩ <;> rw [hr] at hlocate
    · exact hlocate
    cases found with
    | none => exact List.Subset.trans hlocate (ih asked')
    | some view =>
      have hothers := ih asked'
      dsimp only
      rw [ending_bind]
      rcases hr' : ending (locateAll f leafPath others) asked' with ⟨_ | views, asked''⟩ <;>
        rw [hr'] at hothers <;> exact List.Subset.trans hlocate hothers

theorem found_of_locateAll {leafPath : String} {candidates : List String} {views : List View}
    (h : (ending (locateAll f leafPath candidates) asked).1 = .ok views) :
    ∀ v ∈ views, f.FoundAt (ending (locateAll f leafPath candidates) asked).2.toList v := by
  induction candidates generalizing asked views with
  | nil =>
    obtain rfl := Except.ok.inj h
    simp
  | cons candidate others ih =>
    rw [locateAll] at h ⊢
    split at h
    · next hsame =>
      rw [if_pos hsame]
      exact ih h
    next hother =>
    rw [if_neg hother]
    rw [ending_bind] at h ⊢
    rcases hr : ending (f.locate candidate) asked with ⟨_ | found, asked'⟩ <;> rw [hr] at h
    · cases h
    cases found with
    | none => exact ih h
    | some view =>
      have hview := Finder.found_of_locate (congrArg Prod.fst hr)
      have hasked := asked_subset_locateAll f leafPath others asked'
      dsimp only at h ⊢
      rw [ending_bind] at h ⊢
      rcases hr' : ending (locateAll f leafPath others) asked' with ⟨_ | views', asked''⟩ <;>
        rw [hr'] at h hasked
      · cases h
      obtain rfl := Except.ok.inj h
      have hothers := ih (congrArg Prod.fst hr')
      rw [hr] at hview
      rw [hr'] at hothers
      exact List.forall_mem_cons.mpr ⟨hview.mono hasked, hothers⟩

/-- The members of a resolved layering are views of the catalog, found at addresses asked for. -/
theorem found_of_resolve {layoutName : String} {l : Layering}
    (h : (ending (resolve f layoutName path) asked).1 = .ok l) :
    ∀ v ∈ l.members, f.FoundAt (ending (resolve f layoutName path) asked).2.toList v := by
  unfold resolve at h ⊢
  rw [ending_bind] at h ⊢
  rcases hr : ending (f.require path) asked with ⟨_ | leaf, asked'⟩ <;> rw [hr] at h
  · cases h
  have hleaf := Finder.found_of_require (congrArg Prod.fst hr)
  have hasked := asked_subset_locateAll f leaf.path (candidates layoutName leaf.path) asked'
  dsimp only at h ⊢
  rw [ending_bind] at h ⊢
  rcases hr' : ending (layoutsOf f layoutName leaf.path) asked' with ⟨_ | layouts, asked''⟩ <;>
    rw [hr'] at h
  · cases h
  obtain rfl := Except.ok.inj h
  have hlayouts := found_of_locateAll (congrArg Prod.fst hr')
  unfold layoutsOf at hr'
  rw [hr] at hleaf
  rw [hr'] at hlayouts hasked
  intro v hv
  rcases List.mem_append.mp hv with hv | hv
  · exact hlayouts v hv
  · obtain rfl := List.mem_singleton.mp hv
    exact hleaf.mono hasked

/-- The members of a resolved layering are views of the catalog. -/
theorem offers_of_resolve {layoutName : String} {l : Layering}
    (h : (ending (resolve f layoutName path) asked).1 = .ok l) : ∀ v ∈ l.members, f.Offers v :=
  fun v hv => (found_of_resolve h v hv).offers

end Layering

end LayeredViews
