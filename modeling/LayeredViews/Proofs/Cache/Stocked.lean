import LayeredViews.Proofs.Render.Serving

/-!
# Stocked caches — which views the pages of a cache are of

The page that a view has is what its source compiles to, or what a cache that was there before holds under its
name for the digest of its source.  While a render goes on, its cache gains nothing but pages of views that it
has found, so that each page that it serves is one that some view of that name has: `serves_stocked`.
-/

namespace LayeredViews

open Template (Page)

/-- The pages that a view has, given a cache. -/
inductive View.Has (cache : Option (PageCache Page)) (v : View) : Page → Prop
  | compiled {page : Page} (h : v.compiled = .ok page) : Has cache v page
  | cached {c : PageCache Page} {source : String} {page : Page} (hc : c ∈ cache) (read : v.source = .ok source)
    (entry : c.entry? v.fullName = some ⟨Digest.ofText source, page⟩) : Has cache v page

namespace Bench

/-- Each entry was in the cache before, or is the page of a view that has been found since. -/
def Stocked (f : Finder) (cache : Option (PageCache Page)) (told : List Event) : Bench → Prop :=
  All fun template entry => (∃ c ∈ cache, c.entry? template = some entry) ∨
    ∃ u, f.FoundAt (lookupsOf told) u ∧ u.fullName = template ∧ u.compiled = .ok entry.page

/-- The page, if there is one, is one that a view of the same name has, and which has been found. -/
def FitsStock (f : Finder) (cache : Option (PageCache Page)) (told : List Event) (v : View)
    (r : Except ComposeError Page) : Prop :=
  ∀ page, r = .ok page → ∃ u, f.FoundAt (lookupsOf told) u ∧ u.fullName = v.fullName ∧ u.Has cache page

variable {f : Finder} {cache : Option (PageCache Page)} {told more : List Event} {b : Bench}

theorem Stocked.mono (h : b.Stocked f cache told) (hmore : told ⊆ more) : b.Stocked f cache more := by
  intro c hc template entry hentry
  rcases h c hc template entry hentry with hbefore | ⟨u, hfound, hu⟩
  · exact Or.inl hbefore
  · exact Or.inr ⟨u, hfound.told hmore, hu⟩

/-- At first there is nothing but what is in the cache. -/
theorem stocked_self (f : Finder) (b : Bench) (told : List Event) : b.Stocked f b.cache told :=
  fun c hc _ _ hentry => Or.inl ⟨c, hc, hentry⟩

theorem serves_stocked (f : Finder) (cache : Option (PageCache Page)) :
    Serves f (fun b => b.Stocked f cache b.events) (FitsStock f cache) where
  note {b} e hb := by
    have hkeeps : b.events ⊆ (b.note e).events := (b.events_note e).symm ▸ List.subset_append_left _ _
    exact Stocked.mono hb hkeeps
  pageOf {b v} hb hv := by
    obtain ⟨r, b', hend, hpaged⟩ := Compose.pageOf_paged hb fun source page hs hparse =>
      Or.inr ⟨v, hv, rfl, by rw [View.compiled_of_source hs, hparse]; rfl⟩
    have hkeeps : b.events ⊆ b'.events := hpaged.events ▸ List.subset_append_left _ _
    refine ⟨r, b', hend, Stocked.mono hpaged.good hkeeps, fun page hpage => ?_, hpaged.events⟩
    rcases hpaged.result with hr | ⟨source, page', hs, hr, hgood⟩
    · exact ⟨v, hv.told hkeeps, rfl, .compiled (hr.symm.trans hpage)⟩
    obtain rfl := Except.ok.inj (hr.symm.trans hpage)
    rcases hgood with ⟨c, hc, hentry⟩ | ⟨u, hfound, hname, hcompiled⟩
    · exact ⟨v, hv.told hkeeps, rfl, .cached hc hs hentry⟩
    · exact ⟨u, hfound.told hkeeps, hname, .compiled hcompiled⟩
  mono {told more v r} hfits hmore page hpage := by
    obtain ⟨u, hfound, hu⟩ := hfits page hpage
    exact ⟨u, hfound.told hmore, hu⟩

end Bench

namespace Session

/-- The layer is the page of a view that has been found by a lookup. -/
def Fetched (s : Session) (cache : Option (PageCache Page)) (told : List Event) (layer : Layer) : Prop :=
  ∃ v, s.finder.FoundAt (lookupsOf told) v ∧ layer.template = v.fullName ∧ v.Has cache layer.page

/-- The render may go on: its cache holds nothing but what was there before and pages of views found. -/
def Serving (s : Session) (cache : Option (PageCache Page)) (st : State) : Prop :=
  st.bench.Stocked s.finder cache st.bench.events

variable {s : Session} {cache : Option (PageCache Page)} {told more : List Event}

theorem Fetched.mono {layer : Layer} (h : s.Fetched cache told layer) (hmore : told ⊆ more) :
    s.Fetched cache more layer := by
  obtain ⟨v, hfound, hv⟩ := h
  exact ⟨v, hfound.told hmore, hv⟩

theorem fetched_of_served {v : View} {layer : Layer} (htemplate : layer.template = v.fullName)
    (h : s.finder.Served (Bench.FitsStock s.finder cache) told v (.ok layer.page)) :
    s.Fetched cache told layer := by
  obtain ⟨u, hfound, hname, hpage⟩ := h.fits layer.page rfl
  exact ⟨u, hfound, htemplate.trans hname.symm, hpage⟩

end Session

end LayeredViews
