import LayeredViews.Proofs.Render.Serving

/-!
# Trusted benches — compiling as if there were no cache

A bench can be trusted for a catalog if each view of the catalog compiles on it to what it compiles to without
a cache, and the bench can still be trusted afterwards.  A bench with a sound cache can be, as long as digests
tell sources apart; one without a cache always can.
-/

namespace LayeredViews

/-- Benches of a kind that compiling keeps, and on which a view compiles to what it compiles to without a
cache. -/
structure Bench.Trust (f : Finder) (I : Bench → Prop) : Prop where
  note : ∀ {b} (e : Event), I b → I (b.note e)
  pageOf : ∀ {b v}, I b → f.Offers v →
    ∃ b', ending (Compose.pageOf v) b = (v.compiled, b') ∧ I b' ∧
      b'.events = b.events ++ [.read v.fullName]

namespace Bench

variable {f : Finder} {I : Bench → Prop}

/-- A sound cache can be trusted as long as digests tell sources apart. -/
theorem trust_sound {S : Set String} (hinj : Set.InjOn Digest.ofText S) (hS : f.sources ⊆ S) :
    Trust f (Bench.Sound S) where
  note _ hb := hb
  pageOf {b v} hb hv := by
    obtain ⟨b', hend, hsound, hevents, -⟩ :=
      Compose.pageOf_sound hinj (fun _ hsource => hS ⟨_, hv, hsource⟩) hb
    exact ⟨b', hend, hsound, hevents⟩

theorem trust_uncached (f : Finder) : Trust f fun b => b.cache = none where
  note _ hb := hb
  pageOf {b v} hb _ := by
    -- whatever the source is, no other one has to be told from it
    have hinj : Set.InjOn Digest.ofText { source | v.source = .ok source } :=
      fun source hs source' hs' _ => Except.ok.inj (hs.symm.trans hs')
    have hsound : b.Sound { source | v.source = .ok source } := by
      intro cache hcache
      rw [hb] at hcache
      cases hcache
    obtain ⟨b', hend, -, hevents, hcache⟩ := Compose.pageOf_sound hinj (fun _ hs => hs) hsound
    exact ⟨b', hend, hcache hb, hevents⟩

/-- On a trusted bench views compile to what they compile to without a cache. -/
theorem Trust.serves (h : Trust f I) : Serves f I fun _ v r => v.compiled = r where
  note := h.note
  pageOf {b v} hb hv := by
    obtain ⟨b', hend, hb', hevents⟩ := h.pageOf hb hv.offers
    exact ⟨_, b', hend, hb', rfl, hevents⟩
  mono hr _ := hr

end Bench

end LayeredViews
