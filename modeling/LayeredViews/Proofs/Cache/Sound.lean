import LayeredViews.Proofs.Related
import LayeredViews.Render.Compose
import Mathlib.Data.Set.Function

/-!
# Sound caches — what a cached page is the page of

Whatever is true of all entries of a cache and of what compiling adds to it stays true: `pageOf_paged` says
what a view compiles to with such a cache.  A cache is sound for a set of sources if each of its pages is what
a source of the set with the recorded digest compiles to.  As long as no two sources of the set have one
digest, compiling with a sound cache gives what compiling without one gives: `pageOf_sound`.
-/

namespace LayeredViews

open Template (Page)

/-! ### Caches -/

namespace PageCache

/-- Each entry is good for the template that it stands under. -/
def All (Good : String → CacheEntry Page → Prop) (cache : PageCache Page) : Prop :=
  ∀ template entry, cache.entry? template = some entry → Good template entry

/-- Every page is what a source of `S` with the recorded digest compiles to. -/
def Sound (S : Set String) (cache : PageCache Page) : Prop :=
  ∀ template entry, cache.entry? template = some entry →
    ∃ source ∈ S, Digest.ofText source = entry.digest ∧ Template.parse source = .ok entry.page

variable {Good : String → CacheEntry Page → Prop} {S : Set String} {cache : PageCache Page}

theorem All.invalidate (h : cache.All Good) (template : String) : (cache.invalidate template).All Good := by
  intro other entry he
  rw [entry?_invalidate] at he
  split at he
  · cases he
  · exact h other entry he

theorem All.insert (h : cache.All Good) {template digest : String} {page : Page}
    (hnew : Good template ⟨digest, page⟩) : (cache.insert template digest page).All Good := by
  intro other entry he
  rw [entry?_insert] at he
  split at he
  · next heq =>
    obtain rfl := Option.some.inj he
    exact heq ▸ hnew
  · exact h other entry he

/-- What a cache is asked for and gives is good under the digest asked for. -/
theorem All.get (h : cache.All Good) (template digest : String) :
    (cache.get template digest).2.All Good ∧
      ∀ page ∈ (cache.get template digest).1, Good template ⟨digest, page⟩ := by
  refine ⟨fun other entry he => ?_, fun page hpage => h template _ (get_eq_some_iff.mp hpage)⟩
  rw [entry?_get] at he
  split at he
  · exact h other entry (Option.filter_eq_some_iff.mp he).1
  · exact h other entry he

theorem empty_sound : (empty : PageCache Page).Sound S := by
  intro template entry h
  cases h

theorem Sound.invalidate (h : cache.Sound S) (template : String) :
    (cache.invalidate template).Sound S :=
  All.invalidate h template

end PageCache

/-! ### Benches -/

/-- A journal without what tells of compiling. -/
def besidesCompiling (journal : List Event) : List Event :=
  journal.filter fun
    | .compiled _ => false
    | _ => true

namespace Bench

/-- If there is a cache, all its entries are good. -/
def All (Good : String → CacheEntry Page → Prop) (b : Bench) : Prop :=
  ∀ cache ∈ b.cache, cache.All Good

/-- If there is a cache, it is sound. -/
def Sound (S : Set String) (b : Bench) : Prop :=
  ∀ cache ∈ b.cache, cache.Sound S

/-- The journal without what tells of compiling. -/
def events (b : Bench) : List Event := besidesCompiling b.journal.toList

/-- Two benches whose caches are sound, with one journal but for what tells of compiling. -/
structure Alike (S : Set String) (b b' : Bench) : Prop where
  left : b.Sound S
  right : b'.Sound S
  events : b.events = b'.events

variable {S : Set String} {b : Bench} {view : View} {source : String}

theorem events_subset_journal (b : Bench) : b.events ⊆ b.journal.toList :=
  List.filter_sublist.subset

theorem events_note_compiled (b : Bench) (template : String) :
    (b.note (.compiled template)).events = b.events := by
  simp [events, note, besidesCompiling]

theorem events_note_read (b : Bench) (template : String) :
    (b.note (.read template)).events = b.events ++ [.read template] := by
  simp [events, note, besidesCompiling]

theorem ending_readSource (view : View) (b : Bench) :
    ending (readSource view) b = (view.source, b.note (.read view.fullName)) := by
  unfold ending readSource
  cases view.source <;> rfl

theorem ending_compileSource (view : View) (source : String) (b : Bench) :
    ending (compileSource view source) b =
      ((Template.parse source).mapError (⟨view.fullName, .compilation, ·⟩),
        b.note (.compiled view.fullName)) := by
  unfold ending compileSource
  cases Template.parse source <;> rfl

theorem All.store {Good : String → CacheEntry Page → Prop} (h : b.All Good) {template : String} {page : Page}
    (hnew : Good template ⟨Digest.ofText source, page⟩) : (b.store template source page).All Good := by
  intro cache hcache
  obtain ⟨cache', hcache', rfl⟩ := Option.map_eq_some_iff.mp hcache
  exact (h cache' hcache').insert hnew

end Bench

/-! ### Compiling -/

/-- The page of a view, compiled without a cache. -/
def View.compiled (view : View) : Except ComposeError Page :=
  match view.source with
  | .error e => .error (.content e)
  | .ok source =>
    (Template.parse source).mapError fun ds => .failure ⟨view.fullName, .compilation, ds⟩

theorem View.compiled_of_source {view : View} {source : String} (h : view.source = .ok source) :
    view.compiled =
      (Template.parse source).mapError fun ds => .failure ⟨view.fullName, .compilation, ds⟩ := by
  unfold View.compiled
  rw [h]

namespace Compose

variable {S : Set String} {b : Bench} {view : View} {source : String}

/-- What compiling a view on a bench with good entries comes to: the page of its source, or one that was
cached under its name for the digest of its source. -/
structure Paged (Good : String → CacheEntry Page → Prop) (view : View) (before : Bench)
    (r : Except ComposeError Page) (after : Bench) : Prop where
  good : after.All Good
  events : after.events = before.events ++ [.read view.fullName]
  uncached : before.cache = none → after.cache = none
  result : r = view.compiled ∨ ∃ source page, view.source = .ok source ∧ r = .ok page ∧
    Good view.fullName ⟨Digest.ofText source, page⟩

variable {Good : String → CacheEntry Page → Prop}

theorem fetch_all (hb : b.All Good) (template source : String) :
    ∃ page? b', ending (fetch template source) b = (.ok page?, b') ∧ b'.All Good ∧
      b'.events = b.events ∧ (b.cache = none → b'.cache = none) ∧
      ∀ page ∈ page?, Good template ⟨Digest.ofText source, page⟩ := by
  unfold ending fetch
  cases hc : b.cache with
  | none => exact ⟨none, b, rfl, hb, rfl, fun _ => hc, by simp⟩
  | some cache =>
    obtain ⟨hgood, hpage⟩ := (hb cache hc).get template (Digest.ofText source)
    refine ⟨_, { b with cache := some _ }, rfl, fun cache' hcache' => ?_, rfl, nofun, hpage⟩
    obtain rfl := Option.some.inj hcache'
    exact hgood

theorem pageOf_paged (hb : b.All Good) (hown : ∀ source page, view.source = .ok source →
    Template.parse source = .ok page → Good view.fullName ⟨Digest.ofText source, page⟩) :
    ∃ r b', ending (pageOf view) b = (r, b') ∧ Paged Good view b r b' := by
  have hread := Bench.ending_readSource view b
  unfold pageOf
  rcases hs : view.source with e | source <;> rw [hs] at hread
  · refine ⟨_, _, ending_bind_error (ending_adaptExcept_error hread ComposeError.content) _, ?_⟩
    refine ⟨hb, b.events_note_read _, id, Or.inl ?_⟩
    unfold View.compiled
    rw [hs]
  obtain ⟨page?, b₁, hfetch, hb₁, hevents, hcache, hpage⟩ :=
    fetch_all (b := b.note (.read view.fullName)) hb view.fullName source
  rw [Bench.events_note_read] at hevents
  rw [ending_bind_ok (ending_adaptExcept_ok hread ComposeError.content), ending_bind_ok hfetch]
  cases page? with
  | some page => exact ⟨.ok page, b₁, rfl, hb₁, hevents, hcache, Or.inr ⟨source, page, hs, rfl, hpage page rfl⟩⟩
  | none =>
    have hcompile := Bench.ending_compileSource view source b₁
    have hevents' : (b₁.note (.compiled view.fullName)).events = b₁.events :=
      b₁.events_note_compiled view.fullName
    have hcompiled := View.compiled_of_source hs
    dsimp only
    rcases hparse : Template.parse source with ds | page <;> rw [hparse] at hcompile hcompiled
    · refine ⟨_, _, ending_bind_error (ending_adaptExcept_error hcompile ComposeError.failure) _, ?_⟩
      exact ⟨hb₁, hevents'.trans hevents, hcache, Or.inl hcompiled.symm⟩
    · refine ⟨_, _, (ending_bind_ok (ending_adaptExcept_ok hcompile ComposeError.failure) _).trans rfl, ?_⟩
      refine ⟨Bench.All.store hb₁ (hown source page hs hparse), hevents'.trans hevents, fun hnone => ?_,
        Or.inl hcompiled.symm⟩
      show Option.map _ b₁.cache = none
      rw [hcache hnone]
      rfl

/-- With a sound cache a view compiles to what it compiles to without one, and the cache stays sound. -/
theorem pageOf_sound (hinj : Set.InjOn Digest.ofText S)
    (hview : ∀ source, view.source = .ok source → source ∈ S) (hb : b.Sound S) :
    ∃ b', ending (pageOf view) b = (view.compiled, b') ∧ b'.Sound S ∧
      b'.events = b.events ++ [.read view.fullName] ∧ (b.cache = none → b'.cache = none) := by
  obtain ⟨r, b', hend, hpaged⟩ := pageOf_paged hb fun source page hs hparse =>
    ⟨source, hview source hs, rfl, hparse⟩
  obtain rfl : r = view.compiled := by
    rcases hpaged.result with hr | ⟨source, page, hs, rfl, source', hsource', hdigest, hparse⟩
    · exact hr
    · obtain rfl : source' = source := hinj hsource' (hview source hs) hdigest
      rw [View.compiled_of_source hs, hparse]
      rfl
  exact ⟨b', hend, hpaged.good, hpaged.events, hpaged.uncached⟩

theorem pageOf_respects (hinj : Set.InjOn Digest.ofText S)
    (hview : ∀ source, view.source = .ok source → source ∈ S) :
    Respects (Bench.Alike S) (pageOf view) := by
  intro b b' h
  obtain ⟨c, hc, hsound, hevents, -⟩ := pageOf_sound hinj hview h.left
  obtain ⟨c', hc', hsound', hevents', -⟩ := pageOf_sound hinj hview h.right
  rw [hc, hc']
  refine ⟨rfl, hsound, hsound', ?_⟩
  rw [hevents, hevents', h.events]

/-- Compiling some views respects what compiling each of them respects. -/
theorem layersOf_respects_of {r : Bench → Bench → Prop} {views : List View}
    (hviews : ∀ view ∈ views, Respects r (pageOf view)) : Respects r (layersOf views) := by
  induction views with
  | nil => exact .pure []
  | cons view views ih =>
    have hpage := hviews view (by simp)
    cases views with
    | nil => exact hpage.bind fun page => .pure _
    | cons next others =>
      have hothers := ih fun v hv => hviews v (List.mem_cons_of_mem view hv)
      exact hpage.bind fun page => hothers.bind fun layers => .pure _

theorem layersOf_respects (hinj : Set.InjOn Digest.ofText S) {views : List View}
    (hviews : ∀ view ∈ views, ∀ source, view.source = .ok source → source ∈ S) :
    Respects (Bench.Alike S) (layersOf views) :=
  layersOf_respects_of fun view hview => pageOf_respects hinj (hviews view hview)

end Compose

end LayeredViews
