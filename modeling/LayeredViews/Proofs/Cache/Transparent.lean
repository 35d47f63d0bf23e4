import LayeredViews.Engine
import LayeredViews.Proofs.Cache.Render

/-!
# Transparent caches — whole histories of an engine with and without a cache

Two engines that differ in their caches alone answer every request alike, and still differ in their
caches alone afterwards.  So no history of requests tells an engine that caches from one that does not, but
for what they say about the cache itself; and no render depends on the renders before it.
-/

namespace LayeredViews

/-! ### Answers -/

/-- A response without what it tells of the cache. -/
def Response.besidesCache : Response → Response
  | .cached _ => .done
  | response => response

/-- An answer without what it tells of the cache and of compiling. -/
def Answer.besidesCache (a : Answer) : Answer :=
  ⟨a.response.besidesCache, besidesCompiling a.journal, a.cancelled⟩

/-! ### Histories -/

/-- The settings with or without a cache. -/
def Settings.caching (settings : Settings) (cached : Bool) : Settings :=
  { settings with cacheCompiled := cached }

/-- The catalog that a request brings. -/
def Request.catalog? : Request → Option Catalog
  | .replaceCatalog catalog => some catalog
  | _ => none

namespace Engine

/-- Answers requests in order. -/
def run (e : Engine) : List Request → List Answer × Engine
  | [] => ([], e)
  | request :: requests =>
    let (answer, e') := e.step request
    let (answers, e'') := e'.run requests
    (answer :: answers, e'')

/-- The sources that occur in a history: those of its catalogs, the engine's own and the ones that
requests bring. -/
def sources (e : Engine) (requests : List Request) : Set String :=
  { source | ∃ catalog ∈ e.catalog :: requests.filterMap Request.catalog?,
      source ∈ Finder.sources ⟨catalog, e.settings.extensions⟩ }

/-- The engine with another cache, or without one. -/
def recached (e : Engine) (cached : Bool) (cache : Option (PageCache Template.Page)) : Engine :=
  { e with settings := e.settings.caching cached, cache }

/-- The engine as it would be had it only just been told its catalog and about the cancel flag. -/
def restarted (e : Engine) : Engine :=
  { new e.settings e.catalog with raises := e.raises, cancelled := e.cancelled }

/-- Two engines with sound caches, with or without them, and nothing else between them. -/
inductive Alike (S : Set String) (e : Engine) : Engine → Prop where
  | recached {cached : Bool} {cache : Option (PageCache Template.Page)}
    (left : ∀ c ∈ e.cache, c.Sound S) (right : ∀ c ∈ cache, c.Sound S) :
    Alike S e (e.recached cached cache)

variable {S : Set String} {e e' : Engine}

/-! ### One request -/

/-- The answer to a render that ended like this, and the engine after it. -/
def rendered (e : Engine) (r : Except RenderError Outcome × State) : Answer × Engine :=
  (⟨.rendered r.1 .resolving r.2.phase r.2.out.sink, r.2.bench.journal.toList, r.2.cancelRequested⟩,
    { e with cancelled := r.2.cancelRequested, cache := r.2.bench.cache })

theorem render_eq (e : Engine) (mode : RenderMode) (view : String) (model : Json) (sink : Sink) :
    e.render mode view model sink =
      e.rendered (ending (e.session mode view model).run
        ((e.session mode view model).start sink e.cancelled e.bench)) := by
  unfold render ending EStateM.run rendered
  dsimp only
  cases (e.session mode view model).run
    ((e.session mode view model).start sink e.cancelled e.bench) <;> rfl

theorem response_of_ending {e : Engine} {mode : RenderMode} {view : String} {model : Json} {sink : Sink}
    {r : Except RenderError Outcome} {final : State}
    (h : ending (e.session mode view model).run
      ((e.session mode view model).start sink e.cancelled e.bench) = (r, final)) :
    (e.render mode view model sink).1.response = .rendered r .resolving final.phase final.out.sink := by
  rw [render_eq, h]
  rfl

theorem Alike.rendered (h : Alike S e e') (r r' : Except RenderError Outcome × State)
    (hresult : r.1 = r'.1) (hstates : State.Alike S r.2 r'.2) :
    (e.rendered r).1.besidesCache = (e'.rendered r').1.besidesCache ∧
      Alike S (e.rendered r).2 (e'.rendered r').2 := by
  obtain ⟨result, st⟩ := r
  obtain ⟨result', st'⟩ := r'
  obtain ⟨benches⟩ : State.Alike S st st' := hstates
  obtain rfl : result = result' := hresult
  obtain ⟨-, -⟩ := h
  refine ⟨?_, .recached benches.left benches.right⟩
  have hevents := benches.events
  unfold Bench.events at hevents
  unfold Engine.rendered Answer.besidesCache
  rw [hevents]
  rfl

theorem Alike.render (h : Alike S e e') (hinj : Set.InjOn Digest.ofText S)
    (hS : e.finder.sources ⊆ S) (mode : RenderMode) (view : String) (model : Json) (sink : Sink) :
    (e.render mode view model sink).1.besidesCache =
        (e'.render mode view model sink).1.besidesCache ∧
      Alike S (e.render mode view model sink).2 (e'.render mode view model sink).2 := by
  have hrendered := h.rendered
  cases h with
  | @recached cached cache left right =>
    let s := e.session mode view model
    have hstates : State.Alike S (s.start sink e.cancelled e.bench)
        (s.start sink e.cancelled ⟨cache, .empty⟩) := .bench ⟨left, right, rfl⟩
    obtain ⟨hresult, hfinal⟩ := s.run_respects hinj hS _ _ hstates
    have hsession : (e.recached cached cache).session mode view model =
        s.retuned s.settings.bufferLimit cached := rfl
    rw [render_eq, render_eq, hsession, s.run_retuned]
    exact hrendered _ _ hresult hfinal

theorem Alike.search {α : Type} (h : Alike S e e') (x : Search α)
    (respond : Except ContentError α → Response) :
    (e.search x respond).1.besidesCache = (e'.search x respond).1.besidesCache ∧
      Alike S (e.search x respond).2 (e'.search x respond).2 := by
  obtain ⟨left, right⟩ := h
  exact ⟨rfl, .recached left right⟩

theorem Alike.answer (h : Alike S e e') {response response' : Response}
    (hresponse : response.besidesCache = response'.besidesCache) :
    (e.answer response).1.besidesCache = (e'.answer response').1.besidesCache ∧
      Alike S (e.answer response).2 (e'.answer response').2 := by
  refine ⟨?_, h⟩
  obtain ⟨-, -⟩ := h
  unfold Engine.answer Answer.besidesCache
  rw [hresponse]
  rfl

/-- A change of both engines in what they share. -/
theorem Alike.updated (h : Alike S e e') {f : Engine → Engine} (hcache : (f e).cache = e.cache)
    (hf : ∀ cached cache, f (e.recached cached cache) = (f e).recached cached cache) :
    Alike S (f e) (f e') := by
  obtain ⟨left, right⟩ := h
  rw [hf]
  exact .recached (hcache ▸ left) right

/-- A change of both caches in one way, which keeps them sound. -/
theorem Alike.changed (h : Alike S e e') {f : PageCache Template.Page → PageCache Template.Page}
    (hf : ∀ c, c.Sound S → (f c).Sound S) :
    Alike S { e with cache := e.cache.map f } { e' with cache := e'.cache.map f } := by
  have hmap : ∀ cache : Option (PageCache Template.Page), (∀ c ∈ cache, c.Sound S) →
      ∀ c ∈ cache.map f, c.Sound S := by
    intro cache hcache c hc
    obtain ⟨c', hc', rfl⟩ := Option.map_eq_some_iff.mp hc
    exact hf c' (hcache c' hc')
  obtain ⟨left, right⟩ := h
  exact .recached (hmap _ left) (hmap _ right)

theorem Alike.step (h : Alike S e e') (hinj : Set.InjOn Digest.ofText S)
    (hS : e.finder.sources ⊆ S) (request : Request) :
    (e.step request).1.besidesCache = (e'.step request).1.besidesCache ∧
      Alike S (e.step request).2 (e'.step request).2 := by
  obtain ⟨hfinder, hlayoutName, hcancelled⟩ : e'.finder = e.finder ∧
      e'.settings.layoutName = e.settings.layoutName ∧ e'.cancelled = e.cancelled := by
    obtain ⟨-, -⟩ := h
    exact ⟨rfl, rfl, rfl⟩
  unfold Engine.step
  cases request with
  | render mode view model sink => exact h.render hinj hS mode view model sink
  | candidates path =>
    rw [hlayoutName]
    exact h.answer rfl
  | resolve path =>
    rw [hfinder, hlayoutName]
    exact h.search _ _
  | layouts path =>
    rw [hfinder, hlayoutName]
    exact h.search _ _
  | normalize path =>
    rw [hfinder]
    exact h.answer rfl
  | locate path =>
    rw [hfinder]
    exact h.search _ _
  | has path =>
    rw [hfinder]
    exact h.search _ _
  | read path =>
    rw [hfinder]
    exact h.search _ _
  | listUnder directory =>
    rw [hfinder]
    exact h.answer rfl
  | listAll =>
    rw [hfinder]
    exact h.answer rfl
  | checkAll =>
    have hcheck : e'.checkAll = e.checkAll := by
      unfold Engine.checkAll
      rw [hfinder]
    rw [hcheck, hcancelled]
    exact ⟨rfl, h⟩
  | cachedPages => exact h.answer rfl
  | invalidate template => exact (h.changed fun c hc => hc.invalidate template).answer rfl
  | clearCache => exact (h.changed fun _ _ => PageCache.empty_sound).answer rfl
  | replaceCatalog catalog =>
    have h' : Alike S { e with catalog } { e' with catalog } :=
      h.updated (f := fun e => { e with catalog }) rfl fun _ _ => rfl
    exact h'.answer rfl
  | raiseOn raises =>
    have h' : Alike S { e with raises } { e' with raises } :=
      h.updated (f := fun e => { e with raises }) rfl fun _ _ => rfl
    exact h'.answer rfl
  | setCancelled cancelled =>
    have h' : Alike S { e with cancelled } { e' with cancelled } :=
      h.updated (f := fun e => { e with cancelled }) rfl fun _ _ => rfl
    exact h'.answer rfl

/-! ### All requests of a history -/

theorem search_keeps {α : Type} (e : Engine) (x : Search α)
    (respond : Except ContentError α → Response) :
    (e.search x respond).2.catalog = e.catalog ∧ (e.search x respond).2.settings = e.settings :=
  ⟨rfl, rfl⟩

/-- Only a request that brings a catalog changes it, and none changes the settings. -/
theorem step_keeps (e : Engine) (request : Request) :
    (e.step request).2.catalog = request.catalog?.getD e.catalog ∧
      (e.step request).2.settings = e.settings := by
  unfold step
  cases request <;> dsimp only
  case render mode view model sink =>
    rw [render_eq]
    exact ⟨rfl, rfl⟩
  case checkAll =>
    rcases e.checkAll with ⟨result, journal⟩
    exact ⟨rfl, rfl⟩
  case resolve | layouts | locate | has | read => exact e.search_keeps _ _
  all_goals exact ⟨rfl, rfl⟩

theorem finder_sources_subset (e : Engine) (requests : List Request) :
    e.finder.sources ⊆ e.sources requests :=
  fun _ h => ⟨e.catalog, by simp, h⟩

theorem step_sources_subset (e : Engine) (request : Request) (requests : List Request) :
    (e.step request).2.sources requests ⊆ e.sources (request :: requests) := by
  rintro source ⟨catalog, hcatalog, hsource⟩
  rw [(e.step_keeps request).1] at hcatalog
  rw [(e.step_keeps request).2] at hsource
  refine ⟨catalog, ?_, hsource⟩
  cases hc : request.catalog? <;> simp_all

/-- Engines that differ in sound caches alone answer a history alike, and end so. -/
theorem Alike.run (h : Alike S e e') (hinj : Set.InjOn Digest.ofText S) (requests : List Request)
    (hS : e.sources requests ⊆ S) :
    (e.run requests).1.map Answer.besidesCache = (e'.run requests).1.map Answer.besidesCache ∧
      Alike S (e.run requests).2 (e'.run requests).2 := by
  induction requests generalizing e e' with
  | nil => exact ⟨rfl, h⟩
  | cons request requests ih =>
    have hfinder : e.finder.sources ⊆ S := fun _ hs => hS (e.finder_sources_subset _ hs)
    obtain ⟨hanswer, hnext⟩ := h.step hinj hfinder request
    obtain ⟨hanswers, hlast⟩ := ih hnext fun _ hs => hS (e.step_sources_subset request requests hs)
    refine ⟨?_, hlast⟩
    unfold Engine.run
    dsimp only
    rw [List.map_cons, List.map_cons, hanswer, hanswers]

theorem last_sources_subset (e : Engine) (requests : List Request) :
    (e.run requests).2.finder.sources ⊆ e.sources requests := by
  induction requests generalizing e with
  | nil => exact e.finder_sources_subset []
  | cons request requests ih =>
    exact fun _ h => e.step_sources_subset request requests (ih (e.step request).2 h)

theorem new_sound (settings : Settings) (catalog : Catalog) :
    ∀ c ∈ (new settings catalog).cache, c.Sound S := by
  intro c hc
  unfold new at hc
  dsimp only at hc
  split at hc
  · obtain rfl := Option.some.inj hc
    exact PageCache.empty_sound
  · cases hc

theorem new_alike (settings : Settings) (catalog : Catalog) (cached cached' : Bool) :
    Alike S (new (settings.caching cached) catalog) (new (settings.caching cached') catalog) :=
  .recached (new_sound _ _) (new_sound (settings.caching cached') catalog)

theorem Alike.right (h : Alike S e e') : ∀ c ∈ e'.cache, c.Sound S := by
  obtain ⟨-, right⟩ := h
  exact right

theorem alike_restarted (h : ∀ c ∈ e.cache, c.Sound S) : Alike S e e.restarted :=
  .recached h (new_sound e.settings e.catalog)

/-- An engine with a cache answers a whole history like one without a cache, but for what it tells of
the cache; and after any history a render gives what it gives on an engine that has not rendered
anything. -/
theorem run_cached_eq_plain (settings : Settings) (catalog : Catalog) (requests : List Request)
    (hinj : Set.InjOn Digest.ofText ((new settings catalog).sources requests)) :
    ((new (settings.caching true) catalog).run requests).1.map Answer.besidesCache =
        ((new (settings.caching false) catalog).run requests).1.map Answer.besidesCache ∧
      ∀ cached mode view model sink,
        let e := ((new (settings.caching cached) catalog).run requests).2
        (e.render mode view model sink).1.besidesCache =
          (e.restarted.render mode view model sink).1.besidesCache := by
  have hrun := fun cached => (new_alike settings catalog cached false).run hinj requests fun _ h => h
  refine ⟨(hrun true).1, fun cached mode view model sink => ?_⟩
  dsimp only
  have hsound : ∀ c ∈ ((new (settings.caching cached) catalog).run requests).2.cache,
      c.Sound ((new settings catalog).sources requests) :=
    ((new_alike settings catalog false cached).run hinj requests fun _ h => h).2.right
  have hsources := (new (settings.caching cached) catalog).last_sources_subset requests
  exact ((alike_restarted hsound).render hinj hsources mode view model sink).1

/-- A catalog of one page. -/
def pageOnly (source : String) : Catalog where
  locate _ a := .ok (if a = ⟨"", "page"⟩ then some ⟨a, "html", .text source⟩ else none)
  list _ := .ok [⟨⟨"", "page"⟩, "html", .text source⟩]

theorem pageOnly_offers {source : String} {extensions : List String} {v : View}
    (h : Finder.Offers ⟨pageOnly source, extensions⟩ v) : v = ⟨⟨"", "page"⟩, "html", .text source⟩ := by
  obtain ⟨a, hv⟩ := h
  have hfound := Except.ok.inj hv
  split at hfound
  · next ha => exact (ha ▸ Option.some.inj hfound).symm
  · cases hfound

theorem pageOnly_sources (source : String) (extensions : List String) :
    Finder.sources ⟨pageOnly source, extensions⟩ ⊆ {source} := by
  rintro source' ⟨v, hv, hsource⟩
  obtain rfl := pageOnly_offers hv
  exact (Except.ok.inj hsource).symm

/-- Renders the page, changes its source, and renders it again. -/
def editing : List Request :=
  [.render .cancellable "page" (.obj []) .accepting, .replaceCatalog (pageOnly "b"),
    .render .cancellable "page" (.obj []) .accepting]

theorem run_cached_eq_plain_editing :
    ((new (Settings.default.caching true) (pageOnly "a")).run editing).1.map Answer.besidesCache =
      ((new (Settings.default.caching false) (pageOnly "a")).run editing).1.map
        Answer.besidesCache := by
  refine (run_cached_eq_plain .default (pageOnly "a") editing fun source hs source' hs' heq => ?_).1
  have hne : Digest.ofText "a" ≠ Digest.ofText "b" := by decide +kernel
  have hoccurs : ∀ source ∈ (new .default (pageOnly "a")).sources editing,
      source = "a" ∨ source = "b" := by
    rintro source ⟨catalog, hcatalog, hsource⟩
    have hcatalog : catalog ∈ [pageOnly "a", pageOnly "b"] := hcatalog
    simp only [List.mem_cons, List.not_mem_nil, or_false] at hcatalog
    rcases hcatalog with rfl | rfl
    · exact Or.inl (pageOnly_sources "a" _ hsource)
    · exact Or.inr (pageOnly_sources "b" _ hsource)
  rcases hoccurs source hs with rfl | rfl <;> rcases hoccurs source' hs' with rfl | rfl
  · rfl
  · exact absurd heq hne
  · exact absurd heq.symm hne
  · rfl

end Engine

end LayeredViews
