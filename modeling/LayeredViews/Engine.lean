import LayeredViews.Render.Session

/-!
# Engines — settings, a catalog and a cache that outlive a render

An engine answers requests one after the other.  Between requests only its cache, its catalog and
the cancel flag remain; `Engine.step` is the one place where they change.
-/

namespace LayeredViews

/-- How a view is to be rendered. -/
inductive RenderMode where
  /-- Stops when the cancel flag is raised. -/
  | cancellable
  /-- Does not look at the cancel flag. -/
  | uninterrupted
deriving DecidableEq, Repr

/-- What an engine is asked. -/
inductive Request where
  /-- The catalog has new content. -/
  | replaceCatalog (catalog : Catalog)
  /-- From now on these lookups raise the cancel flag. -/
  | raiseOn (raises : Nat → Address → Bool)
  | setCancelled (value : Bool)
  | render (mode : RenderMode) (view : String) (model : Json) (sink : Sink)
  | candidates (path : String)
  | resolve (path : String)
  | layouts (path : String)
  | checkAll
  | cachedPages
  | invalidate (template : String)
  | clearCache
  | normalize (path : String)
  | locate (path : String)
  | has (path : String)
  | read (path : String)
  | listUnder (directory : String)
  | listAll

/-- What an engine answers. -/
inductive Response where
  | done
  | rendered (result : Except RenderError Outcome) (before after : Phase) (sink : Sink)
  | paths (paths : List String)
  | layering (result : Except ContentError Layering)
  | views (result : Except ContentError (List View))
  | failures (result : Except ContentError (List Failure))
  | cached (pages : Option Nat)
  | path (path : String)
  | found (result : Except ContentError (Option View))
  | has (result : Except ContentError Bool)
  | source (result : Except ContentError String)

/-- A response with what was done for it and the cancel flag after it. -/
structure Answer where
  response : Response
  journal : List Event
  cancelled : Bool

structure Engine where
  settings : Settings
  catalog : Catalog
  raises : Nat → Address → Bool
  cancelled : Bool
  cache : Option (PageCache Template.Page)

namespace Engine

/-- An engine that has not been asked anything. -/
def new (settings : Settings) (catalog : Catalog) : Engine where
  settings := settings
  catalog := catalog
  raises := fun _ _ => false
  cancelled := false
  cache := if settings.cacheCompiled then some .empty else none

def finder (e : Engine) : Finder := ⟨e.catalog, e.settings.extensions⟩

/-- The bench on which a request starts. -/
def bench (e : Engine) : Bench := ⟨e.cache, .empty⟩

/-! ### Requests without a render -/

/-- Whether some lookups raise the cancel flag. -/
def raisedBy (e : Engine) (asked : List Address) : Bool :=
  asked.zipIdx.any fun a => e.raises a.2 a.1

/-- Runs a search; its lookups may raise the cancel flag. -/
def search {α : Type} (e : Engine) (x : Search α) (respond : Except ContentError α → Response) :
    Answer × Engine :=
  let (result, asked) : Except ContentError α × List Address :=
    match x.run .empty with
    | .ok a asked => (.ok a, asked.toList)
    | .error err asked => (.error err, asked.toList)
  let cancelled := e.cancelled || e.raisedBy asked
  (⟨respond result, asked.map .lookup, cancelled⟩, { e with cancelled })

/-- Answers without doing anything. -/
def answer (e : Engine) (response : Response) : Answer × Engine :=
  (⟨response, [], e.cancelled⟩, e)

/-- Compiles all views on their own. -/
def checkAll (e : Engine) : Except ContentError (List Failure) × List Event :=
  match e.finder.listAll with
  | .error err => (.error err, [])
  | .ok views =>
    match (Bench.failuresOf views).run .empty with
    | .ok failures b => (.ok failures, b.journal.toList)
    | .error err b => (.error err, b.journal.toList)

/-! ### Renders -/

/-- The session of a render. -/
def session (e : Engine) (mode : RenderMode) (view : String) (model : Json) : Session where
  catalog := e.catalog
  settings := e.settings
  view := view
  model := model
  heedsFlag := mode == .cancellable
  raises := e.raises

/-- Renders a view. -/
def render (e : Engine) (mode : RenderMode) (view : String) (model : Json) (sink : Sink) :
    Answer × Engine :=
  let s := e.session mode view model
  let start := s.start sink e.cancelled e.bench
  let (result, final) : Except RenderError Outcome × State :=
    match s.run.run start with
    | .ok outcome final => (.ok outcome, final)
    | .error err final => (.error err, final)
  (⟨.rendered result start.phase final.phase final.out.sink, final.bench.journal.toList,
      final.cancelRequested⟩,
    { e with cancelled := final.cancelRequested, cache := final.bench.cache })

/-! ### All requests -/

def cachedPages (e : Engine) : Option Nat := e.cache.map PageCache.size

/-- Answers a request. -/
def step (e : Engine) : Request → Answer × Engine
  | .replaceCatalog catalog => { e with catalog }.answer .done
  | .raiseOn raises => { e with raises }.answer .done
  | .setCancelled cancelled => { e with cancelled }.answer .done
  | .render mode view model sink => e.render mode view model sink
  | .candidates path => e.answer (.paths (Layering.candidates e.settings.layoutName path))
  | .resolve path => e.search (Layering.resolve e.finder e.settings.layoutName path) .layering
  | .layouts path => e.search (Layering.layoutsOf e.finder e.settings.layoutName path) .views
  | .checkAll =>
    let (result, journal) := e.checkAll
    (⟨.failures result, journal, e.cancelled⟩, e)
  | .cachedPages => e.answer (.cached e.cachedPages)
  | .invalidate template =>
    let e' := { e with cache := e.cache.map fun c => PageCache.invalidate c template }
    e'.answer (.cached e'.cachedPages)
  | .clearCache =>
    let e' := { e with cache := e.cache.map PageCache.clear }
    e'.answer (.cached e'.cachedPages)
  | .normalize path => e.answer (.path (e.finder.normalize path))
  | .locate path => e.search (e.finder.locate path) .found
  | .has path => e.search (e.finder.has path) .has
  | .read path => e.search (e.finder.read path) .source
  | .listUnder directory => e.answer (.views (e.finder.listUnder directory))
  | .listAll => e.answer (.views e.finder.listAll)

end Engine

end LayeredViews
