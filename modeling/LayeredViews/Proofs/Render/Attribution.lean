import LayeredViews.Proofs.Cache.Transparent
import LayeredViews.Proofs.Cache.Trusted
import LayeredViews.Proofs.Template.TagPositions

/-!
# Attribution — the view and the tags that a failure names

A failure stems from a view if the view's own source has it: its diagnostics are what the source is rejected
for, or the fault is one that a node of the compiled page may meet.  Every failure that a render shows, or
reports after output was sent, stems from a view that this render has located and read, under its full name
(`run_attributes`).  Cached pages make no difference as long as the bench can be trusted to give the page of
the source just read.
-/

namespace LayeredViews

open Template (Page)

/-! ### Failures of a view -/

/-- What can go wrong with a view, by its own source. -/
inductive Failure.StemsFrom (v : View) : Failure → Prop where
  | compilation {source ds} (read : v.source = .ok source)
    (rejected : Template.parse source = .error ds) : StemsFrom v ⟨v.fullName, .compilation, ds⟩
  | execution {source page pos fault} (read : v.source = .ok source)
    (compiled : Template.parse source = .ok page) (fails : page.MayFail pos fault) :
    StemsFrom v ⟨v.fullName, .execution, [Template.diagnosticAt pos fault.message]⟩

/-- A failure of a view names it, and every diagnostic stands at an opening tag of its source. -/
theorem Failure.StemsFrom.opens {v : View} {f : Failure} (h : f.StemsFrom v) :
    ∃ source, v.source = .ok source ∧ f.template = v.fullName ∧ f.diagnostics ≠ [] ∧
      (f.stage = .execution → f.diagnostics.length = 1) ∧
      ∀ d ∈ f.diagnostics, Template.OpensTag source ⟨d.line, d.column⟩ := by
  cases h with
  | @compilation source ds read rejected =>
    obtain ⟨hne, hopens⟩ := Template.parse_error_opens rejected
    exact ⟨source, read, rfl, hne, nofun, hopens⟩
  | @execution source page pos fault read compiled fails =>
    obtain ⟨node, hnode, hpos, -⟩ := fails
    refine ⟨source, read, rfl, by simp, fun _ => rfl, fun d hd => ?_⟩
    obtain rfl := List.mem_singleton.mp hd
    exact Template.parse_ok_opens compiled node hnode pos hpos

theorem View.compiled_ok {v : View} {page : Page} (h : v.compiled = .ok page) :
    ∃ source, v.source = .ok source ∧ Template.parse source = .ok page := by
  unfold View.compiled at h
  split at h
  · cases h
  · next source hsource =>
    refine ⟨source, hsource, ?_⟩
    rcases hparse : Template.parse source with ds | page' <;> rw [hparse] at h
    · cases h
    · obtain rfl := Except.ok.inj h
      rfl

theorem View.stems_of_compiled {v : View} {f : Failure} (h : v.compiled = .error (.failure f)) :
    f.StemsFrom v := by
  unfold View.compiled at h
  split at h
  · cases Except.error.inj h
  · next source hsource =>
    rcases hparse : Template.parse source with ds | page <;> rw [hparse] at h
    · obtain rfl := ComposeError.failure.inj (Except.error.inj h)
      exact .compilation hsource hparse
    · cases h

/-! ### Views located in a render -/

namespace Session

/-- Views that a render may come to: members of the layering of its view, and of the layerings of the
partial views that their pages ask for. -/
inductive Reaches (s : Session) : View → Prop where
  | member {l : Layering} {v : View}
    (resolved : (ending (Layering.resolve s.finder s.settings.layoutName s.view) .empty).1 = .ok l)
    (mem : v ∈ l.members) : Reaches s v
  | partialMember {u : View} {page : Page} {name : String} {pos : Text.Position} {l : Layering} {v : View}
    (asker : Reaches s u) (compiled : u.compiled = .ok page)
    (asks : .partialView name pos ∈ page.nodes)
    (resolved : (ending (s.resolvePartial name) .empty).1 = .ok l) (mem : v ∈ l.members) : Reaches s v

/-- A view that a render has come to, found at an address that it looked up, and read. -/
structure Located (s : Session) (told : List Event) (v : View) : Prop where
  reached : s.Reaches v
  found : s.finder.FoundAt (lookupsOf told) v
  read : .read v.fullName ∈ told

/-- The failure stems from a view that has been located. -/
def Traces (s : Session) (told : List Event) (f : Failure) : Prop :=
  ∃ v, s.Located told v ∧ f.StemsFrom v

/-- The layer is the page of a view that has been located. -/
def Known (s : Session) (told : List Event) (layer : Layer) : Prop :=
  ∃ v, s.Located told v ∧ layer.template = v.fullName ∧ v.compiled = .ok layer.page

variable {s : Session} {told more : List Event} {I : Bench → Prop}

theorem Located.mono {v : View} (h : s.Located told v) (hmore : told ⊆ more) : s.Located more v :=
  ⟨h.reached, h.found.mono (List.filterMap_subset _ hmore), hmore h.read⟩

theorem Known.mono {layer : Layer} (h : s.Known told layer) (hmore : told ⊆ more) : s.Known more layer := by
  obtain ⟨v, hv, hpage⟩ := h
  exact ⟨v, hv.mono hmore, hpage⟩

/-! ### Views that serve layers -/

/-- A view that has been found and read, and that the render has come to, is located. -/
theorem located_of_served {v : View} {r : Except ComposeError Page}
    (h : s.finder.Served (fun _ v r => v.compiled = r) told v r) (hreached : s.Reaches v) :
    s.Located told v ∧ v.compiled = r :=
  ⟨⟨hreached, h.found, h.read⟩, h.fits⟩

theorem reaches_of_viewMember {v : View} (h : s.ViewMember v) : s.Reaches v := by
  obtain ⟨l, hresolved, hv⟩ := h
  exact .member hresolved hv

/-- Members of the layering of a partial view are reached if a known layer asks for it. -/
theorem reaches_of_asked {depth : Nat} {name : String} (hasked : Render.Asked s.Known told depth name)
    {v : View} (h : s.PartialMember name v) : s.Reaches v := by
  obtain ⟨layer, pos, ⟨⟨u, hu, -, hcompiled⟩, -⟩, hnode⟩ := hasked
  obtain ⟨l, hresolved, hv⟩ := h
  exact .partialMember hu.reached hcompiled hnode hresolved hv

/-! ### Steps of pages -/

/-- From wherever so much has been told, it keeps the bench trusted and what has been told, and a failure that
it ends with stems from a view located by then. -/
def Attributes (s : Session) (I : Bench → Prop) (told : List Event) {α : Type} (x : Render α) : Prop :=
  ∀ st, I st.bench → told ⊆ st.bench.events →
    I (ending x st).2.bench ∧ st.bench.events ⊆ (ending x st).2.bench.events ∧
      ∀ e f, (ending x st).1 = .error e → e.failure? = some f →
        s.Traces (ending x st).2.bench.events f

/-- Writing and setting keys leave the bench as it is, and fail in no view. -/
theorem attributes_of_bench {α : Type} {x : Render α} (hbench : ∀ st, (ending x st).2.bench = st.bench)
    (hfails : ∀ st e, (ending x st).1 = .error e → e.failure? = none) : s.Attributes I told x := by
  intro st hI _
  rw [hbench]
  refine ⟨hI, List.Subset.refl _, fun e f he hf => ?_⟩
  rw [hfails st e he] at hf
  cases hf

theorem partialLayers_attributes (h : Bench.Trust s.finder I) {depth : Nat} {name : String}
    (hasked : Render.Asked s.Known told depth name) {β : Type} {f : List Layer → Render β}
    (hf : ∀ more layers, (∀ layer ∈ layers, s.Known more layer) → s.Attributes I more (f layers)) :
    s.Attributes I told (s.partialLayers name >>= f) := by
  intro st hI htold
  obtain ⟨r, st₁, hlayers, hI₁, hkeeps, hpages, hfails⟩ := partialLayers_served h.serves name st hI
  rcases r with e | layers
  · rw [ending_bind_error hlayers]
    refine ⟨hI₁, hkeeps, fun e' f he hf => ?_⟩
    obtain rfl := Except.error.inj he
    obtain ⟨v, hv, hserved⟩ := hfails e f rfl hf
    obtain ⟨hlocated, hcompiled⟩ := located_of_served hserved (reaches_of_asked hasked hv)
    exact ⟨v, hlocated, View.stems_of_compiled hcompiled⟩
  · have hknown : ∀ layer ∈ layers, s.Known st₁.bench.events layer := by
      intro layer hlayer
      obtain ⟨v, hv, htemplate, hserved⟩ := hpages layers rfl layer hlayer
      obtain ⟨hlocated, hcompiled⟩ := located_of_served hserved (reaches_of_asked hasked hv)
      exact ⟨v, hlocated, htemplate, hcompiled⟩
    rw [ending_bind_ok hlayers]
    obtain ⟨hI', hkeeps', hfails'⟩ := hf _ layers hknown st₁ hI₁ (List.Subset.refl _)
    exact ⟨hI', List.Subset.trans hkeeps hkeeps', hfails'⟩

theorem attributes_closedOn (h : Bench.Trust s.finder I) :
    Render.ClosedOn s s.Known fun told _ => s.Attributes I told where
  known_mono := Known.mono
  pure told depth α a := attributes_of_bench (fun _ => rfl) fun _ _ he => by cases he
  bind {told depth α β x f} hx hf := by
    intro st hI htold
    obtain ⟨hI', hkeeps, hfails⟩ := hx st hI htold
    rw [ending_bind]
    rcases hr : ending x st with ⟨e | a, st'⟩ <;> rw [hr] at hI' hkeeps hfails
    · exact ⟨hI', hkeeps, fun e' f' he' => hfails e' f' (by simpa using he')⟩
    · obtain ⟨hI'', hkeeps', hfails'⟩ := hf a st' hI' (List.Subset.trans htold hkeeps)
      exact ⟨hI'', List.Subset.trans hkeeps hkeeps', hfails'⟩
  fault {told depth α layer pos f} hrunning hmay := by
    intro st hI htold
    refine ⟨hI, List.Subset.refl _, fun e f' he hf' => ?_⟩
    obtain ⟨v, hv, htemplate, hcompiled⟩ := hrunning.known
    obtain ⟨source, hread, hparse⟩ := View.compiled_ok hcompiled
    obtain rfl := Except.error.inj he
    obtain rfl := Option.some.inj hf'
    rw [htemplate]
    exact ⟨v, hv.mono htold, .execution hread hparse hmay⟩
  withBag told depth α f hf st := hf st.bag st
  setBag told depth f := attributes_of_bench (fun _ => rfl) fun _ _ he => by cases he
  write {told depth layer text} _ _ := by
    refine attributes_of_bench (fun st => by rw [Render.ending_writeText]; rfl) fun st e he => ?_
    rw [Render.ending_writeText] at he
    rcases hr : (ending (Output.write text) st.out).1 with fault | u <;> rw [hr] at he
    · obtain rfl := Except.error.inj he
      rfl
    · cases he
  check told depth st hI _ := by
    rw [Render.ending_checkCancelled]
    split_ifs
    · refine ⟨h.note .refused hI, ?_, fun e f he hf => ?_⟩
      · exact (st.bench.events_note .refused).symm ▸ List.subset_append_left _ _
      · obtain rfl := Except.error.inj he
        cases hf
    · exact ⟨hI, List.Subset.refl _, fun e f he => by cases he⟩
  start {told depth layer α x} _ _ hx := by
    intro st hI htold
    have hevents := st.bench.events_note (.started layer.template depth)
    have hkeeps : st.bench.events ⊆ (st.bench.note (.started layer.template depth)).events :=
      hevents.symm ▸ List.subset_append_left _ _
    have hstarted : .started layer.template depth ∈ (st.bench.note (.started layer.template depth)).events := by
      rw [hevents]
      simp [besidesCompiling]
    obtain ⟨hI', hkeeps', hfails⟩ := hx _ (List.Subset.trans htold hkeeps) hstarted
      (st.note (.started layer.template depth)) (h.note _ hI) (List.Subset.refl _)
    exact ⟨hI', List.Subset.trans hkeeps hkeeps', hfails⟩
  partialLayers hasked _ hf := partialLayers_attributes h hasked hf

/-! ### The render -/

/-- The failure that the caller gets to see: on its page, or as what ended the render after output had been
committed. -/
def shown? : Except RenderError Outcome → Option Failure
  | .ok (.diagnosticPage f) => some f
  | .error (.committed _ e) => e.failure?
  | _ => none

theorem shown_errorOf (committed : Bool) (e : ExecError) :
    ∀ f ∈ shown? (.error (s.errorOf committed e)), f ∈ e.failure? := by
  intro f hf
  cases e with
  | notFound name => cases committed <;> cases hf
  | cancelled | content | sink => cases hf
  | compilation | runtime => exact hf

theorem shown_showFailure (f : Failure) (st : State) :
    ∀ f' ∈ shown? (ending (showFailure f) st).1, f' = f := by
  intro f' hf'
  obtain ⟨-, hr | ⟨fault, hr⟩⟩ := showFailure_ends f st <;> rw [hr] at hf'
  · exact (Option.some.inj hf').symm
  · cases hf'

theorem shown_executionFailed (e : ExecError) (st : State) :
    ∀ f ∈ shown? (ending (s.executionFailed e) st).1, f ∈ e.failure? := by
  intro f hf
  obtain ⟨-, ⟨f', hf', hr⟩ | hr | ⟨fault, hr⟩⟩ := executionFailed_ends (s := s) e st <;> rw [hr] at hf
  · exact Option.some.inj hf ▸ hf'
  · exact shown_errorOf _ e f hf
  · cases hf

theorem execute_attributes (h : Bench.Trust s.finder I) {layers : List Layer} {st : State}
    (hI : I st.bench) (hknown : ∀ layer ∈ layers, s.Known st.bench.events layer) :
    I (ending (s.execute layers) st).2.bench ∧
      ∀ f ∈ shown? (ending (s.execute layers) st).1,
        s.Traces (ending (s.execute layers) st).2.bench.events f := by
  obtain ⟨hI', -, hfails⟩ := (attributes_closedOn h).layers _ hknown
    { st with phase := .executing } hI (List.Subset.refl _)
  rw [ending_execute]
  rcases hr : ending (Render.runLayers s.scene layers) { st with phase := .executing } with
    ⟨e | u, st'⟩ <;> rw [hr] at hI' hfails
  · obtain ⟨hbench, -⟩ := executionFailed_ends (s := s) e st'
    dsimp only
    rw [hbench]
    exact ⟨hI', fun f hf => hfails e f rfl (shown_executionFailed e st' f hf)⟩
  · obtain ⟨hbench, ⟨bytes, hr⟩ | ⟨fault, hr⟩⟩ := complete_ends st' <;> dsimp only <;> rw [hbench, hr]
    · exact ⟨hI', fun f hf => by cases hf⟩
    · exact ⟨hI', fun f hf => by cases hf⟩

/-- A render on a trusted bench leaves it trusted, and the failure that it shows stems from a view that it
has located. -/
theorem run_attributes (h : Bench.Trust s.finder I) {st : State} (hI : I st.bench) :
    I (ending s.run st).2.bench ∧
      ∀ f ∈ shown? (ending s.run st).1, s.Traces (ending s.run st).2.bench.events f := by
  obtain ⟨r, st₁, hprepare, hI₁, herrors, hpages, hfails⟩ := prepare_served h.serves st hI
  rw [run_eq]
  rcases r with e | (f | e) | layers
  · rw [ending_bind_error hprepare]
    refine ⟨hI₁, fun f hf => ?_⟩
    rcases herrors e rfl with rfl | ⟨c, rfl⟩ | rfl <;> cases hf
  · rw [ending_bind_ok hprepare]
    unfold proceed
    dsimp only
    rw [(showFailure_ends f st₁).1]
    refine ⟨hI₁, fun f' hf' => ?_⟩
    obtain rfl := shown_showFailure f st₁ f' hf'
    obtain ⟨v, hv, hserved⟩ := hfails _ rfl
    obtain ⟨hlocated, hcompiled⟩ := located_of_served hserved (reaches_of_viewMember hv)
    exact ⟨v, hlocated, View.stems_of_compiled hcompiled⟩
  · rw [ending_bind_ok hprepare]
    exact ⟨hI₁, fun f hf => by cases hf⟩
  · rw [ending_bind_ok hprepare]
    refine execute_attributes h hI₁ fun layer hlayer => ?_
    obtain ⟨v, hv, htemplate, hserved⟩ := hpages layers rfl layer hlayer
    obtain ⟨hlocated, hcompiled⟩ := located_of_served hserved (reaches_of_viewMember hv)
    exact ⟨v, hlocated, htemplate, hcompiled⟩

end Session

/-! ### Renders of an engine -/

/-- The failure that a response shows. -/
def Response.failure? : Response → Option Failure
  | .rendered result _ _ _ => Session.shown? result
  | _ => none

namespace Engine

variable {settings : Settings} {catalog : Catalog}

theorem search_cache {α : Type} (e : Engine) (x : Search α) (respond : Except ContentError α → Response) :
    (e.search x respond).2.cache = e.cache :=
  rfl

theorem step_uncached {e : Engine} (h : e.cache = none) (request : Request) :
    (e.step request).2.cache = none := by
  unfold step
  cases request <;> dsimp only
  case render mode view model sink =>
    rw [render_eq]
    have hstart : ((e.session mode view model).start sink e.cancelled e.bench).bench.cache = none := h
    exact (Session.run_attributes (Bench.trust_uncached _) hstart).1
  case invalidate template => exact congrArg (Option.map (PageCache.invalidate · template)) h
  case clearCache => exact congrArg (Option.map PageCache.clear) h
  case checkAll =>
    rcases e.checkAll with ⟨result, journal⟩
    exact h
  case resolve | layouts | locate | has | read => exact (e.search_cache _ _).trans h
  all_goals exact h

theorem run_uncached {e : Engine} (h : e.cache = none) (requests : List Request) :
    (e.run requests).2.cache = none := by
  induction requests generalizing e with
  | nil => exact h
  | cons request requests ih => exact ih (step_uncached h request)

/-- After any history the bench of an engine can be trusted, if digests tell sources apart where there is a
cache. -/
theorem trusted_after (requests : List Request) (hinj : settings.cacheCompiled = true →
    Set.InjOn Digest.ofText ((new settings catalog).sources requests)) :
    ∃ I, Bench.Trust ((new settings catalog).run requests).2.finder I ∧
      I ((new settings catalog).run requests).2.bench := by
  by_cases hcached : settings.cacheCompiled = true
  · have hinj := hinj hcached
    have hsound : ∀ c ∈ ((new settings catalog).run requests).2.cache,
        c.Sound ((new settings catalog).sources requests) :=
      ((new_alike settings catalog false settings.cacheCompiled).run hinj requests
        fun _ h => h).2.right
    exact ⟨_, Bench.trust_sound hinj (last_sources_subset _ requests), hsound⟩
  · have hnone : (new settings catalog).cache = none := by
      unfold new
      rw [if_neg hcached]
    exact ⟨_, Bench.trust_uncached _, run_uncached hnone requests⟩

/-- After any history, a failure that a render shows names a view that this very render has come to, found and
read, and says of it what its source is rejected for or what one of its nodes may meet: each diagnostic stands
at an opening tag of that source. -/
theorem failure_at_tag (settings : Settings) (catalog : Catalog) (requests : List Request)
    (hinj : settings.cacheCompiled = true →
      Set.InjOn Digest.ofText ((new settings catalog).sources requests))
    (mode : RenderMode) (view : String) (model : Json) (sink : Sink) :
    let e := ((new settings catalog).run requests).2
    let answer := (e.render mode view model sink).1
    ∀ f ∈ answer.response.failure?, ∃ v source,
      (e.session mode view model).Located answer.journal v ∧ v.source = .ok source ∧
        f.StemsFrom v ∧ f.template = v.fullName ∧ f.diagnostics ≠ [] ∧
        (f.stage = .execution → f.diagnostics.length = 1) ∧
        ∀ d ∈ f.diagnostics, Template.OpensTag source ⟨d.line, d.column⟩ := by
  intro e answer f hf
  obtain ⟨I, htrust, hI⟩ := trusted_after requests hinj
  let s := e.session mode view model
  have hstart : I (s.start sink e.cancelled e.bench).bench := hI
  obtain ⟨-, htraces⟩ := Session.run_attributes (s := s) htrust hstart
  have hanswer : answer = (e.rendered (ending s.run (s.start sink e.cancelled e.bench))).1 := by
    rw [← render_eq]
  rw [hanswer] at hf ⊢
  obtain ⟨v, hlocated, hstems⟩ := htraces f hf
  obtain ⟨source, hsource, htemplate, hsome, hone, hopens⟩ := hstems.opens
  exact ⟨v, source, hlocated.mono (Bench.events_subset_journal _), hsource, hstems, htemplate, hsome, hone,
    hopens⟩

/-- A page whose second line echoes a value that the model does not have. -/
def brokenPage : Catalog := pageOnly "a\nb\x7b\x7b model.x \x7d\x7d"

/-- Caches pages, and holds no output back. -/
def eager : Settings := { Settings.default with bufferLimit := 0, cacheCompiled := true }

/-- A render of the page with nothing in the model. -/
def renderPage : Request := .render .cancellable "page" (.obj []) .accepting

theorem failure_at_tag_of_cached_page :
    let e := ((new eager brokenPage).run [renderPage]).2
    let answer := (e.render .cancellable "page" (.obj []) .accepting).1
    ∃ f ∈ answer.response.failure?, f.template = "page.html" ∧ f.stage = .execution ∧
      ∃ v source, (e.session .cancellable "page" (.obj [])).Located answer.journal v ∧
        v.source = .ok source ∧ f.diagnostics.length = 1 ∧
        ∀ d ∈ f.diagnostics, Template.OpensTag source ⟨d.line, d.column⟩ := by
  have hinj : eager.cacheCompiled = true →
      Set.InjOn Digest.ofText ((new eager brokenPage).sources [renderPage]) := by
    rintro - source ⟨catalog, hcatalog, hs⟩ source' ⟨catalog', hcatalog', hs'⟩ -
    obtain rfl := List.mem_singleton.mp hcatalog
    obtain rfl := List.mem_singleton.mp hcatalog'
    exact (pageOnly_sources _ _ hs).trans (pageOnly_sources _ _ hs').symm
  have hshown : (((new eager brokenPage).run [renderPage]).2.render .cancellable "page" (.obj [])
      .accepting).1.response.failure? =
        some ⟨"page.html", .execution, [⟨2, 2, "Undefined value 'model.x'"⟩]⟩ := by
    decide +kernel
  have hall := failure_at_tag eager brokenPage [renderPage] hinj .cancellable "page" (.obj [])
    .accepting
  obtain ⟨v, source, hlocated, hsource, -, -, -, hone, hopens⟩ := hall _ hshown
  exact ⟨_, hshown, rfl, rfl, v, source, hlocated, hsource, hone rfl, hopens⟩

end Engine

end LayeredViews
