import LayeredViews.Proofs.Cache.Transparent
import LayeredViews.Proofs.Catalog.Shelved
import LayeredViews.Proofs.Render.Serving

/-!
# Checked catalogs — what checking all views rules out

Checking compiles each view that the catalog lists, on its own; a render comes to views by lookups.  On a shelf
every view that a lookup finds is listed (`Shelf.mem_views`), so that after a check without failures whatever
a render looks up compiles, from its source or as a cached page, and no render fails for its want
(`render_of_checked`).
-/

namespace LayeredViews

open Template (Page)

/-! ### Checking -/

/-- The view can be read, and its source compiles. -/
def View.Compiles (v : View) : Prop :=
  ∃ page, v.compiled = .ok page

namespace Bench

/-- Checking a view says whether it compiles, and if not, why. -/
theorem checked_of_failureOf? {v : View} {b : Bench} {found : Option Failure}
    (h : (ending (failureOf? v) b).1 = .ok found) :
    v.Compiles ∧ found = none ∨ ∃ f, found = some f ∧ v.compiled = .error (.failure f) := by
  unfold ending failureOf? readSource compileSource at h
  simp only [bind, EStateM.bind] at h
  rcases hs : v.source with e | source
  · simp only [hs] at h
    cases h
  have hcompiled := View.compiled_of_source hs
  rcases hparse : Template.parse source with ds | page <;> rw [hparse] at hcompiled
  · simp only [hs, hparse] at h
    exact Or.inr ⟨_, (Except.ok.inj h).symm, hcompiled⟩
  · simp only [hs, hparse] at h
    exact Or.inl ⟨⟨page, hcompiled⟩, (Except.ok.inj h).symm⟩

/-- A check that comes to its end has said of each view why it does not compile, unless it does. -/
theorem checked_of_failuresOf {views : List View} {b : Bench} {failures : List Failure}
    (h : (ending (failuresOf views) b).1 = .ok failures) :
    ∀ v ∈ views, v.Compiles ∨ ∃ f ∈ failures, v.compiled = .error (.failure f) := by
  induction views generalizing b failures with
  | nil => simp
  | cons v views ih =>
    unfold failuresOf at h
    rw [ending_bind] at h
    rcases hv : ending (failureOf? v) b with ⟨_ | found, b₁⟩ <;> rw [hv] at h
    · cases h
    have hfirst := checked_of_failureOf? (congrArg Prod.fst hv)
    dsimp only at h
    rw [ending_bind] at h
    rcases hothers : ending (failuresOf views) b₁ with ⟨_ | others, b₂⟩ <;> rw [hothers] at h
    · cases h
    obtain rfl := Except.ok.inj h
    refine List.forall_mem_cons.mpr ⟨?_, fun w hw => ?_⟩
    · rcases hfirst with ⟨hcompiles, -⟩ | ⟨f, rfl, hcompiled⟩
      · exact Or.inl hcompiles
      · exact Or.inr ⟨f, by simp, hcompiled⟩
    · rcases ih (congrArg Prod.fst hothers) w hw with hcompiles | ⟨f, hf, hcompiled⟩
      · exact Or.inl hcompiles
      · exact Or.inr ⟨f, List.mem_append_right _ hf, hcompiled⟩

/-- Where all views compile, compiling gives a page, be it a cached one. -/
theorem serves_compiling {f : Finder} (hall : ∀ v, f.Offers v → v.Compiles) :
    Serves f (fun _ => True) fun _ _ r => ∃ page, r = .ok page where
  note _ _ := trivial
  pageOf {b v} _ hv := by
    have hgood : b.All fun _ _ => True := fun _ _ _ _ _ => trivial
    obtain ⟨r, b', hend, hpaged⟩ := Compose.pageOf_paged hgood fun _ _ _ _ => trivial
    refine ⟨r, b', hend, trivial, ?_, hpaged.events⟩
    rcases hpaged.result with rfl | ⟨source, page, -, rfl, -⟩
    · exact hall v hv.offers
    · exact ⟨page, rfl⟩
  mono hr _ := hr

end Bench

/-! ### Renders -/

namespace Session

variable {s : Session}

/-- Does not end early because a view does not compile. -/
def NeverUncompiled {α : Type} (x : Render α) : Prop :=
  ∀ st f, (ending x st).1 ≠ .error (.compilation f)

theorem neverUncompiled_closed (hall : ∀ v, s.finder.Offers v → v.Compiles) :
    Render.Closed s NeverUncompiled where
  pure _ _ _ h := by cases h
  bind {α β x f} hx hf := by
    intro st failure h
    have hfirst := hx st failure
    rw [ending_bind] at h
    rcases hr : ending x st with ⟨e | a, st'⟩ <;> rw [hr] at h hfirst
    · exact hfirst (congrArg Except.error (Except.error.inj h))
    · exact hf a st' failure h
  fault _ _ _ _ _ h := by cases h
  withBag f hf st := hf st.bag st
  setBag _ _ _ h := by cases h
  write text st failure h := by
    rw [Render.ending_writeText] at h
    rcases hr : (ending (Output.write text) st.out).1 with fault | u <;> (rw [hr] at h; cases h)
  check st failure h := by
    rw [Render.ending_checkCancelled] at h
    split_ifs at h
    cases h
  start _ _ _ _ h := by cases h
  partialLayers name := by
    intro st failure h
    obtain ⟨r, st', hlayers, -, -, -, hfails⟩ :=
      partialLayers_served (Bench.serves_compiling hall) name st trivial
    rw [hlayers] at h
    obtain ⟨v, -, hserved⟩ := hfails _ failure h rfl
    obtain ⟨page, hpage⟩ := hserved.fits
    cases hpage

/-- What a render gave does not say that a view does not compile. -/
structure NotUncompiled (r : Except RenderError Outcome) : Prop where
  page : ∀ f, r = .ok (.diagnosticPage f) → f.stage ≠ .compilation
  committed : ∀ view f, r ≠ .error (.committed view (.compilation f))

theorem executionFailed_notUncompiled {e : ExecError} (he : ∀ f, e ≠ .compilation f) (st : State) :
    NotUncompiled (ending (s.executionFailed e) st).1 := by
  obtain ⟨-, ⟨f, hf, hr⟩ | hr | ⟨fault, hr⟩⟩ := executionFailed_ends (s := s) e st <;> rw [hr]
  · refine ⟨fun f' hf' => ?_, nofun⟩
    obtain rfl : f = f' := by cases hf'; rfl
    cases e with
    | compilation f' => exact absurd rfl (he f')
    | runtime template pos fault =>
      obtain rfl := Option.some.inj hf
      exact nofun
    | _ => cases hf
  · refine ⟨nofun, fun view f h => ?_⟩
    cases e with
    | compilation f' => exact he f' rfl
    | notFound name => cases hc : st.out.committed <;> rw [hc] at h <;> cases h
    | _ => cases h
  · exact ⟨nofun, nofun⟩

theorem run_notUncompiled (hall : ∀ v, s.finder.Offers v → v.Compiles) (st : State) :
    NotUncompiled (ending s.run st).1 := by
  obtain ⟨r, st₁, hprepare, -, herrors, -, hfails⟩ :=
    prepare_served (Bench.serves_compiling hall) st trivial
  rw [run_eq]
  rcases r with e | e | layers
  · rw [ending_bind_error hprepare]
    rcases herrors e rfl with rfl | ⟨c, rfl⟩ | rfl <;> exact ⟨nofun, nofun⟩
  · obtain ⟨v, -, hserved⟩ := hfails e rfl
    obtain ⟨page, hpage⟩ := hserved.fits
    cases hpage
  · rw [ending_bind_ok hprepare]
    unfold proceed
    dsimp only
    rw [ending_execute]
    have hlayers := (neverUncompiled_closed hall).layers layers { st₁ with phase := .executing }
    rcases hr : ending (Render.runLayers s.scene layers) { st₁ with phase := .executing } with
      ⟨e | u, st'⟩ <;> rw [hr] at hlayers
    · refine executionFailed_notUncompiled (fun f hf => ?_) st'
      exact hlayers f (congrArg Except.error hf)
    · obtain ⟨-, ⟨bytes, hcomplete⟩ | ⟨fault, hcomplete⟩⟩ := complete_ends st' <;> dsimp only <;>
        rw [hcomplete] <;> exact ⟨nofun, nofun⟩

end Session

namespace Engine

/-- Requests that bring no catalog leave the engine its own. -/
theorem run_keeps (e : Engine) {requests : List Request}
    (hkept : ∀ request ∈ requests, request.catalog? = none) :
    (e.run requests).2.catalog = e.catalog ∧ (e.run requests).2.settings = e.settings := by
  induction requests generalizing e with
  | nil => exact ⟨rfl, rfl⟩
  | cons request requests ih =>
    obtain ⟨hrequest, hothers⟩ := List.forall_mem_cons.mp hkept
    obtain ⟨hcatalog, hsettings⟩ := e.step_keeps request
    rw [hrequest] at hcatalog
    obtain ⟨hcatalog', hsettings'⟩ := ih (e.step request).2 hothers
    exact ⟨hcatalog'.trans hcatalog, hsettings'.trans hsettings⟩

/-- All listed views have been compiled by a check that comes to its end. -/
theorem checked_of_checkAll {e : Engine} {views : List View} (hlist : e.finder.listAll = .ok views)
    {failures : List Failure} (hchecked : e.checkAll.1 = .ok failures) :
    ∀ v ∈ views, v.Compiles ∨ ∃ f ∈ failures, v.compiled = .error (.failure f) := by
  have hfailures : (ending (Bench.failuresOf views) .empty).1 = .ok failures := by
    unfold checkAll at hchecked
    rw [hlist] at hchecked
    unfold ending
    dsimp only [EStateM.run] at hchecked
    cases hr : Bench.failuresOf views .empty <;> rw [hr] at hchecked <;> exact hchecked
  exact Bench.checked_of_failuresOf hfailures

theorem compiles_of_checkAll {shelf : Shelf} {e : Engine} (hshelf : e.catalog = shelf.toCatalog)
    (hchecked : e.checkAll.1 = .ok []) : ∀ v, e.finder.Offers v → v.Compiles := by
  have hlist : e.finder.listAll = .ok (shelf.views e.settings.extensions) := by
    show e.catalog.list e.settings.extensions = _
    rw [hshelf]
    rfl
  rintro v ⟨a, ha⟩
  have hfound : shelf.toCatalog.locate e.settings.extensions a = .ok (some v) := hshelf ▸ ha
  rcases checked_of_checkAll hlist hchecked v (Shelf.mem_views (Except.ok.inj hfound)) with hcompiles | ⟨f, hf, -⟩
  · exact hcompiles
  · cases hf

/-- Once checking a shelf has found no failure, no render fails because a view does not compile, whatever has
been asked of the engine in between and whatever its cache holds. -/
theorem render_of_checked {shelf : Shelf} {e : Engine} (hshelf : e.catalog = shelf.toCatalog)
    (hchecked : e.checkAll.1 = .ok []) {requests : List Request}
    (hkept : ∀ request ∈ requests, request.catalog? = none) (mode : RenderMode) (view : String)
    (model : Json) (sink : Sink) {result : Except RenderError Outcome} {before after : Phase} {final : Sink}
    (hrendered : ((e.run requests).2.render mode view model sink).1.response =
      .rendered result before after final) :
    (∀ f, result = .ok (.diagnosticPage f) → f.stage ≠ .compilation) ∧
      ∀ view' f, result ≠ .error (.committed view' (.compilation f)) := by
  obtain ⟨hcatalog, hsettings⟩ := e.run_keeps hkept
  generalize (e.run requests).2 = e' at *
  have hall : ∀ v, (e'.session mode view model).finder.Offers v → v.Compiles := by
    have hfinder : (e'.session mode view model).finder = e.finder := by
      show Finder.mk e'.catalog e'.settings.extensions = _
      rw [hcatalog, hsettings]
      rfl
    rw [hfinder]
    exact compiles_of_checkAll hshelf hchecked
  rw [render_eq] at hrendered
  obtain ⟨rfl, -⟩ := Response.rendered.inj hrendered
  obtain ⟨hpage, hcommitted⟩ := Session.run_notUncompiled hall
    ((e'.session mode view model).start sink e'.cancelled e'.bench)
  exact ⟨hpage, hcommitted⟩

/-- A layout around a page that asks for a partial view. -/
def threeViews : Shelf :=
  .ofFiles [("_ViewStart.html", .text "<\x7b\x7b render_body \x7d\x7d>"),
    ("page.html", .text "\x7b\x7b partial \"part\" \x7d\x7d"), ("part.html", .text "\x7b\x7b model.x \x7d\x7d")]

/-- Caches pages, and puts layouts around partial views too. -/
def wrapping : Settings :=
  { Settings.default with cacheCompiled := true, layoutsForPartials := true, bufferLimit := 0 }

/-- A render of the page, in which the partial view shows a value that is missing. -/
def showMissing : Request := .render .cancellable "page" (.obj []) .accepting

theorem render_of_checked_again :
    let e := new wrapping threeViews.toCatalog
    e.checkAll.1 = .ok [] ∧ ∃ result before after final,
      ((e.run [showMissing]).2.render .cancellable "page" (.obj []) .accepting).1.response =
          .rendered result before after final ∧
        (∀ f, result = .ok (.diagnosticPage f) → f.stage ≠ .compilation) ∧
        ∀ view' f, result ≠ .error (.committed view' (.compilation f)) := by
  intro e
  have hchecked : e.checkAll.1 = .ok [] := by decide +kernel
  have hkept : ∀ request ∈ [showMissing], request.catalog? = none := by
    intro request hrequest
    obtain rfl := List.mem_singleton.mp hrequest
    rfl
  have hresponse := congrArg (·.1.response)
    ((e.run [showMissing]).2.render_eq .cancellable "page" (.obj []) .accepting)
  exact ⟨hchecked, _, _, _, _, hresponse,
    render_of_checked rfl hchecked hkept .cancellable "page" (.obj []) .accepting hresponse⟩

end Engine

end LayeredViews
