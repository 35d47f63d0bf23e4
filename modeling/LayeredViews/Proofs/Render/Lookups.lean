import LayeredViews.Proofs.Cache.Transparent
import LayeredViews.Proofs.Catalog.Located
import LayeredViews.Proofs.Render.Telling

/-!
# Lookups — for which addresses an engine asks its catalog

A view may be asked for by any text: by the caller, by a page that asks for a partial view, and by the name of the
layouts in the settings.  Whatever the text, the engine asks its catalog for addresses of plain segments alone
(`step_rooted`), and a directory that is asked looks at no path but those that lead from its root down through such
segments to a file: `names_stay_below_root`.
-/

namespace LayeredViews

open Address (isPlainSegment)

/-! ### Searches -/

namespace Finder

variable (f : Finder) (path : String)

theorem locate_rooted : Tells id Address.Rooted (f.locate path) := by
  unfold locate
  dsimp only
  split
  · next hplain =>
    exact .one (fun asked => by rw [Search.ending_lookUp]; rfl) (Address.rooted_of_isPlain hplain)
  · exact .pure none

theorem has_rooted : Tells id Address.Rooted (f.has path) :=
  (f.locate_rooted path).bind fun _ => .pure _

theorem require_rooted : Tells id Address.Rooted (f.require path) := by
  refine (f.locate_rooted path).bind fun found => ?_
  cases found with
  | none => exact .throw _
  | some view => exact .pure view

theorem read_rooted : Tells id Address.Rooted (f.read path) := by
  refine (f.require_rooted path).bind fun view => ?_
  cases view.source with
  | error e => exact .throw e
  | ok text => exact .pure text

end Finder

namespace Layering

variable (f : Finder)

theorem locateAll_rooted (leafPath : String) (candidates : List String) :
    Tells id Address.Rooted (locateAll f leafPath candidates) := by
  induction candidates with
  | nil => exact .pure []
  | cons candidate others ih =>
    rw [locateAll]
    split
    · exact ih
    refine (f.locate_rooted candidate).bind fun found => ?_
    cases found with
    | none => exact ih
    | some view => exact ih.bind fun views => .pure _

theorem layoutsOf_rooted (layoutName leafPath : String) :
    Tells id Address.Rooted (layoutsOf f layoutName leafPath) :=
  locateAll_rooted f leafPath _

theorem resolve_rooted (layoutName path : String) :
    Tells id Address.Rooted (resolve f layoutName path) :=
  (f.require_rooted path).bind fun leaf =>
    (layoutsOf_rooted f layoutName leaf.path).bind fun _ => .pure _

end Layering

/-! ### Renders -/

/-- Tells of no lookup, unless at a rooted address. -/
def Event.LooksBelow (e : Event) : Prop :=
  ∀ a, e = .lookup a → a.Rooted

theorem Event.Prepares.looksBelow {A : Address → Prop} (hA : ∀ a, A a → a.Rooted) {e : Event}
    (h : e.Prepares A) : e.LooksBelow := by
  intro a heq
  subst heq
  cases h with
  | lookup ha => exact hA a ha

theorem mem_lookupsOf {journal : List Event} {a : Address} :
    a ∈ lookupsOf journal ↔ .lookup a ∈ journal := by
  unfold lookupsOf
  rw [List.mem_filterMap]
  constructor
  · rintro ⟨e, he, hlookup⟩
    cases e with
    | lookup a' =>
      obtain rfl := Option.some.inj hlookup
      exact he
    | _ => cases hlookup
  · exact fun h => ⟨.lookup a, h, rfl⟩

namespace Session

variable (s : Session)

theorem resolvePartial_rooted (name : String) : Tells id Address.Rooted (s.resolvePartial name) := by
  unfold resolvePartial
  split
  · exact Layering.resolve_rooted s.finder _ name
  · exact (s.finder.require_rooted name).bind fun _ => .pure _

theorem rooted_of_looksUp (a : Address) (h : s.LooksUp a) : a.Rooted := by
  rcases h with h | ⟨name, h⟩
  · exact (Layering.resolve_rooted s.finder _ s.view).of_empty rfl a h
  · exact (s.resolvePartial_rooted name).of_empty rfl a h

/-- All lookups of a render are at rooted addresses, those for partial views at any depth among them. -/
theorem looksBelow_tale : s.Tale fun _ => Event.LooksBelow where
  prepares _ _ he := he.looksBelow s.rooted_of_looksUp
  started _ _ _ := nofun
  refused _ := nofun
  deeper he := he

end Session

/-! ### Engines -/

theorem Bench.failuresOf_tells {A : Address → Prop} (views : List View) :
    Tells Bench.journal (Event.Prepares A) (failuresOf views) := by
  have hone : ∀ view, Tells Bench.journal (Event.Prepares A) (failureOf? view) := by
    intro view
    refine (Compose.readSource_tells view).bind fun source st => ?_
    obtain ⟨told, htold, hall⟩ := Compose.compileSource_tells (A := A) view source st
    refine ⟨told, ?_, hall⟩
    rw [← htold]
    unfold ending
    cases hc : compileSource view source st <;> simp [hc]
  induction views with
  | nil => exact .pure []
  | cons view views ih => exact (hone view).bind fun _ => ih.bind fun _ => .pure _

namespace Engine

variable (e : Engine)

theorem search_rooted {α : Type} {x : Search α} (hx : Tells id Address.Rooted x)
    (respond : Except ContentError α → Response) :
    ∀ a ∈ lookupsOf (e.search x respond).1.journal, a.Rooted := by
  intro a ha
  have hjournal : (e.search x respond).1.journal = (ending x .empty).2.toList.map .lookup := by
    unfold search ending EStateM.run
    cases x .empty <;> rfl
  rw [hjournal, mem_lookupsOf] at ha
  obtain ⟨a', ha', heq⟩ := List.mem_map.mp ha
  obtain rfl := Event.lookup.inj heq
  exact hx.of_empty rfl a' ha'

theorem rooted_of_tells {told : List Event} (h : ∀ event ∈ told, event.LooksBelow) :
    ∀ a ∈ lookupsOf told, a.Rooted :=
  fun a ha => h (.lookup a) (mem_lookupsOf.mp ha) a rfl

theorem render_rooted (mode : RenderMode) (view : String) (model : Json) (sink : Sink) :
    ∀ a ∈ lookupsOf (e.render mode view model sink).1.journal, a.Rooted := by
  obtain ⟨told, htold, hall⟩ := (e.session mode view model).looksBelow_tale.run
    ((e.session mode view model).start sink e.cancelled e.bench)
  have hjournal : (e.render mode view model sink).1.journal = told := by
    rw [render_eq]
    exact htold
  rw [hjournal]
  exact rooted_of_tells hall

theorem checkAll_journal {views : List View} (h : e.finder.listAll = .ok views) :
    e.checkAll.2 = (ending (Bench.failuresOf views) .empty).2.journal.toList := by
  unfold checkAll ending EStateM.run
  rw [h]
  dsimp only
  cases Bench.failuresOf views .empty <;> rfl

theorem checkAll_rooted : ∀ a ∈ lookupsOf e.checkAll.2, a.Rooted := by
  cases hlisted : e.finder.listAll with
  | error err =>
    have hnothing : e.checkAll.2 = [] := by
      unfold checkAll
      rw [hlisted]
    rw [hnothing]
    simp [lookupsOf]
  | ok views =>
    have htells : Tells Bench.journal (Event.Prepares Address.Rooted) (Bench.failuresOf views) :=
      Bench.failuresOf_tells views
    rw [e.checkAll_journal hlisted]
    exact rooted_of_tells fun event hevent => (htells.of_empty rfl event hevent).looksBelow fun _ => id

/-- Whatever an engine is asked, it asks its catalog for rooted addresses alone. -/
theorem step_rooted (request : Request) : ∀ a ∈ lookupsOf (e.step request).1.journal, a.Rooted := by
  have hnone : ∀ a ∈ lookupsOf [], a.Rooted := by simp [lookupsOf]
  unfold step
  cases request <;> dsimp only
  case render mode view model sink => exact e.render_rooted mode view model sink
  case resolve path =>
    exact e.search_rooted (Layering.resolve_rooted e.finder e.settings.layoutName path) .layering
  case layouts path =>
    exact e.search_rooted (Layering.layoutsOf_rooted e.finder e.settings.layoutName path) .views
  case locate path => exact e.search_rooted (e.finder.locate_rooted path) .found
  case has path => exact e.search_rooted (e.finder.has_rooted path) .has
  case read path => exact e.search_rooted (e.finder.read_rooted path) .source
  case checkAll => exact e.checkAll_rooted
  all_goals exact hnone

theorem run_rooted (requests : List Request) :
    ∀ answer ∈ (e.run requests).1, ∀ a ∈ lookupsOf answer.journal, a.Rooted := by
  induction requests generalizing e with
  | nil => simp [run]
  | cons request requests ih => exact List.forall_mem_cons.mpr ⟨e.step_rooted request, ih _⟩

end Engine

/-! ### Directories -/

/-- No name leads out of the root of a directory.  Whatever an engine is asked in whatever history, it looks up
rooted addresses alone.  And whatever address a directory is asked for: one that is not plain gives no view, without
regard to what files there are; for a plain one each path that is looked at goes from the root down through the
directories of the address to one file, what is located depends on the entries at these paths alone, and a view that
is located has the contents of the file at its own path, the first one that is there. -/
theorem names_stay_below_root (e : Engine) (requests : List Request) (d : Directory) (a : Address)
    (extensions : List String) (hextensions : ∀ x ∈ extensions, '/' ∉ x.toList) :
    (∀ answer ∈ (e.run requests).1, ∀ asked ∈ lookupsOf answer.journal, asked.Rooted) ∧
      (a.isPlain = false → ∀ files, ({ d with files } : Directory).locate extensions a = .ok none) ∧
      (a.isPlain = true →
        (isPlainSegment a.name.toList = true ∧
          ∀ dir ∈ Address.directories a.location, isPlainSegment dir = true) ∧
        (∀ x ∈ extensions, Descends d.root (d.fileOf a x)
          (Address.directories a.location ++ [a.name.toList ++ '.' :: x.toList])) ∧
        (∀ files, (∀ x ∈ extensions, files.stat (d.fileOf a x) = d.files.stat (d.fileOf a x)) →
          ({ d with files } : Directory).locate extensions a = d.locate extensions a) ∧
        ∀ v, d.locate extensions a = .ok (some v) ↔
          v.toAddress = a ∧ d.files.stat (d.fileOf a v.extension) = .ok (.file v.contents) ∧
            ∃ before after, extensions = before ++ v.extension :: after ∧
              ∀ x ∈ before, Directory.PassedOver (d.files.stat (d.fileOf a x))) := by
  refine ⟨e.run_rooted requests, fun hplain files => ?_, fun hplain => ⟨?_, ?_, ?_, fun v => ?_⟩⟩
  · unfold Directory.locate
    rw [hplain]
    rfl
  · obtain ⟨hname, hdirs⟩ := Bool.and_eq_true_iff.mp hplain
    exact ⟨hname, List.all_eq_true.mp hdirs⟩
  · exact fun x hx => d.fileOf_descends hplain (hextensions x hx)
  · exact fun files hfiles => Directory.locate_congr hfiles
  · rw [Directory.locate, if_pos hplain]
    exact Directory.locateUnder_eq_some_iff

/-- A directory with a file beside its root. -/
def besideSecret : Directory where
  files :=
    { tree := .dir [("secret.html", .file (.text "s")), ("views", .dir [("home.html", .file (.text "h"))])]
      here := [] }
  root := "views"

/-- The view below the root is found at its path, and the file beside the root is not. -/
theorem names_stay_below_root_besideSecret :
    (∀ x ∈ ["html"], '/' ∉ x.toList) ∧
      Descends "views" (besideSecret.fileOf ⟨"", "home"⟩ "html") ["home.html".toList] ∧
      besideSecret.locate ["html"] ⟨"..", "secret"⟩ = .ok none := by
  have hextensions : ∀ x ∈ ["html"], '/' ∉ x.toList := by decide
  have hbelow := fun a => names_stay_below_root (.new .default besideSecret.toCatalog) [] besideSecret a ["html"]
    hextensions
  refine ⟨hextensions, ?_, (hbelow ⟨"..", "secret"⟩).2.1 (by decide) besideSecret.files⟩
  exact ((hbelow ⟨"", "home"⟩).2.2 (by decide)).2.1 "html" (by simp)

end LayeredViews
