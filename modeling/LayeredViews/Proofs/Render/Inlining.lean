import LayeredViews.Proofs.Render.Lockstep
import LayeredViews.Proofs.Render.Unwatching

/-!
# Inlining — layers around a leaf, and the one page that does the same

A layout whose page renders what it wraps at one place, outside of all blocks, or nowhere is cut there into
what comes before and what comes after.  A chain of such layouts around a leaf does what the one page does that
has the parts before, then the leaf, then the parts after from the inside out: the same goes to the output
and into the bag, and it fails with the same fault if it fails, at another place of course.
-/

namespace LayeredViews

open Template (Page Expr SetValue)
open Text (Position)

/-! ### Cut pages -/

/-- A page is cut at its one place for the wrapped content, which stands outside of all blocks; a page
without one is cut at its end. -/
inductive Template.Page.Splits : Page → Page → Page → Prop where
  | around {before after : Page} (pos : Position) (outer : before.rendersBody = false)
    (inner : after.rendersBody = false) : Splits (before ++ .renderBody pos after) before after
  | ahead {page : Page} (nowhere : page.rendersBody = false) : Splits page page .done

theorem Template.Page.Splits.before_rendersBody {page before after : Page}
    (h : page.Splits before after) : before.rendersBody = false := by
  cases h <;> assumption

theorem Template.Page.Splits.after_rendersBody {page before after : Page}
    (h : page.Splits before after) : after.rendersBody = false := by
  cases h with
  | around _ _ inner => exact inner
  | ahead _ => rfl

/-- A layout with its page cut where it renders what it wraps. -/
structure Layout where
  layer : Layer
  before : Page
  after : Page
  splits : layer.page.Splits before after

/-- Pages one after the other. -/
def Template.Page.concat : List Page → Page
  | [] => .done
  | page :: pages => page ++ concat pages

/-- The parts of some layouts, the outermost one first, around a page. -/
def Layout.wrap (leaf : Page) : List Layout → Page
  | [] => leaf
  | l :: ls => l.before ++ (wrap leaf ls ++ l.after)

theorem Template.Page.concat_append (ps qs : List Page) : concat (ps ++ qs) = concat ps ++ concat qs := by
  induction ps with
  | nil => rfl
  | cons p ps ih =>
    show p ++ concat (ps ++ qs) = p ++ concat ps ++ concat qs
    rw [ih, append_assoc]

theorem Layout.wrap_eq (leaf : Page) (ls : List Layout) :
    wrap leaf ls = Page.concat (ls.map before) ++ leaf ++ Page.concat (ls.map after).reverse := by
  induction ls with
  | nil => exact (Page.append_done _).symm
  | cons l ls ih =>
    have hlast : Page.concat [l.after] = l.after := Page.append_done _
    show l.before ++ (wrap leaf ls ++ l.after) =
      l.before ++ Page.concat (ls.map before) ++ leaf ++ Page.concat (l.after :: ls.map after).reverse
    rw [ih, List.reverse_cons, Page.concat_append, hlast]
    simp only [Page.append_assoc]

/-! ### Running cut pages -/

namespace Render

theorem runPage_append (cx : PageContext) (p q : Page) (locals : Locals) :
    runPage cx (p ++ q) locals = (do
      let n ← runPage cx p locals
      let m ← runPage cx q locals
      return n + m) := by
  show runPage cx (p.append q) locals = _
  induction p with
  | done => simp only [Page.append, runPage, pure_bind, Nat.zero_add, bind_pure]
  | cond e yes no rest _ _ ih =>
    simp only [Page.append, runPage, ih, bind_assoc, pure_bind]
    refine bind_congr fun b => ?_
    cases b with
    | true => simp only [if_true, bind_assoc, pure_bind, Nat.add_assoc]
    | false => simp only [Bool.false_eq_true, if_false, bind_assoc, pure_bind, Nat.add_assoc]
  | each source binding body pos rest _ ih =>
    simp only [Page.append, runPage, ih, bind_assoc, pure_bind, Nat.add_assoc]
  | _ => simp only [Page.append, runPage, *, bind_assoc, pure_bind, Nat.add_assoc]

/-- Gives nothing but zero. -/
def GivesZero (x : Render Nat) : Prop :=
  x = x >>= fun _ => pure 0

theorem GivesZero.bind {α : Type} {f : α → Render Nat} (x : Render α) (hf : ∀ a, GivesZero (f a)) :
    GivesZero (x >>= f) := by
  unfold GivesZero
  rw [bind_assoc]
  exact bind_congr hf

theorem GivesZero.add {x y : Render Nat} (hx : GivesZero x) (hy : GivesZero y) :
    GivesZero (do
      let n ← x
      let m ← y
      return n + m) := by
  have hadd : (x >>= fun n => y >>= fun m => pure (n + m)) = x >>= fun _ => y := by
    rw [hx]
    simp only [bind_assoc, pure_bind, Nat.zero_add, bind_pure]
  unfold GivesZero
  rw [hadd, bind_assoc]
  exact bind_congr fun _ => hy

theorem sumOver_zero {α : Type} {run : α → Render Nat} (hrun : ∀ a, GivesZero (run a))
    (as : List α) : GivesZero (sumOver run as) := by
  induction as with
  | nil => exact (pure_bind 0 _).symm
  | cons a as ih => exact (hrun a).add ih

/-- A page without a place for the wrapped content renders it no times. -/
theorem runPage_zero {cx : PageContext} {p : Page} (hp : p.rendersBody = false) (locals : Locals) :
    GivesZero (runPage cx p locals) := by
  induction p generalizing locals with
  | done => exact (pure_bind 0 _).symm
  | renderBody pos rest => cases hp
  | text content rest ih => exact .bind _ fun _ => ih hp locals
  | echo e escaped pos rest ih => exact .bind _ fun _ => ih hp locals
  | partialView name pos rest ih => exact .bind _ fun _ => ih hp locals
  | set key value rest ih => exact .bind _ fun _ => ih hp locals
  | cond e yes no rest ihyes ihno ih =>
    obtain ⟨hbranches, hrest⟩ := Bool.or_eq_false_iff.mp hp
    obtain ⟨hyes, hno⟩ := Bool.or_eq_false_iff.mp hbranches
    refine .bind _ fun b => ?_
    cases b with
    | true => exact (ihyes hyes locals).add (ih hrest locals)
    | false => exact (ihno hno locals).add (ih hrest locals)
  | each source binding body pos rest ihbody ih =>
    obtain ⟨hbody, hrest⟩ := Bool.or_eq_false_iff.mp hp
    refine .bind _ fun st => .bind _ fun items => ?_
    exact (sumOver_zero (fun item => ihbody hbody ((binding, item) :: locals)) items).add
      (ih hrest locals)

/-- A layer starts, runs its page and what it wraps if its page did not. -/
theorem runLayers_cons (scene : Scene) (outer next : Layer) (others : List Layer) :
    runLayers scene (outer :: next :: others) = (do
      checkCancelled scene.heedsFlag
      noteStart outer.template scene.depth
      let rendered ← runPage ⟨scene, outer.template, some (runLayers scene (next :: others))⟩ outer.page []
      if rendered = 0 then runLayers scene (next :: others)) := by
  rw [runLayers, runLayer, bind_assoc]
  refine bind_congr fun _ => ?_
  rw [bind_assoc]

/-- A cut layout runs its first part, what it wraps, and its second part. -/
theorem runLayers_splits {scene : Scene} {outer : Layer} {before after : Page}
    (h : outer.page.Splits before after) {inner : List Layer} (hinner : inner ≠ []) :
    let cx : PageContext := ⟨scene, outer.template, some (runLayers scene inner)⟩
    runLayers scene (outer :: inner) = (do
      checkCancelled scene.heedsFlag
      noteStart outer.template scene.depth
      let _ ← runPage cx before []
      runLayers scene inner
      let _ ← runPage cx after []
      return ()) := by
  intro cx
  obtain ⟨next, others, rfl⟩ := List.exists_cons_of_ne_nil hinner
  rw [runLayers_cons]
  refine bind_congr fun _ => bind_congr fun _ => ?_
  generalize outer.page = page at h
  cases h with
  | around pos houter _ =>
    rw [runPage_append, bind_assoc]
    refine bind_congr fun n => ?_
    simp only [runPage, bind_assoc, pure_bind]
    refine bind_congr fun _ => bind_congr fun k => ?_
    rw [if_neg (by omega)]
  | ahead nowhere =>
    rw [runPage_zero nowhere]
    simp only [runPage, bind_assoc, pure_bind, if_true]
    exact bind_congr fun _ => (bind_pure _).symm

end Render

/-! ### Pages and layers -/

/-- An error without the page that a runtime error names. -/
def ExecError.anonymous : ExecError → ExecError
  | .runtime _ pos fault => .runtime "" pos fault
  | e => e

namespace Render

/-- The two do the same, but for what a runtime error names, from states with one journal but for what tells
of pages that start. -/
abbrev Equal (heeds : Bool) {α : Type} (x y : Render α) : Prop :=
  Matches (State.Akin heeds) ExecError.anonymous x y

theorem withBag_equal {heeds : Bool} {α : Type} (f f' : Bag → Render α)
    (hf : ∀ bag, Equal heeds (f bag) (f' bag)) : Equal heeds (do f (← get).bag) (do f' (← get).bag) := by
  intro st st' h
  rw [ending_get_bind fun st => f (State.bag st), ending_get_bind fun st => f' (State.bag st), ← h.bag]
  exact hf st.bag st st' h

section Pages

variable {scene : Scene} {cx cx' : PageContext} (hcx : cx.scene = scene) (hcx' : cx'.scene = scene)
  {heeds : Bool}

theorem orFault_equal {α : Type} (pos : Position) (v : Except Fault α) :
    Equal heeds (orFault cx pos v) (orFault cx' pos v) := by
  cases v with
  | ok a => exact .pure a
  | error fault => exact .throw rfl

include hcx hcx'

theorem echo_equal (locals : Locals) (e : Expr) (escaped : Bool) (pos : Position) :
    Equal heeds (echo cx locals e escaped pos) (echo cx' locals e escaped pos) := by
  refine withBag_equal
    (fun bag => orFault cx pos (echoed cx.scene.model locals bag e escaped) >>= writeText)
    (fun bag => orFault cx' pos (echoed cx'.scene.model locals bag e escaped) >>= writeText)
    fun bag => ?_
  rw [hcx, hcx']
  exact (orFault_equal pos _).bind fun text => (writeText_respects_akin text).matches _

theorem test_equal (locals : Locals) (e : Expr) :
    Equal heeds (test cx locals e) (test cx' locals e) := by
  refine withBag_equal
    (fun bag => Pure.pure (((valueOf cx.scene.model locals bag e).map Json.truthy).getD false))
    (fun bag => Pure.pure (((valueOf cx'.scene.model locals bag e).map Json.truthy).getD false))
    fun bag => ?_
  rw [hcx, hcx']
  exact .pure _

theorem set_equal (locals : Locals) (key : String) (value : SetValue) :
    Equal heeds (set cx locals key value) (set cx' locals key value) := by
  unfold Render.set
  rw [hcx, hcx']
  exact (setBag_respects_akin fun bag => bag.set key (setValueOf scene.model locals bag value)).matches _

theorem partialView_equal (hscene : scene.Unwatching) (name : String) (pos : Position) :
    Equal scene.heedsFlag (partialView cx name pos) (partialView cx' name pos) := by
  unfold partialView
  rw [hcx, hcx']
  cases hdeeper : scene.deeper? with
  | none => exact .throw rfl
  | some render =>
    exact (checkCancelled_respects_akin.matches _).bind fun _ =>
      (hscene render hdeeper name).matches _

theorem items_equal (locals : Locals) (source : Expr) (pos : Position) :
    Equal heeds (items cx locals source pos) (items cx' locals source pos) := by
  refine withBag_equal
    (fun bag => orFault cx pos (loopItems cx.scene.model locals bag source))
    (fun bag => orFault cx' pos (loopItems cx'.scene.model locals bag source))
    fun bag => ?_
  rw [hcx, hcx']
  exact orFault_equal pos _

/-- What a page does depends neither on its name nor on what it wraps, if it does not render that. -/
theorem runPage_equal (hscene : scene.Unwatching) {p : Page}
    (hbody : p.rendersBody = true → cx.body? = none ∧ cx'.body? = none) (locals : Locals) :
    Equal scene.heedsFlag (runPage cx p locals) (runPage cx' p locals) := by
  refine runPage_matches (fun node hnode locals => ?_) locals
  cases node with
  | text content => exact (writeText_respects_akin content).matches _
  | echo e escaped pos => exact echo_equal hcx hcx' locals e escaped pos
  | renderBody pos =>
    obtain ⟨hnone, hnone'⟩ := hbody ((Page.rendersBody_iff p).mpr ⟨pos, hnode⟩)
    show Equal scene.heedsFlag (renderBody cx pos) (renderBody cx' pos)
    unfold renderBody
    rw [hnone, hnone']
    exact .throw rfl
  | partialView name pos => exact partialView_equal hcx hcx' hscene name pos
  | set key value => exact set_equal hcx hcx' locals key value
  | cond e => exact test_equal hcx hcx' locals e
  | each source binding pos => exact items_equal hcx hcx' locals source pos

end Pages

section Layers

variable {scene : Scene} (hscene : scene.Unwatching)

/-- How a layer starts does not count. -/
theorem Equal.starting {α : Type} {heeds : Bool} {x y : Render α} (h : Equal heeds x y)
    (template : String) (depth : Nat) :
    Equal heeds (do checkCancelled heeds; noteStart template depth; x) y := by
  refine Matches.skip (fun st st' hst => ⟨st, checkCancelled_calm hst, hst⟩) ?_
  exact Matches.skip (fun st st' hst => ⟨_, rfl, hst.started template depth⟩) h

theorem runLayers_single (leaf : Layer) :
    runLayers scene [leaf] = (do
      checkCancelled scene.heedsFlag
      noteStart leaf.template scene.depth
      let _ ← runPage ⟨scene, leaf.template, none⟩ leaf.page []
      return ()) := by
  simp only [runLayers, runLayer, bind_assoc]

include hscene

/-- By induction on the layouts, from the outermost one inwards: each runs its first part, then what is
wrapped by it, which is the chain without it, then its second part. -/
theorem runLayers_equal (template : String) (leaf : Layer) (chain : List Layout) :
    Equal scene.heedsFlag (runLayers scene (chain.map Layout.layer ++ [leaf]))
      (runPage ⟨scene, template, none⟩ (Layout.wrap leaf.page chain) [] >>= fun _ => pure ()) := by
  induction chain with
  | nil =>
    rw [List.map_nil, List.nil_append, runLayers_single]
    have hleaf : Equal scene.heedsFlag (runPage ⟨scene, leaf.template, none⟩ leaf.page [])
        (runPage ⟨scene, template, none⟩ leaf.page []) := by
      refine runPage_equal ?_ ?_ hscene (fun _ => ⟨rfl, rfl⟩) [] <;> rfl
    exact Equal.starting (hleaf.bind fun _ => .pure ()) leaf.template scene.depth
  | cons l ls ih =>
    have hinner : ls.map Layout.layer ++ [leaf] ≠ [] := by simp
    let cx : PageContext :=
      ⟨scene, l.layer.template, some (runLayers scene (ls.map Layout.layer ++ [leaf]))⟩
    let flat : PageContext := ⟨scene, template, none⟩
    have hpart : ∀ part : Page, part.rendersBody = false →
        Equal scene.heedsFlag (runPage cx part []) (runPage flat part []) := by
      intro part hnone
      refine runPage_equal ?_ ?_ hscene (fun h => ?_) []
      · rfl
      · rfl
      · rw [hnone] at h
        cases h
    have hflat : (runPage flat (Layout.wrap leaf.page (l :: ls)) [] >>= fun _ => pure ()) = (do
        let _ ← runPage flat l.before []
        runPage flat (Layout.wrap leaf.page ls) [] >>= fun _ => pure ()
        let _ ← runPage flat l.after []
        return ()) := by
      simp only [Layout.wrap, runPage_append, bind_assoc, pure_bind]
    rw [hflat, List.map_cons, List.cons_append, runLayers_splits l.splits hinner]
    refine Equal.starting ?_ l.layer.template scene.depth
    exact (hpart l.before l.splits.before_rendersBody).bind fun _ => ih.bind fun _ =>
      (hpart l.after l.splits.after_rendersBody).bind fun _ => .pure ()

/-- Where no cancel flag that is heeded is raised, a chain of layouts around a leaf does what the one page does
that has the parts of the layouts before, the leaf, and the parts after: it sends and holds back the same
text, leaves the same bag, and ends the same but for the page that a runtime error names. -/
theorem runLayers_inlined (chain : List Layout) (leaf : Layer) (template : String) (st : State)
    (hcalm : scene.heedsFlag = true → st.Calm) :
    let page := Page.concat (chain.map Layout.before) ++ leaf.page ++
      Page.concat (chain.map Layout.after).reverse
    let layered := ending (runLayers scene (chain.map Layout.layer ++ [leaf])) st
    let flat := ending (runLayers scene [⟨template, .leaf, page⟩]) st
    layered.1.mapError ExecError.anonymous = flat.1.mapError ExecError.anonymous ∧
      layered.2.out = flat.2.out ∧ layered.2.bag = flat.2.bag := by
  intro page layered flat
  have hpage : page = Layout.wrap leaf.page chain := (Layout.wrap_eq leaf.page chain).symm
  have hequal : Equal scene.heedsFlag (runLayers scene (chain.map Layout.layer ++ [leaf]))
      (runLayers scene [⟨template, .leaf, page⟩]) := by
    rw [runLayers_single, hpage]
    have hflat := (runLayers_equal hscene template leaf chain).symm fun _ _ => State.Akin.symm
    exact (Equal.starting hflat template scene.depth).symm fun _ _ => State.Akin.symm
  obtain ⟨hresult, hstates⟩ := hequal st st (.refl hcalm)
  exact ⟨hresult, hstates.out, hstates.bag⟩

end Layers

/-- A session that heeds the cancel flag, with a view `p` that can be a partial one. -/
def onePartial : Session where
  catalog :=
    { locate := fun _ a => .ok (if a.name = "p" then some ⟨a, "html", .text "partial"⟩ else none)
      list := fun _ => .ok [] }
  settings := .default
  view := "page"
  model := .obj []
  heedsFlag := true
  raises _ _ := false

/-- A layout that shows a key of the bag behind what it wraps. -/
def showingKey : Layout where
  layer := ⟨"outer", .ancestor,
    .text "<" .done ++ .renderBody .start (.echo ⟨.bag, ["k"], "view.k"⟩ false .start .done)⟩
  before := .text "<" .done
  after := .echo ⟨.bag, ["k"], "view.k"⟩ false .start .done
  splits := .around .start rfl rfl

/-- A layout that does not say where what it wraps goes. -/
def heading : Layout where
  layer := ⟨"inner", .ancestor, .text "-" .done⟩
  before := .text "-" .done
  after := .done
  splits := .ahead rfl

/-- A page that sets the key and renders a partial view. -/
def settingKey : Layer :=
  ⟨"leaf", .leaf, .set "k" (.literal "v") (.partialView "p" .start .done)⟩

/-- A state with nothing written yet. -/
def blank : State := ⟨.executing, .empty, .on .accepting 16, false, 0, .empty⟩

theorem runLayers_inlined_of_key :
    let chain := [showingKey, heading]
    let page := Page.concat (chain.map Layout.before) ++ settingKey.page ++
      Page.concat (chain.map Layout.after).reverse
    let layered := ending (runLayers onePartial.scene (chain.map Layout.layer ++ [settingKey])) blank
    let flat := ending (runLayers onePartial.scene [⟨"flat", .leaf, page⟩]) blank
    onePartial.scene.Unwatching ∧ (onePartial.scene.heedsFlag = true → blank.Calm) ∧
      layered.1.mapError ExecError.anonymous = flat.1.mapError ExecError.anonymous ∧
      layered.2.out = flat.2.out ∧ layered.2.bag = flat.2.bag ∧
      flat.2.out.buffer = "<-partialv" := by
  have hscene : onePartial.scene.Unwatching := onePartial.scene_unwatching fun _ _ _ => rfl
  have hcalm : blank.Calm := ⟨rfl, fun _ => rfl⟩
  have hbuffer : (ending (runLayers onePartial.scene [⟨"flat", .leaf,
      Page.concat ([showingKey, heading].map Layout.before) ++ settingKey.page ++
        Page.concat ([showingKey, heading].map Layout.after).reverse⟩]) blank).2.out.buffer =
          "<-partialv" := by
    decide +kernel
  have hsame := runLayers_inlined hscene [showingKey, heading] settingKey "flat" blank fun _ => hcalm
  exact ⟨hscene, fun _ => hcalm, hsame.1, hsame.2.1, hsame.2.2, hbuffer⟩

end Render

end LayeredViews
