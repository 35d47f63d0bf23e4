import LayeredViews.Proofs.Cache.Stocked
import LayeredViews.Proofs.Cache.Transparent
import LayeredViews.Proofs.Render.Lockstep

/-!
# Unread data — what the model holds beside what the pages look up

Two models are the same to a page if each of its expressions that is rooted in the model leads to the same in
both.  If they are to each page that a view of the catalog has, then a render with either does the very same:
values get into the bag and into loop variables by such expressions only, so that two runs in step share
one state all the way (`run_withModel`).
-/

namespace LayeredViews

open Template (Page Node Expr SetValue)
open Text (Position)

/-! ### Expressions -/

/-- An expression that is rooted in the model leads to the same in both. -/
def Template.Expr.SameOn (m m' : Json) (e : Expr) : Prop :=
  e.root = .model → m.lookup e.path = m'.lookup e.path

/-- So do all expressions of the page. -/
def Template.Page.SameOn (m m' : Json) (page : Page) : Prop :=
  ∀ node ∈ page.nodes, ∀ e ∈ node.exprs, e.SameOn m m'

namespace Render

variable {m m' : Json} {e : Expr} (locals : Locals) (bag : Bag)

theorem valueOf_same (h : e.SameOn m m') : valueOf m locals bag e = valueOf m' locals bag e := by
  unfold valueOf
  cases hroot : e.root with
  | model => exact h hroot
  | bag => rfl
  | loop name => rfl

theorem requiredValue_same (h : e.SameOn m m') :
    requiredValue m locals bag e = requiredValue m' locals bag e := by
  unfold requiredValue
  rw [valueOf_same locals bag h]

theorem echoed_same (h : e.SameOn m m') (escaped : Bool) :
    echoed m locals bag e escaped = echoed m' locals bag e escaped := by
  unfold echoed
  rw [requiredValue_same locals bag h]

theorem loopItems_same (h : e.SameOn m m') : loopItems m locals bag e = loopItems m' locals bag e := by
  unfold loopItems
  rw [requiredValue_same locals bag h]

theorem setValueOf_same {key : String} {value : SetValue}
    (h : ∀ e ∈ (Node.set key value).exprs, e.SameOn m m') :
    setValueOf m locals bag value = setValueOf m' locals bag value := by
  cases value with
  | literal text => rfl
  | expr e =>
    exact congrArg (Option.getD · .null) (valueOf_same locals bag (h e (List.mem_singleton_self e)))

end Render

/-! ### Runs in one state -/

namespace Session

/-- One state, in which the render may go on. -/
def Twins (s : Session) (cache : Option (PageCache Page)) (st st' : State) : Prop :=
  st = st' ∧ s.Serving cache st

/-- The two do the same wherever the render may go on. -/
abbrev Agree (s : Session) (cache : Option (PageCache Page)) {α : Type} (x y : Render α) : Prop :=
  Matches (s.Twins cache) id x y

variable {s : Session} {cache : Option (PageCache Page)}

theorem Agree.ending_eq {α : Type} {x y : Render α} (h : s.Agree cache x y) {st : State}
    (hst : s.Serving cache st) : ending x st = ending y st := by
  have hstates := (h st st ⟨rfl, hst⟩).2.1
  exact Prod.ext (h.result_eq ⟨rfl, hst⟩) hstates

/-- What keeps the bench, or only tells of something, agrees with itself. -/
theorem respects_of_serving {α : Type} {x : Render α}
    (hx : ∀ st, s.Serving cache st → s.Serving cache (ending x st).2) : Respects (s.Twins cache) x := by
  rintro st _ ⟨rfl, hst⟩
  exact ⟨rfl, rfl, hx st hst⟩

theorem serving_note {st : State} (h : s.Serving cache st) (e : Event) : s.Serving cache (st.note e) :=
  (Bench.serves_stocked s.finder cache).note e h

theorem writeText_respects (text : String) : Respects (s.Twins cache) (Render.writeText text) := by
  refine respects_of_serving fun st hst => ?_
  rw [Render.ending_writeText]
  exact hst

theorem checkCancelled_respects (heeds : Bool) : Respects (s.Twins cache) (Render.checkCancelled heeds) := by
  refine respects_of_serving fun st hst => ?_
  rw [Render.ending_checkCancelled]
  split_ifs
  · exact serving_note hst .refused
  · exact hst

theorem noteStart_respects (template : String) (depth : Nat) :
    Respects (s.Twins cache) (Render.noteStart template depth) :=
  respects_of_serving fun _ hst => serving_note hst (.started template depth)

theorem partialLayers_serving (name : String) : Respects (s.Twins cache) (s.partialLayers name) := by
  refine respects_of_serving fun st hst => ?_
  obtain ⟨r, st', hend, hst', -⟩ := partialLayers_served (Bench.serves_stocked s.finder cache) name st hst
  rw [hend]
  exact hst'

theorem withBag_agrees {α : Type} (f f' : Bag → Render α) (hf : ∀ bag, s.Agree cache (f bag) (f' bag)) :
    s.Agree cache (do f (← get).bag) (do f' (← get).bag) := by
  rintro st _ ⟨rfl, hst⟩
  exact hf st.bag st st ⟨rfl, hst⟩

/-! ### Steps of pages -/

/-- Two scenes, each with its model, that share everything else as far as it shows. -/
structure SameBut (s : Session) (cache : Option (PageCache Page)) (m m' : Json) (scene scene' : Scene) :
    Prop where
  left : scene.model = m
  right : scene'.model = m'
  depth : scene.depth = scene'.depth
  maxDepth : scene.maxDepth = scene'.maxDepth
  heedsFlag : scene.heedsFlag = scene'.heedsFlag
  deeper : Option.Rel (fun render render' => ∀ name, s.Agree cache (render name) (render' name))
    scene.deeper? scene'.deeper?

section Steps

variable {m m' : Json} {scene scene' : Scene} (h : s.SameBut cache m m' scene scene') {template : String}
  {body? body?' : Option (Render Unit)}

theorem orFault_agrees {α : Type} (pos : Position) (v : Except Fault α) :
    s.Agree cache (Render.orFault ⟨scene, template, body?⟩ pos v)
      (Render.orFault ⟨scene', template, body?'⟩ pos v) := by
  cases v with
  | ok a => exact .pure a
  | error fault => exact .throw rfl

include h

theorem partialView_agrees (name : String) (pos : Position) :
    s.Agree cache (Render.partialView ⟨scene, template, body?⟩ name pos)
      (Render.partialView ⟨scene', template, body?'⟩ name pos) := by
  have hdeeper := h.deeper
  unfold Render.partialView
  dsimp only
  rw [h.maxDepth, h.heedsFlag]
  generalize scene.deeper? = deeper?, scene'.deeper? = deeper?' at hdeeper
  cases hdeeper with
  | none => exact .throw rfl
  | some hrender => exact ((checkCancelled_respects _).matches _).bind fun _ => hrender name

/-- What a node does by itself agrees if the models are the same to its expressions. -/
theorem step_agrees (hbody : Option.Rel (s.Agree cache) body? body?') {node : Node}
    (hnode : ∀ e ∈ node.exprs, e.SameOn m m') (locals : Locals) :
    Render.StepMatches (s.Twins cache) id ⟨scene, template, body?⟩ ⟨scene', template, body?'⟩ locals node := by
  obtain ⟨rfl, rfl⟩ : scene.model = m ∧ scene'.model = m' := ⟨h.left, h.right⟩
  cases node with
  | text content => exact (writeText_respects content).matches _
  | echo e escaped pos =>
    have hsame : e.SameOn scene.model scene'.model := hnode e (List.mem_singleton_self e)
    refine withBag_agrees
      (fun bag => Render.orFault ⟨scene, template, body?⟩ pos
        (Render.echoed scene.model locals bag e escaped) >>= Render.writeText)
      (fun bag => Render.orFault ⟨scene', template, body?'⟩ pos
        (Render.echoed scene'.model locals bag e escaped) >>= Render.writeText) fun bag => ?_
    rw [Render.echoed_same locals bag hsame]
    exact (orFault_agrees pos _).bind fun text => (writeText_respects text).matches _
  | renderBody pos =>
    show s.Agree cache (Render.renderBody _ pos) (Render.renderBody _ pos)
    unfold Render.renderBody
    cases hbody with
    | none => exact .throw rfl
    | some hbody => exact hbody
  | partialView name pos => exact partialView_agrees h name pos
  | set key value =>
    rintro st _ ⟨rfl, hst⟩
    have hvalue := Render.setValueOf_same locals st.bag hnode
    show _ ∧ State.mk _ _ _ _ _ _ = State.mk _ _ _ _ _ _ ∧ _
    dsimp only
    rw [hvalue]
    exact ⟨rfl, rfl, hst⟩
  | cond e =>
    have hsame : e.SameOn scene.model scene'.model := hnode e (List.mem_singleton_self e)
    refine withBag_agrees
      (fun bag => pure (((Render.valueOf scene.model locals bag e).map Json.truthy).getD false))
      (fun bag => pure (((Render.valueOf scene'.model locals bag e).map Json.truthy).getD false)) fun bag => ?_
    rw [Render.valueOf_same locals bag hsame]
    exact .pure _
  | each source binding pos =>
    have hsame : source.SameOn scene.model scene'.model := hnode source (List.mem_singleton_self source)
    refine withBag_agrees
      (fun bag => Render.orFault ⟨scene, template, body?⟩ pos
        (Render.loopItems scene.model locals bag source))
      (fun bag => Render.orFault ⟨scene', template, body?'⟩ pos
        (Render.loopItems scene'.model locals bag source)) fun bag => ?_
    rw [Render.loopItems_same locals bag hsame]
    exact orFault_agrees pos _

theorem runLayers_agree {layers : List Layer} (hlayers : ∀ layer ∈ layers, layer.page.SameOn m m') :
    s.Agree cache (Render.runLayers scene layers) (Render.runLayers scene' layers) := by
  refine Render.runLayers_matches (fun template => ?_) fun layer hlayer body? body?' hbody node hnode locals =>
    step_agrees h hbody (hlayers layer hlayer node hnode) locals
  rw [h.heedsFlag, h.depth]
  exact ((checkCancelled_respects _).matches _).bind fun _ => (noteStart_respects template _).matches _

end Steps

/-! ### The render -/

/-- The session with another model. -/
def withModel (s : Session) (model : Json) : Session := { s with model }

variable {m' : Json} (hsame : ∀ v page, s.finder.Offers v → v.Has cache page → page.SameOn s.model m')
include hsame

theorem sameOn_of_fetched {told : List Event} {layer : Layer} (h : s.Fetched cache told layer) :
    layer.page.SameOn s.model m' := by
  obtain ⟨v, hfound, -, hpage⟩ := h
  exact hsame v layer.page hfound.offers hpage

theorem sceneAt_sameBut (levels depth : Nat) :
    s.SameBut cache s.model m' (s.sceneAt depth levels) ((s.withModel m').sceneAt depth levels) := by
  induction levels generalizing depth with
  | zero => exact ⟨rfl, rfl, rfl, rfl, rfl, .none⟩
  | succ levels ih =>
    rw [sceneAt_succ, sceneAt_succ]
    refine ⟨rfl, rfl, rfl, rfl, rfl, .some fun name => ?_⟩
    refine ((checkCancelled_respects _).matches _).bind fun _ => ?_
    refine ((partialLayers_serving name).matches _).bind_of fun layers st st' t hst hend => ?_
    refine runLayers_agree (ih (depth + 1)) fun layer hlayer => ?_
    obtain ⟨r, t', hlayers, -, -, hpages, -⟩ :=
      partialLayers_served (Bench.serves_stocked s.finder cache) name st hst.2
    obtain ⟨rfl, -⟩ := Prod.mk.inj (hlayers.symm.trans hend)
    obtain ⟨v, -, htemplate, hserved⟩ := hpages layers rfl layer hlayer
    exact sameOn_of_fetched hsame (fetched_of_served htemplate hserved)

/-- From a state in which it may go on, a render does the same with the other model. -/
theorem run_withModel {st : State} (hst : s.Serving cache st) :
    ending (s.withModel m').run st = ending s.run st := by
  obtain ⟨r, st₁, hprepare, hst₁, -, hpages, -⟩ :=
    prepare_served (Bench.serves_stocked s.finder cache) st hst
  have hprepare' : ending (s.withModel m').prepare st = (r, st₁) := hprepare
  rw [run_eq, run_eq]
  rcases r with e | (e | layers)
  · rw [ending_bind_error hprepare, ending_bind_error hprepare']
  · rw [ending_bind_ok hprepare, ending_bind_ok hprepare']
    cases e <;> rfl
  rw [ending_bind_ok hprepare, ending_bind_ok hprepare']
  unfold proceed
  dsimp only
  have hlayers : ∀ layer ∈ layers, layer.page.SameOn s.model m' := by
    intro layer hlayer
    obtain ⟨v, -, htemplate, hserved⟩ := hpages layers rfl layer hlayer
    exact sameOn_of_fetched hsame (fetched_of_served htemplate hserved)
  have hscenes := sceneAt_sameBut hsame s.settings.maxPartialDepth 0
  have hexecuting : s.Serving cache { st₁ with phase := .executing } := hst₁
  have hagree := (runLayers_agree hscenes hlayers).ending_eq hexecuting
  have hrun : ending (Render.runLayers (s.withModel m').scene layers) { st₁ with phase := .executing } =
      ending (Render.runLayers s.scene layers) { st₁ with phase := .executing } := hagree.symm
  rw [ending_execute, ending_execute, hrun]
  rfl

end Session

namespace Engine

/-- If two models are the same to each page that a view of the catalog has, a render gives and does the same
with either, and leaves the engine the same. -/
theorem render_unread (e : Engine) (mode : RenderMode) (view : String) (sink : Sink) {m m' : Json}
    (hsame : ∀ v page, e.finder.Offers v → v.Has e.cache page → page.SameOn m m') :
    e.render mode view m sink = e.render mode view m' sink := by
  let s := e.session mode view m
  have hsame : ∀ v page, s.finder.Offers v → v.Has e.cache page → page.SameOn s.model m' := hsame
  have hst : s.Serving e.cache (s.start sink e.cancelled e.bench) := Bench.stocked_self s.finder e.bench _
  have hrun : ending (s.withModel m').run (s.start sink e.cancelled e.bench) =
      ending s.run (s.start sink e.cancelled e.bench) := Session.run_withModel hsame hst
  rw [render_eq, render_eq]
  exact congrArg e.rendered hrun.symm

/-- A page that sets a key of the bag from the model and shows it. -/
def greeting : String := "\x7b\x7b set k = model.name \x7d\x7d\x7b\x7b bag.k \x7d\x7d"

theorem greeting_nodes :
    (View.compiled ⟨⟨"", "page"⟩, "html", .text greeting⟩).toOption.map Page.nodes =
      some [.set "k" (.expr ⟨.model, ["name"], "model.name"⟩),
        .echo ⟨.bag, ["k"], "bag.k"⟩ true ⟨1, 25⟩] := by
  decide +kernel

/-- A model with a name and something else. -/
def named (secret : String) : Json := .obj [("name", .str "n"), ("secret", .str secret)]

theorem named_sameOn (secret secret' : String) {page : Page}
    (h : View.compiled ⟨⟨"", "page"⟩, "html", .text greeting⟩ = .ok page) :
    page.SameOn (named secret) (named secret') := by
  have hnodes := greeting_nodes
  rw [h] at hnodes
  obtain hpage : page.nodes = _ := Option.some.inj hnodes
  intro node hnode e he
  rw [hpage] at hnode
  obtain rfl | hnode := List.mem_cons.mp hnode
  · obtain rfl := List.mem_singleton.mp he
    exact fun _ => rfl
  obtain rfl := List.mem_singleton.mp hnode
  obtain rfl := List.mem_singleton.mp he
  exact fun hroot => nomatch hroot

theorem render_unread_of_secret :
    named "a" ≠ named "b" ∧
      (new .default (pageOnly greeting)).render .cancellable "page" (named "a") .accepting =
        (new .default (pageOnly greeting)).render .cancellable "page" (named "b") .accepting := by
  refine ⟨by simp [named], render_unread _ .cancellable "page" .accepting fun v page hv hpage => ?_⟩
  obtain rfl := pageOnly_offers hv
  cases hpage with
  | cached hc => cases hc
  | compiled hcompiled => exact named_sameOn "a" "b" hcompiled

end Engine

end LayeredViews
