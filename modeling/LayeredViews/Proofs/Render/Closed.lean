import LayeredViews.Proofs.Ending
import LayeredViews.Proofs.Template.Nodes
import LayeredViews.Render.Session

/-!
# Closed properties — what all programs of a render have because their steps have it

The pages, layers and partial views of a session are put together from a few steps by sequencing.
`Closed s P` says that `P` holds of these steps and that sequencing keeps it; `Closed.layers` says that then
`P` holds of all layers, so that a property of renders is proved by looking at one step at a time.

Some properties hold of a page only because of where its layer comes from, at which depth it runs and what
the journal has told by then.  For these `ClosedOn` speaks of known layers: what is written and what fails is
that of a node of a known layer that has started, and a partial view is asked for by such a node and found as
known layers one level deeper.  `ClosedOn.layers` is the one induction over pages, layers and levels of
partial views.
-/

namespace LayeredViews

namespace Session

/-- Finds a partial view and compiles its layering. -/
def partialLayers (s : Session) (name : String) : Render (List Layer) := do
  let layering ← (State.search s.raises (s.resolvePartial name)).adaptExcept
    (partialLookupError name)
  (State.compose (Compose.layers layering)).adaptExcept partialComposeError

theorem sceneAt_succ (s : Session) (depth levels : Nat) :
    s.sceneAt depth (levels + 1) =
      ⟨s.model, depth, s.settings.maxPartialDepth, s.heedsFlag, some fun name => do
        Render.checkCancelled s.heedsFlag
        let layers ← s.partialLayers name
        Render.runLayers (s.sceneAt (depth + 1) levels) layers⟩ := by
  simp only [sceneAt, partialLayers, bind_assoc]

/-- The session with another buffer limit, and with or without a cache. -/
def retuned (s : Session) (limit : Nat) (cached : Bool) : Session :=
  { s with settings := { s.settings with bufferLimit := limit, cacheCompiled := cached } }

theorem sceneAt_retuned (s : Session) (limit : Nat) (cached : Bool) (depth levels : Nat) :
    (s.retuned limit cached).sceneAt depth levels = s.sceneAt depth levels := by
  induction levels generalizing depth with
  | zero => rfl
  | succ levels ih =>
    rw [sceneAt_succ, sceneAt_succ, ih]
    rfl

/-- Neither the buffer limit nor the cache counts for what the layers do. -/
theorem scene_retuned (s : Session) (limit : Nat) (cached : Bool) :
    (s.retuned limit cached).scene = s.scene :=
  s.sceneAt_retuned limit cached 0 s.settings.maxPartialDepth

end Session

/-! ### Faults and texts of nodes -/

open Template (Page Expr Node SetValue)
open Text (Position)

/-- The faults that a node may meet. -/
inductive Fault.Of : Node → Fault → Prop where
  | undefinedValue {e escaped pos} : Of (.echo e escaped pos) (.undefinedValue e.text)
  | arrayEcho {e escaped pos} : Of (.echo e escaped pos) (.arrayEcho e.text)
  | objectEcho {e escaped pos} : Of (.echo e escaped pos) (.objectEcho e.text)
  | bodyOutsideLayout {pos} : Of (.renderBody pos) .bodyOutsideLayout
  | tooDeep {name pos maxDepth} : Of (.partialView name pos) (.tooDeep maxDepth name)
  | undefinedItems {e binding pos} : Of (.each e binding pos) (.undefinedValue e.text)
  | notAnArray {e binding pos} : Of (.each e binding pos) (.notAnArray e.text)

/-- A node of the page that stands there may meet the fault. -/
def Template.Page.MayFail (page : Page) (pos : Position) (f : Fault) : Prop :=
  ∃ node ∈ page.nodes, node.pos? = some pos ∧ f.Of node

/-- The texts that a node may write; whatever value it shows, it shows escaped unless it is raw. -/
inductive Template.Node.Writes : Node → String → Prop where
  | text {content} : Writes (.text content) content
  | escaped {e pos} (value : String) : Writes (.echo e true pos) (Html.escape value)
  | raw {e pos} (value : String) : Writes (.echo e false pos) value

/-- A node of the page may write the text. -/
def Template.Page.MayWrite (page : Page) (text : String) : Prop :=
  ∃ node ∈ page.nodes, node.Writes text

namespace Render

variable {model : Json} {locals : Locals} {bag : Bag} {e : Expr} {f : Fault}

theorem requiredValue_error (h : requiredValue model locals bag e = .error f) :
    f = .undefinedValue e.text := by
  unfold requiredValue at h
  split at h
  · cases h
  · split at h
    · cases h
    · exact (Except.error.inj h).symm

/-- An echo fails only with a fault of its node. -/
theorem echoed_error {escaped : Bool} (h : echoed model locals bag e escaped = .error f)
    (pos : Position) : f.Of (.echo e escaped pos) := by
  unfold echoed at h
  rcases hv : requiredValue model locals bag e with f' | v <;> rw [hv] at h
  · obtain rfl := Except.error.inj h
    rw [requiredValue_error hv]
    exact .undefinedValue
  · cases v with
    | arr items =>
      obtain rfl := Except.error.inj h
      exact .arrayEcho
    | obj fields =>
      obtain rfl := Except.error.inj h
      exact .objectEcho
    | _ => cases h

/-- An echo writes only what its node may write. -/
theorem echoed_ok {escaped : Bool} {text : String} (h : echoed model locals bag e escaped = .ok text)
    (pos : Position) : (Node.echo e escaped pos).Writes text := by
  unfold echoed at h
  rcases hv : requiredValue model locals bag e with f' | v <;> rw [hv] at h
  · cases h
  · have h : (textOf e v >>= fun text => Pure.pure (if escaped then Html.escape text else text)) = .ok text := h
    rcases ht : textOf e v with f' | value <;> rw [ht] at h
    · cases h
    · obtain rfl := Except.ok.inj h
      cases escaped with
      | true => exact .escaped value
      | false => exact .raw value

/-- A loop starts, or fails with a fault of its node. -/
theorem loopItems_error (h : loopItems model locals bag e = .error f) (binding : String)
    (pos : Position) : f.Of (.each e binding pos) := by
  unfold loopItems at h
  rcases hv : requiredValue model locals bag e with f' | v <;> rw [hv] at h
  · obtain rfl := Except.error.inj h
    rw [requiredValue_error hv]
    exact .undefinedItems
  · cases v with
    | arr items => cases h
    | _ =>
      obtain rfl := Except.error.inj h
      exact .notAnArray

end Render

/-! ### Properties -/

/-- A known layer whose page has started, at a depth of partial views. -/
structure Render.Running (Known : List Event → Layer → Prop) (told : List Event) (depth : Nat)
    (layer : Layer) : Prop where
  known : Known told layer
  started : .started layer.template depth ∈ told

/-- A running page has a node that asks for the partial view. -/
def Render.Asked (Known : List Event → Layer → Prop) (told : List Event) (depth : Nat) (name : String) :
    Prop :=
  ∃ layer pos, Running Known told depth layer ∧ .partialView name pos ∈ layer.page.nodes

/-- A property of render programs at a depth of partial views, once so much has been told: the steps of pages
have it, and sequencing keeps it. -/
structure Render.ClosedOn (s : Session) (Known : List Event → Layer → Prop)
    (P : List Event → Nat → {α : Type} → Render α → Prop) : Prop where
  known_mono : ∀ {told more : List Event} {layer : Layer}, Known told layer → told ⊆ more →
    Known more layer
  pure : ∀ (told : List Event) (depth : Nat) {α : Type} (a : α), P told depth (pure a : Render α)
  bind : ∀ {told : List Event} {depth : Nat} {α β : Type} {x : Render α} {f : α → Render β},
    P told depth x → (∀ a, P told depth (f a)) → P told depth (x >>= f)
  fault : ∀ {told : List Event} {depth : Nat} {α : Type} {layer : Layer} {pos : Position} {f : Fault},
    Running Known told depth layer → layer.page.MayFail pos f →
      P told depth (throw (.runtime layer.template pos f) : Render α)
  withBag : ∀ (told : List Event) (depth : Nat) {α : Type} (f : Bag → Render α),
    (∀ bag, P told depth (f bag)) → P told depth (do f (← get).bag)
  setBag : ∀ (told : List Event) (depth : Nat) (f : Bag → Bag),
    P told depth (modify fun st => { st with bag := f st.bag } : Render Unit)
  write : ∀ {told : List Event} {depth : Nat} {layer : Layer} {text : String},
    Running Known told depth layer → layer.page.MayWrite text → P told depth (writeText text)
  check : ∀ (told : List Event) (depth : Nat), P told depth (checkCancelled s.heedsFlag)
  start : ∀ {told : List Event} {depth : Nat} {layer : Layer} {α : Type} {x : Render α},
    Known told layer → depth ≤ s.settings.maxPartialDepth →
      (∀ more, told ⊆ more → .started layer.template depth ∈ more → P more depth x) →
        P told depth (noteStart layer.template depth >>= fun _ => x)
  partialLayers : ∀ {told : List Event} {depth : Nat} {name : String} {α : Type} {f : List Layer → Render α},
    Asked Known told depth name → depth < s.settings.maxPartialDepth →
      (∀ more layers, (∀ layer ∈ layers, Known more layer) → P more (depth + 1) (f layers)) →
        P told depth (s.partialLayers name >>= f)

/-- A property of render programs that the steps of pages have and that sequencing keeps. -/
structure Render.Closed (s : Session) (P : {α : Type} → Render α → Prop) : Prop where
  pure : ∀ {α : Type} (a : α), P (pure a : Render α)
  bind : ∀ {α β : Type} {x : Render α} {f : α → Render β}, P x → (∀ a, P (f a)) → P (x >>= f)
  fault : ∀ {α : Type} (template : String) (pos : Text.Position) (f : Fault),
    P (throw (.runtime template pos f) : Render α)
  withBag : ∀ {α : Type} (f : Bag → Render α), (∀ bag, P (f bag)) → P (do f (← get).bag)
  setBag : ∀ f : Bag → Bag, P (modify fun st => { st with bag := f st.bag } : Render Unit)
  write : ∀ text, P (writeText text)
  check : P (checkCancelled s.heedsFlag)
  start : ∀ template depth, P (noteStart template depth)
  partialLayers : ∀ name, P (s.partialLayers name)

/-- For a property without regard to where layers come from all of them are known. -/
theorem Render.Closed.on {s : Session} {P : {α : Type} → Render α → Prop} (h : Closed s P) :
    ClosedOn s (fun _ _ => True) fun _ _ => P where
  known_mono _ _ := trivial
  pure _ _ := h.pure
  bind := h.bind
  fault _ _ := h.fault _ _ _
  withBag _ _ := h.withBag
  setBag _ _ := h.setBag
  write _ _ := h.write _
  check _ _ := h.check
  start {told depth layer α x} _ _ hx := h.bind (h.start _ _) fun _ =>
    hx (.started layer.template depth :: told) (List.subset_cons_self _ _) (by simp)
  partialLayers _ _ hf := h.bind (h.partialLayers _) fun layers =>
    hf [] layers fun _ _ => trivial

/-- A scene of a session at a depth, in which the partial views that are asked for have a property. -/
structure Scene.Within (scene : Scene) (s : Session) (Known : List Event → Layer → Prop)
    (P : List Event → Nat → {α : Type} → Render α → Prop) (depth : Nat) : Prop where
  depth_eq : scene.depth = depth
  depth_le : depth ≤ s.settings.maxPartialDepth
  heedsFlag : scene.heedsFlag = s.heedsFlag
  deeper : ∀ render ∈ scene.deeper?, ∀ told name, Render.Asked Known told depth name →
    P told depth (render name)

namespace Render.ClosedOn

variable {s : Session} {Known : List Event → Layer → Prop}
  {P : List Event → Nat → {α : Type} → Render α → Prop} (h : ClosedOn s Known P)
  {told : List Event} {depth : Nat}
include h

theorem add {x y : Render Nat} (hx : P told depth x) (hy : P told depth y) :
    P told depth (do
      let n ← x
      let m ← y
      return n + m) :=
  h.bind hx fun n => h.bind hy fun m => h.pure told depth (n + m)

theorem sumOver {α : Type} {run : α → Render Nat} (hrun : ∀ a, P told depth (run a)) (as : List α) :
    P told depth (Render.sumOver run as) := by
  induction as with
  | nil => exact h.pure told depth 0
  | cons a as ih => exact h.add (hrun a) ih

theorem test (cx : PageContext) (locals : Locals) (e : Expr) :
    P told depth (Render.test cx locals e) :=
  h.withBag told depth
    (fun bag => Pure.pure (((valueOf cx.scene.model locals bag e).map Json.truthy).getD false))
    fun _ => h.pure told depth _

theorem set (cx : PageContext) (locals : Locals) (key : String) (value : SetValue) :
    P told depth (Render.set cx locals key value) :=
  h.setBag told depth fun bag => bag.set key (setValueOf cx.scene.model locals bag value)

/-! ### Nodes of a running page -/

section Nodes

variable {layer : Layer} (hlayer : Running Known told depth layer) {cx : PageContext}
  (hcx : cx.template = layer.template)
include hlayer hcx

theorem throwFault {α : Type} {node : Node} (hnode : node ∈ layer.page.nodes) {pos : Position}
    (hpos : node.pos? = some pos) {f : Fault} (hf : f.Of node) :
    P told depth (throw (.runtime cx.template pos f) : Render α) := by
  rw [hcx]
  exact h.fault hlayer ⟨node, hnode, hpos, hf⟩

theorem orFault {α : Type} {node : Node} (hnode : node ∈ layer.page.nodes) {pos : Position}
    (hpos : node.pos? = some pos) {v : Except Fault α} (hv : ∀ f, v = .error f → f.Of node)
    {β : Type} {f : α → Render β} (hf : ∀ a, v = .ok a → P told depth (f a)) :
    P told depth (Render.orFault cx pos v >>= f) := by
  cases v with
  | ok a => exact hf a rfl
  | error fault => exact h.throwFault hlayer hcx hnode hpos (hv fault rfl)

theorem echo (locals : Locals) {e : Expr} {escaped : Bool} {pos : Position}
    (hnode : .echo e escaped pos ∈ layer.page.nodes) :
    P told depth (Render.echo cx locals e escaped pos) := by
  refine h.withBag told depth
    (fun bag => Render.orFault cx pos (echoed cx.scene.model locals bag e escaped) >>= writeText)
    fun bag => ?_
  refine h.orFault hlayer hcx hnode rfl (fun _ hf => echoed_error hf pos) fun text htext => ?_
  exact h.write hlayer ⟨_, hnode, echoed_ok htext pos⟩

theorem renderBody (hbody : ∀ body ∈ cx.body?, P told depth body) {pos : Position}
    (hnode : .renderBody pos ∈ layer.page.nodes) : P told depth (Render.renderBody cx pos) := by
  unfold Render.renderBody
  cases hb : cx.body? with
  | none => exact h.throwFault hlayer hcx hnode rfl .bodyOutsideLayout
  | some body => exact hbody body hb

theorem partialView (hscene : cx.scene.Within s Known P depth) {name : String} {pos : Position}
    (hnode : .partialView name pos ∈ layer.page.nodes) :
    P told depth (Render.partialView cx name pos) := by
  unfold Render.partialView
  cases hd : cx.scene.deeper? with
  | none => exact h.throwFault hlayer hcx hnode rfl .tooDeep
  | some render =>
    have hcheck := h.check told depth
    rw [← hscene.heedsFlag] at hcheck
    exact h.bind hcheck fun _ => hscene.deeper render hd told name ⟨layer, pos, hlayer, hnode⟩

/-! ### Pages, layers and levels -/

theorem runPage (hscene : cx.scene.Within s Known P depth) (hbody : ∀ body ∈ cx.body?, P told depth body)
    (page : Page) (hpage : page.nodes ⊆ layer.page.nodes) (locals : Locals) :
    P told depth (Render.runPage cx page locals) := by
  induction page generalizing locals with
  | done => exact h.pure told depth 0
  | text content rest ih =>
    obtain ⟨hnode, hrest⟩ := List.cons_subset.mp hpage
    exact h.bind (h.write hlayer ⟨_, hnode, .text⟩) fun _ => ih hrest locals
  | echo e escaped pos rest ih =>
    obtain ⟨hnode, hrest⟩ := List.cons_subset.mp hpage
    exact h.bind (h.echo hlayer hcx locals hnode) fun _ => ih hrest locals
  | renderBody pos rest ih =>
    obtain ⟨hnode, hrest⟩ := List.cons_subset.mp hpage
    exact h.bind (h.renderBody hlayer hcx hbody hnode) fun _ =>
      h.bind (ih hrest locals) fun n => h.pure told depth (1 + n)
  | partialView name pos rest ih =>
    obtain ⟨hnode, hrest⟩ := List.cons_subset.mp hpage
    exact h.bind (h.partialView hlayer hcx hscene hnode) fun _ => ih hrest locals
  | set key value rest ih =>
    obtain ⟨-, hrest⟩ := List.cons_subset.mp hpage
    exact h.bind (h.set cx locals key value) fun _ => ih hrest locals
  | cond e yes no rest ihyes ihno ih =>
    obtain ⟨-, hbranches⟩ := List.cons_subset.mp hpage
    obtain ⟨hyes, hothers⟩ := List.append_subset.mp hbranches
    obtain ⟨hno, hrest⟩ := List.append_subset.mp hothers
    refine h.bind (h.test cx locals e) fun b => ?_
    cases b with
    | true => exact h.add (ihyes hyes locals) (ih hrest locals)
    | false => exact h.add (ihno hno locals) (ih hrest locals)
  | each source binding body pos rest ihbody ih =>
    obtain ⟨hnode, hbodies⟩ := List.cons_subset.mp hpage
    obtain ⟨hinner, hrest⟩ := List.append_subset.mp hbodies
    refine h.withBag told depth (fun bag => do
      let items ← Render.orFault cx pos (loopItems cx.scene.model locals bag source)
      let n ← Render.sumOver (fun item => Render.runPage cx body ((binding, item) :: locals)) items
      let m ← Render.runPage cx rest locals
      return n + m) fun bag => ?_
    refine h.orFault hlayer hcx hnode rfl (fun _ hf => loopItems_error hf binding pos) fun items _ => ?_
    exact h.add (h.sumOver (fun item => ihbody hinner ((binding, item) :: locals)) items)
      (ih hrest locals)

end Nodes

theorem runLayer {scene : Scene} (hscene : scene.Within s Known P depth) {layer : Layer}
    (hlayer : Known told layer) {body? : Option (Render Unit)}
    (hbody : ∀ more, told ⊆ more → ∀ body ∈ body?, P more depth body) :
    P told depth (Render.runLayer scene layer body?) := by
  have hcheck := h.check told depth
  rw [← hscene.heedsFlag] at hcheck
  have hcx : (⟨scene, layer.template, body?⟩ : PageContext).template = layer.template := rfl
  unfold Render.runLayer
  rw [hscene.depth_eq]
  refine h.bind hcheck fun _ => h.start hlayer hscene.depth_le fun more hmore hstarted => ?_
  exact h.runPage ⟨h.known_mono hlayer hmore, hstarted⟩ hcx hscene (hbody more hmore) layer.page
    (List.Subset.refl _) []

theorem runLayers (told : List Event) {scene : Scene} (hscene : scene.Within s Known P depth)
    {layers : List Layer} (hlayers : ∀ layer ∈ layers, Known told layer) :
    P told depth (Render.runLayers scene layers) := by
  induction layers generalizing told with
  | nil => exact h.pure told depth ()
  | cons outer inner ih =>
    obtain ⟨houter, hinner⟩ := List.forall_mem_cons.mp hlayers
    cases inner with
    | nil => exact h.bind (h.runLayer hscene houter (by simp)) fun _ => h.pure told depth ()
    | cons next others =>
      refine h.bind (h.runLayer hscene houter fun more hmore body hbody => ?_) fun rendered => ?_
      · obtain rfl := Option.mem_some_iff.mp hbody
        exact ih more fun layer hlayer => h.known_mono (hinner layer hlayer) hmore
      · split
        · exact ih told hinner
        · exact h.pure told depth ()

theorem sceneAt (levels depth : Nat) (hdepth : depth + levels = s.settings.maxPartialDepth) :
    (s.sceneAt depth levels).Within s Known P depth := by
  induction levels generalizing depth with
  | zero => exact ⟨rfl, by omega, rfl, by simp [Session.sceneAt]⟩
  | succ levels ih =>
    rw [Session.sceneAt_succ]
    refine ⟨rfl, by omega, rfl, fun render hr told name hasked => ?_⟩
    obtain rfl := Option.mem_some_iff.mp hr
    refine h.bind (h.check told depth) fun _ => h.partialLayers hasked (by omega) fun more layers hlayers => ?_
    exact h.runLayers more (ih (depth + 1) (by omega)) hlayers

/-- What all steps have, known layers have. -/
theorem layers (told : List Event) {layers : List Layer} (hlayers : ∀ layer ∈ layers, Known told layer) :
    P told 0 (Render.runLayers s.scene layers) :=
  h.runLayers told (h.sceneAt s.settings.maxPartialDepth 0 (Nat.zero_add _)) hlayers

end Render.ClosedOn

namespace Render.Closed

variable {s : Session} {P : {α : Type} → Render α → Prop} (h : Closed s P)
include h

/-- What all steps have, the layers of the view have. -/
theorem layers (layers : List Layer) : P (Render.runLayers s.scene layers) :=
  h.on.layers [] fun _ _ => trivial

/-- What all steps have, rendering a partial view has. -/
theorem deeper {render : String → Render Unit} (hrender : render ∈ s.scene.deeper?) (name : String) :
    P (render name) := by
  have hscene := h.on.sceneAt s.settings.maxPartialDepth 0 (Nat.zero_add _)
  refine hscene.deeper render hrender [.started "" 0] name
    ⟨⟨"", .leaf, .partialView name ⟨1, 1⟩ .done⟩, ⟨1, 1⟩, ⟨trivial, ?_⟩, ?_⟩ <;> simp [Page.nodes]

end Render.Closed

end LayeredViews
