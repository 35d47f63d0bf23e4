import LayeredViews.Proofs.Render.Inlining
import Mathlib.Algebra.Ring.Nat

/-!
# Executions — how often each layer of a chain runs

`traceLayers` runs the layers of a chain as `runLayers` does, and gives back which execution of a layer ran
which ones of the next layer.  Wrapped content is never lost: each execution of a layout runs what it wraps as
often as its page says, and once if the page never says so.
-/

namespace LayeredViews

open Template (Page)

/-! ### Traces -/

/-- An execution of a layer: how often its page rendered the wrapped content, and the executions of the next
layer that it led to. -/
inductive Execution where
  | of (bodies : Nat) (wrapped : List Execution)

namespace Execution

def bodies : Execution → Nat
  | of bodies _ => bodies

def wrapped : Execution → List Execution
  | of _ wrapped => wrapped

/-- The executions of the layer that is so many layers further in. -/
def level (e : Execution) : Nat → List Execution
  | 0 => [e]
  | i + 1 => (e.level i).flatMap wrapped

end Execution

namespace Render

/-- Runs something for each item in order and collects the results. -/
def collectOver {α β : Type} (run : α → Render (List β)) : List α → Render (List β)
  | [] => pure []
  | a :: as => do
    let bs ← run a
    let bs' ← collectOver run as
    return bs ++ bs'

/-- Runs a page whose wrapped content gives results, and collects them. -/
def collectPage {β : Type} (cx : PageContext) (body : Render β) : Page → Locals → Render (List β)
  | .done, _ => pure []
  | .text content rest, locals => do
    writeText content
    collectPage cx body rest locals
  | .echo e escaped pos rest, locals => do
    echo cx locals e escaped pos
    collectPage cx body rest locals
  | .renderBody _ rest, locals => do
    let b ← body
    let bs ← collectPage cx body rest locals
    return b :: bs
  | .partialView name pos rest, locals => do
    partialView cx name pos
    collectPage cx body rest locals
  | .set key value rest, locals => do
    set cx locals key value
    collectPage cx body rest locals
  | .cond e yes no rest, locals => do
    let bs ← if ← test cx locals e then collectPage cx body yes locals else collectPage cx body no locals
    let bs' ← collectPage cx body rest locals
    return bs ++ bs'
  | .each source binding inner pos rest, locals => do
    let items ← orFault cx pos (loopItems cx.scene.model locals (← get).bag source)
    let bs ← collectOver (fun item => collectPage cx body inner ((binding, item) :: locals)) items
    let bs' ← collectPage cx body rest locals
    return bs ++ bs'

/-- Runs layers, the outermost one first, and tells of their executions. -/
def traceLayers (scene : Scene) : List Layer → Render Execution
  | [] => return .of 0 []
  | [leaf] => return .of (← runLayer scene leaf none) []
  | outer :: next :: others => do
    checkCancelled scene.heedsFlag
    noteStart outer.template scene.depth
    let inside ← collectPage ⟨scene, outer.template, some (runLayers scene (next :: others))⟩
      (traceLayers scene (next :: others)) outer.page []
    match inside with
    | [] => return .of 0 [← traceLayers scene (next :: others)]
    | _ => return .of inside.length inside

/-! ### A trace tells of the run -/

theorem collectOver_length {α β : Type} {run : α → Render (List β)} {count : α → Render Nat}
    (hrun : ∀ a, (run a >>= fun bs => pure bs.length) = count a) (as : List α) :
    (collectOver run as >>= fun bs => pure bs.length) = sumOver count as := by
  induction as with
  | nil => exact pure_bind _ _
  | cons a as ih =>
    rw [sumOver, ← hrun a, ← ih]
    simp only [collectOver, bind_assoc, pure_bind, List.length_append]

/-- Without the results a collecting run of a page is the run of the page. -/
theorem collectPage_length {β : Type} {cx : PageContext} {body : Render β}
    (hbody : cx.body? = some (body >>= fun _ => pure ())) (page : Page) (locals : Locals) :
    (collectPage cx body page locals >>= fun bs => pure bs.length) = runPage cx page locals := by
  induction page generalizing locals with
  | done => exact pure_bind _ _
  | renderBody pos rest ih =>
    have hnode : renderBody cx pos = body >>= fun _ => pure () := by
      unfold renderBody
      rw [hbody]
    rw [runPage, hnode, ← ih]
    simp only [collectPage, bind_assoc, pure_bind, List.length_cons, Nat.add_comm]
  | cond e yes no rest ihyes ihno ih =>
    rw [runPage]
    simp only [collectPage, bind_assoc]
    refine bind_congr fun b => ?_
    cases b with
    | true => simp only [if_true, ← ihyes, ← ih, bind_assoc, pure_bind, List.length_append]
    | false =>
      simp only [Bool.false_eq_true, if_false, ← ihno, ← ih, bind_assoc, pure_bind, List.length_append]
  | each source binding inner pos rest ihinner ih =>
    have hloop := collectOver_length fun item => ihinner ((binding, item) :: locals)
    rw [runPage, ← ih]
    simp only [collectPage, bind_assoc, pure_bind, List.length_append, ← hloop]
  | text content rest ih =>
    rw [runPage, ← ih]
    simp only [collectPage, bind_assoc]
  | echo e escaped pos rest ih =>
    rw [runPage, ← ih]
    simp only [collectPage, bind_assoc]
  | partialView name pos rest ih =>
    rw [runPage, ← ih]
    simp only [collectPage, bind_assoc]
  | set key value rest ih =>
    rw [runPage, ← ih]
    simp only [collectPage, bind_assoc]

/-- Without what it tells a traced run is the run of the layers. -/
theorem traceLayers_run (scene : Scene) (layers : List Layer) :
    (traceLayers scene layers >>= fun _ => pure ()) = runLayers scene layers := by
  induction layers with
  | nil => exact pure_bind _ _
  | cons outer inner ih =>
    cases inner with
    | nil => simp only [traceLayers, runLayers, bind_assoc, pure_bind]
    | cons next others =>
      rw [runLayers_cons, ← collectPage_length (congrArg some ih.symm)]
      simp only [traceLayers, bind_assoc, pure_bind]
      refine bind_congr fun _ => bind_congr fun _ => bind_congr fun inside => ?_
      cases inside with
      | nil =>
        simp only [List.length_nil, if_true, ← ih, bind_assoc, pure_bind]
      | cons e es =>
        simp only [List.length_cons, Nat.add_one_ne_zero, if_false, pure_bind]

/-! ### What a trace tells -/

/-- Whatever it gives is of a kind. -/
def Gives {α : Type} (P : α → Prop) (x : Render α) : Prop :=
  ∀ st a st', ending x st = (.ok a, st') → P a

namespace Gives

variable {α β : Type} {P : α → Prop} {Q : β → Prop}

theorem pure {a : α} (ha : P a) : Gives P (pure a : Render α) := by
  intro st a' st' h
  obtain rfl := Except.ok.inj (congrArg Prod.fst h)
  exact ha

theorem imp {Q : α → Prop} {x : Render α} (hx : Gives P x) (h : ∀ a, P a → Q a) : Gives Q x :=
  fun st a st' hr => h a (hx st a st' hr)

theorem bind_of {x : Render α} {f : α → Render β} (hx : Gives P x) (hf : ∀ a, P a → Gives Q (f a)) :
    Gives Q (x >>= f) := by
  intro st b st' h
  rw [ending_bind] at h
  rcases hr : ending x st with ⟨e | a, t⟩ <;> rw [hr] at h
  · cases h
  · exact hf a (hx st a t hr) t b st' h

theorem bind {x : Render α} {f : α → Render β} (hf : ∀ a, Gives Q (f a)) : Gives Q (x >>= f) :=
  bind_of (P := fun _ => True) (fun _ _ _ _ => trivial) fun a _ => hf a

end Gives

/-- Results that are all of a kind, and of which there are none if there is nothing to render. -/
structure Collected {β : Type} (P : β → Prop) (renders : Bool) (bs : List β) : Prop where
  all : ∀ b ∈ bs, P b
  none_of : renders = false → bs = []

theorem Collected.nil {β : Type} {P : β → Prop} {renders : Bool} : Collected P renders [] :=
  ⟨nofun, fun _ => rfl⟩

theorem Collected.left {β : Type} {P : β → Prop} {r r' : Bool} {bs : List β}
    (h : Collected P r bs) : Collected P (r || r') bs :=
  ⟨h.all, fun hr => h.none_of (Bool.or_eq_false_iff.mp hr).1⟩

theorem Collected.right {β : Type} {P : β → Prop} {r r' : Bool} {bs : List β}
    (h : Collected P r' bs) : Collected P (r || r') bs :=
  ⟨h.all, fun hr => h.none_of (Bool.or_eq_false_iff.mp hr).2⟩

theorem Collected.append {β : Type} {P : β → Prop} {r r' : Bool} {bs bs' : List β}
    (h : Collected P r bs) (h' : Collected P r' bs') : Collected P (r || r') (bs ++ bs') := by
  refine ⟨List.forall_mem_append.mpr ⟨h.all, h'.all⟩, fun hr => ?_⟩
  obtain ⟨hr, hr'⟩ := Bool.or_eq_false_iff.mp hr
  rw [h.none_of hr, h'.none_of hr']
  rfl

/-- Results collected one after the other. -/
theorem Gives.append {β : Type} {P : β → Prop} {r r' : Bool} {x y : Render (List β)}
    (hx : Gives (Collected P r) x) (hy : Gives (Collected P r') y) :
    Gives (Collected P (r || r')) (do
      let bs ← x
      let bs' ← y
      return bs ++ bs') :=
  hx.bind_of fun _ hbs => hy.bind_of fun _ hbs' => .pure (hbs.append hbs')

theorem collectOver_gives {α β : Type} {P : β → Prop} {r : Bool} {run : α → Render (List β)}
    (hrun : ∀ a, Gives (Collected P r) (run a)) (as : List α) :
    Gives (Collected P r) (collectOver run as) := by
  induction as with
  | nil => exact .pure .nil
  | cons a as ih =>
    rw [← Bool.or_self r]
    exact (hrun a).append ih

/-- A page collects what its wrapped content gives, and nothing if it has no place for that. -/
theorem collectPage_gives {β : Type} {P : β → Prop} (cx : PageContext) {body : Render β}
    (hbody : Gives P body) (page : Page) (locals : Locals) :
    Gives (Collected P page.rendersBody) (collectPage cx body page locals) := by
  induction page generalizing locals with
  | done => exact .pure .nil
  | text content rest ih => exact .bind fun _ => ih locals
  | echo e escaped pos rest ih => exact .bind fun _ => ih locals
  | renderBody pos rest ih =>
    refine hbody.bind_of fun b hb => (ih locals).bind_of fun bs hbs => .pure ?_
    exact ⟨List.forall_mem_cons.mpr ⟨hb, hbs.all⟩, nofun⟩
  | partialView name pos rest ih => exact .bind fun _ => ih locals
  | set key value rest ih => exact .bind fun _ => ih locals
  | cond e yes no rest ihyes ihno ih =>
    refine .bind fun b => ?_
    cases b with
    | true => exact ((ihyes locals).imp fun _ => Collected.left).append (ih locals)
    | false => exact ((ihno locals).imp fun _ => Collected.right).append (ih locals)
  | each source binding inner pos rest ihinner ih =>
    refine .bind fun st => .bind fun items => ?_
    have hinner := collectOver_gives (fun item => ihinner ((binding, item) :: locals)) items
    exact hinner.append (ih locals)

end Render

/-! ### The law of executions -/

/-- Every execution of a layout has run what it wraps as often as its page rendered that, and once if it did
not; a page without a place for it did not. -/
def Execution.Complete : List Layer → Execution → Prop
  | outer :: next :: others, e =>
    e.wrapped.length = max 1 e.bodies ∧ (outer.page.rendersBody = false → e.bodies = 0) ∧
      ∀ x ∈ e.wrapped, Complete (next :: others) x
  | _, _ => True

theorem Render.traceLayers_complete (scene : Scene) (layers : List Layer) :
    Gives (Execution.Complete layers) (traceLayers scene layers) := by
  induction layers with
  | nil => exact .pure trivial
  | cons outer inner ih =>
    cases inner with
    | nil => exact .bind fun _ => .pure trivial
    | cons next others =>
      refine .bind fun _ => .bind fun _ => ?_
      refine (collectPage_gives _ ih outer.page []).bind_of fun inside hinside => ?_
      cases inside with
      | nil =>
        refine ih.bind_of fun e he => .pure ?_
        exact ⟨rfl, fun _ => rfl, List.forall_mem_singleton.mpr he⟩
      | cons x xs =>
        refine .pure ⟨?_, fun hnone => ?_, hinside.all⟩
        · simp [Execution.wrapped, Execution.bodies]
        · cases hinside.none_of hnone

namespace Execution

variable {layers : List Layer} {e : Execution}

/-- What it is for an execution to be complete for the chain from a layout on. -/
theorem Complete.of_drop {i : Nat} (hi : i + 1 < layers.length) (h : Complete (layers.drop i) e) :
    e.wrapped.length = max 1 e.bodies ∧
      (layers[i].page.rendersBody = false → e.bodies = 0) ∧
      ∀ x ∈ e.wrapped, Complete (layers.drop (i + 1)) x := by
  have hnext : layers.drop (i + 1) = layers[i + 1] :: layers.drop (i + 1 + 1) :=
    List.drop_eq_getElem_cons hi
  have hlayout : layers.drop i = layers[i] :: layers.drop (i + 1) :=
    List.drop_eq_getElem_cons (by omega)
  rw [hlayout, hnext] at h
  rw [hnext]
  exact h

/-- The executions of a layer are complete for the chain from that layer on. -/
theorem Complete.level (h : Complete layers e) {i : Nat} (hi : i < layers.length) :
    ∀ x ∈ e.level i, Complete (layers.drop i) x := by
  induction i with
  | zero =>
    intro x hx
    obtain rfl := List.mem_singleton.mp hx
    exact h
  | succ i ih =>
    intro x hx
    obtain ⟨y, hy, hxy⟩ := List.mem_flatMap.mp hx
    exact ((ih (by omega) y hy).of_drop hi).2.2 x hxy

/-- As many executions of a layer as the executions of the layout around it ask for. -/
theorem Complete.length_level (h : Complete layers e) {i : Nat} (hi : i + 1 < layers.length) :
    (e.level (i + 1)).length = ((e.level i).map fun x => max 1 x.bodies).sum := by
  show ((e.level i).flatMap wrapped).length = _
  rw [List.length_flatMap]
  refine congrArg List.sum (List.map_congr_left fun x hx => ?_)
  exact ((h.level (by omega) x hx).of_drop hi).1

theorem Complete.level_ne_nil (h : Complete layers e) {i : Nat} (hi : i < layers.length) :
    e.level i ≠ [] := by
  induction i with
  | zero => exact List.cons_ne_nil e []
  | succ i ih =>
    obtain ⟨x, hx⟩ := List.exists_mem_of_ne_nil _ (ih (by omega))
    have hlength := ((h.level (by omega) x hx).of_drop hi).1
    intro hnil
    have hwrapped : x.wrapped = [] := List.flatMap_eq_nil_iff.mp hnil x hx
    rw [hwrapped, List.length_nil] at hlength
    omega

end Execution

namespace Render

variable {scene : Scene}

/-- A page without a place for the wrapped content runs as it would as a leaf. -/
theorem runPage_leaf {cx : PageContext} {page : Page} (hnone : page.rendersBody = false) (locals : Locals) :
    runPage cx page locals = runPage { cx with body? := none } page locals := by
  induction page generalizing locals with
  | done => rfl
  | renderBody pos rest => cases hnone
  | text content rest ih => exact bind_congr fun _ => ih hnone locals
  | echo e escaped pos rest ih => exact bind_congr fun _ => ih hnone locals
  | partialView name pos rest ih => exact bind_congr fun _ => ih hnone locals
  | set key value rest ih => exact bind_congr fun _ => ih hnone locals
  | cond e yes no rest ihyes ihno ih =>
    obtain ⟨hbranches, hrest⟩ := Bool.or_eq_false_iff.mp hnone
    obtain ⟨hyes, hno⟩ := Bool.or_eq_false_iff.mp hbranches
    rw [runPage, runPage, ihyes hyes, ihno hno, ih hrest]
    rfl
  | each source binding inner pos rest ihinner ih =>
    obtain ⟨hinner, hrest⟩ := Bool.or_eq_false_iff.mp hnone
    have hitems : (fun item => runPage cx inner ((binding, item) :: locals)) =
        fun item => runPage { cx with body? := none } inner ((binding, item) :: locals) :=
      funext fun item => ihinner hinner ((binding, item) :: locals)
    rw [runPage, runPage, hitems, ih hrest]
    rfl

/-- A layout without a place for what it wraps runs as a leaf does, and then what it wraps once. -/
theorem runLayers_ahead {outer : Layer} (hnone : outer.page.rendersBody = false) (next : Layer)
    (others : List Layer) :
    runLayers scene (outer :: next :: others) = (do
      let _ ← runLayer scene outer none
      runLayers scene (next :: others)) := by
  rw [runLayers_cons, runPage_leaf hnone, runPage_zero hnone]
  simp only [runLayer, bind_assoc, pure_bind, if_true]

/-- A traced run is the run of the layers.  If the layers of a chain run to the end then each has been executed,
a layer behind a layout as often as the executions of the layout rendered what they wrap, where not rendering
it counts as once.  A layout without a place for it runs through, and then what it wraps runs once. -/
theorem runLayers_executions {layers : List Layer} {st st' : State}
    (h : ending (runLayers scene layers) st = (.ok (), st')) :
    (traceLayers scene layers >>= fun _ => pure ()) = runLayers scene layers ∧
    (∃ e, ending (traceLayers scene layers) st = (.ok e, st') ∧
      (∀ i < layers.length, e.level i ≠ []) ∧
      ∀ i, i + 1 < layers.length →
        (e.level (i + 1)).length = ((e.level i).map fun x => max 1 x.bodies).sum) ∧
    ∀ outer next others, outer.page.rendersBody = false →
      runLayers scene (outer :: next :: others) = (do
        let _ ← runLayer scene outer none
        runLayers scene (next :: others)) := by
  refine ⟨traceLayers_run scene layers, ?_, fun outer next others hnone => runLayers_ahead hnone next others⟩
  rw [← traceLayers_run, ending_bind] at h
  rcases htrace : ending (traceLayers scene layers) st with ⟨error | e, t⟩ <;> rw [htrace] at h
  · cases h
  · obtain rfl : t = st' := congrArg Prod.snd h
    have hcomplete := traceLayers_complete scene layers st e t htrace
    exact ⟨e, rfl, fun i hi => hcomplete.level_ne_nil hi, fun i hi => hcomplete.length_level hi⟩

/-- A layout that renders what it wraps twice. -/
def repeating : Layer :=
  ⟨"outer", .ancestor, .renderBody .start (.text "," (.renderBody .start .done))⟩

theorem runLayers_executions_repeating :
    let layers := [repeating, heading.layer, settingKey]
    ∃ st' e, ending (runLayers onePartial.scene layers) blank = (.ok (), st') ∧
      ending (traceLayers onePartial.scene layers) blank = (.ok e, st') ∧ (∀ i < 3, e.level i ≠ []) ∧
      (e.level 2).length = ((e.level 1).map fun x => max 1 x.bodies).sum ∧ (e.level 2).length = 2 := by
  intro layers
  have hok : (ending (runLayers onePartial.scene [repeating, heading.layer, settingKey])
      blank).1.isOk = true := by
    decide +kernel
  have htwo : (match (ending (traceLayers onePartial.scene [repeating, heading.layer, settingKey])
      blank).1 with
      | .ok e => (e.level 2).length
      | .error _ => 0) = 2 := by
    decide +kernel
  rcases hrun : ending (runLayers onePartial.scene [repeating, heading.layer, settingKey]) blank with
    ⟨error | ⟨⟩, st'⟩ <;> rw [hrun] at hok
  · cases hok
  obtain ⟨-, ⟨e, htrace, hsome, hcount⟩, -⟩ := runLayers_executions hrun
  rw [htrace] at htwo
  exact ⟨st', e, rfl, htrace, hsome, hcount 1 (by decide), htwo⟩

end Render

end LayeredViews
