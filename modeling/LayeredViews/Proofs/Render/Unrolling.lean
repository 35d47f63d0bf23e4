import LayeredViews.Proofs.Render.Inlining
import LayeredViews.Proofs.Render.Values
import LayeredViews.Proofs.Template.Substitution
import Mathlib.Data.List.Forall2

/-!
# Unrolling — a loop, and its body written out for each item

While the body of a loop runs, its variable stands for one item of the array, which the model has under the index
of the item.  So the body does what it does with the variable replaced by the path to the item, whichever loops
there are inside of it or around it (`replace_alike`), and a loop does what its bodies do one after the other
(`runPage_unrolled`).  The two are told apart by nothing but the spelling of expressions that faults quote.
-/

namespace LayeredViews

open Template (Page Expr SetValue)
open Text (Position)

/-! ### Spellings -/

/-- A fault without the spelling of the expression that it is about. -/
def Fault.unquoted : Fault → Fault
  | .undefinedValue _ => .undefinedValue ""
  | .arrayEcho _ => .arrayEcho ""
  | .objectEcho _ => .objectEcho ""
  | .notAnArray _ => .notAnArray ""
  | f => f

/-- An error without the spelling of the expression that a fault is about. -/
def ExecError.unquoted : ExecError → ExecError
  | .runtime template pos fault => .runtime template pos fault.unquoted
  | e => e

namespace Render

/-! ### Values -/

/-- Two expressions that lead to one value, each by the loop variables it is looked up with, and of which both
or neither may lead nowhere. -/
structure SameValue (model : Json) (locals locals' : Locals) (e e' : Expr) : Prop where
  value_eq : ∀ bag, valueOf model locals bag e = valueOf model locals' bag e'
  bag_iff : e.root = .bag ↔ e'.root = .bag

section Values

variable {model : Json} {locals locals' : Locals} {e e' : Expr} (h : SameValue model locals locals' e e')
  (bag : Bag)
include h

theorem requiredValue_alike :
    (requiredValue model locals bag e).mapError Fault.unquoted =
      (requiredValue model locals' bag e').mapError Fault.unquoted := by
  unfold requiredValue
  rw [h.value_eq bag]
  cases valueOf model locals' bag e' with
  | some v => rfl
  | none =>
    dsimp only
    by_cases hbag : e'.root = .bag
    · rw [if_pos hbag, if_pos (h.bag_iff.mpr hbag)]
    · rw [if_neg hbag, if_neg (mt h.bag_iff.mp hbag)]
      rfl

/-- What is made of a value that is required is the same of two that are. -/
theorem required_alike {α : Type} {f f' : Json → Except Fault α}
    (hf : ∀ v, (f v).mapError Fault.unquoted = (f' v).mapError Fault.unquoted) :
    (requiredValue model locals bag e >>= f).mapError Fault.unquoted =
      (requiredValue model locals' bag e' >>= f').mapError Fault.unquoted := by
  have hrequired := requiredValue_alike h bag
  revert hrequired
  rcases requiredValue model locals bag e with fault | v <;>
    rcases requiredValue model locals' bag e' with fault' | v' <;> intro hrequired
  · exact congrArg Except.error (Except.error.inj hrequired)
  · cases hrequired
  · cases hrequired
  · obtain rfl := Except.ok.inj hrequired
    exact hf v

theorem echoed_alike (escaped : Bool) :
    (echoed model locals bag e escaped).mapError Fault.unquoted =
      (echoed model locals' bag e' escaped).mapError Fault.unquoted :=
  required_alike h bag fun v => by cases v <;> rfl

theorem loopItems_alike :
    (loopItems model locals bag e).mapError Fault.unquoted =
      (loopItems model locals' bag e').mapError Fault.unquoted :=
  required_alike h bag fun v => by cases v <;> rfl

end Values

/-! ### Nodes -/

/-- The two do the same, but for what faults quote. -/
abbrev Alike {α : Type} (x y : Render α) : Prop :=
  Matches Eq ExecError.unquoted x y

theorem Alike.refl {α : Type} (x : Render α) : Alike x x := by
  rintro st _ rfl
  exact ⟨rfl, rfl⟩

theorem withBag_alike {α : Type} (f f' : Bag → Render α) (hf : ∀ bag, Alike (f bag) (f' bag)) :
    Alike (do f (← get).bag) (do f' (← get).bag) := by
  rintro st _ rfl
  exact hf st.bag st st rfl

theorem orFault_alike {α : Type} {cx : PageContext} (pos : Position) {v v' : Except Fault α}
    (h : v.mapError Fault.unquoted = v'.mapError Fault.unquoted) :
    Alike (orFault cx pos v) (orFault cx pos v') := by
  rcases v with fault | a <;> rcases v' with fault' | a'
  · have hfault : fault.unquoted = fault'.unquoted := Except.error.inj h
    refine .throw ?_
    simp only [ExecError.unquoted, hfault]
  · cases h
  · cases h
  · obtain rfl := Except.ok.inj h
    exact .pure a

section Nodes

variable {cx : PageContext} {locals locals' : Locals}

theorem echo_alike {e e' : Expr} (h : SameValue cx.scene.model locals locals' e e') (escaped : Bool)
    (pos : Position) : Alike (echo cx locals e escaped pos) (echo cx locals' e' escaped pos) :=
  withBag_alike _ _ fun bag => (orFault_alike pos (echoed_alike h bag escaped)).bind fun text =>
    Alike.refl (writeText text)

theorem test_alike {e e' : Expr} (h : SameValue cx.scene.model locals locals' e e') :
    Alike (test cx locals e) (test cx locals' e') := by
  refine withBag_alike
    (fun bag => pure (((valueOf cx.scene.model locals bag e).map Json.truthy).getD false))
    (fun bag => pure (((valueOf cx.scene.model locals' bag e').map Json.truthy).getD false)) fun bag => ?_
  rw [h.value_eq bag]
  exact .pure _

theorem items_alike {e e' : Expr} (h : SameValue cx.scene.model locals locals' e e') (pos : Position) :
    Alike (items cx locals e pos) (items cx locals' e' pos) :=
  withBag_alike _ _ fun bag => orFault_alike pos (loopItems_alike h bag)

theorem set_alike {value value' : SetValue}
    (h : ∀ bag, setValueOf cx.scene.model locals bag value = setValueOf cx.scene.model locals' bag value')
    (key : String) : Alike (set cx locals key value) (set cx locals' key value') := by
  rintro st _ rfl
  have hset : ending (set cx locals key value) st = ending (set cx locals' key value') st := by
    show (_, State.mk _ _ _ _ _ _) = (_, State.mk _ _ _ _ _ _)
    rw [h st.bag]
  rw [hset]
  exact ⟨rfl, rfl⟩

end Nodes

/-! ### Loop variables -/

/-- Two stacks of loop variables that no expression tells apart. -/
def SameLocals (locals locals' : Locals) : Prop :=
  ∀ name, Table.find? name locals = Table.find? name locals'

theorem SameLocals.push {locals locals' : Locals} (h : SameLocals locals locals') (binding : String)
    (item : Json) : SameLocals ((binding, item) :: locals) ((binding, item) :: locals') := by
  intro name
  simp only [Table.find?]
  split
  · rfl
  · exact h name

theorem valueOf_sameLocals {locals locals' : Locals} (h : SameLocals locals locals') (model : Json) :
    valueOf model locals = valueOf model locals' := by
  funext bag e
  unfold valueOf
  cases e.root with
  | model => rfl
  | bag => rfl
  | loop name => exact congrArg (Option.bind · _) (h name)

/-- Nor does a page tell them apart. -/
theorem runPage_sameLocals {cx : PageContext} (page : Page) {locals locals' : Locals}
    (h : SameLocals locals locals') : runPage cx page locals = runPage cx page locals' := by
  have hvalue := valueOf_sameLocals h cx.scene.model
  induction page generalizing locals locals' with
  | done => rfl
  | text content rest ih => simp only [runPage, ih h hvalue]
  | echo e escaped pos rest ih => simp only [runPage, echo, echoed, requiredValue, hvalue, ih h hvalue]
  | renderBody pos rest ih => simp only [runPage, ih h hvalue]
  | partialView name pos rest ih => simp only [runPage, ih h hvalue]
  | set key value rest ih =>
    have hset : setValueOf cx.scene.model locals = setValueOf cx.scene.model locals' := by
      funext bag value
      cases value <;> simp only [setValueOf, hvalue]
    simp only [runPage, set, hset, ih h hvalue]
  | cond e yes no rest ihyes ihno ih => simp only [runPage, test, hvalue, ihyes h hvalue, ihno h hvalue, ih h hvalue]
  | each source binding body pos rest ihbody ih =>
    have hbody : ∀ item, runPage cx body ((binding, item) :: locals) = runPage cx body ((binding, item) :: locals') :=
      fun item => ihbody (h.push binding item) (valueOf_sameLocals (h.push binding item) _)
    simp only [runPage, loopItems, requiredValue, hvalue, hbody, ih h hvalue]

/-- The loop variable stands for an item where it still has its place, and everything else is the same. -/
structure Standing (x : String) (item : Json) (locals locals' : Locals) : Prop where
  found : Table.find? x locals = some item
  others : ∀ name, name ≠ x → Table.find? name locals = Table.find? name locals'

theorem Standing.start (x : String) (item : Json) (locals : Locals) :
    Standing x item ((x, item) :: locals) locals where
  found := by simp [Table.find?]
  others name hname := by simp [Table.find?, hname.symm]

/-- An inner loop with another variable. -/
theorem Standing.push {x : String} {item : Json} {locals locals' : Locals} (h : Standing x item locals locals')
    {binding : String} (hbinding : binding ≠ x) (inner : Json) :
    Standing x item ((binding, inner) :: locals) ((binding, inner) :: locals') where
  found := by simpa [Table.find?, hbinding] using h.found
  others name hname := by
    simp only [Table.find?]
    split
    · rfl
    · exact h.others name hname

/-- An inner loop with the same variable leaves nothing of the outer one to be seen. -/
theorem Standing.rebind {x : String} {item : Json} {locals locals' : Locals} (h : Standing x item locals locals')
    (inner : Json) : SameLocals ((x, inner) :: locals) ((x, inner) :: locals') := by
  intro name
  by_cases hname : x = name
  · simp [Table.find?, hname]
  · simpa [Table.find?, hname] using h.others name (Ne.symm hname)

/-! ### Pages -/

section Pages

variable {cx : PageContext} {x : String} {item : Json} {target : Expr}
  (hroot : target.root = .model) (htarget : cx.scene.model.lookup target.path = some item)
include hroot htarget

/-- An expression leads to the same with the loop variable replaced by where its item is. -/
theorem sameValue_replace {locals locals' : Locals} (h : Standing x item locals locals') (e : Expr) :
    SameValue cx.scene.model locals locals' e (e.replace x target) := by
  unfold Expr.replace
  by_cases hx : e.root = .loop x
  · rw [if_pos hx]
    refine ⟨fun bag => ?_, by simp [hx, Expr.extend, hroot]⟩
    simp only [valueOf, hx, Expr.extend, hroot, h.found, Json.lookup_append, htarget]
  · rw [if_neg hx]
    refine ⟨fun bag => ?_, Iff.rfl⟩
    unfold valueOf
    cases hr : e.root with
    | model => rfl
    | bag => rfl
    | loop name =>
      have hname : name ≠ x := fun hname => hx (hname ▸ hr)
      exact congrArg (Option.bind · _) (h.others name hname)

theorem setValueOf_replace {locals locals' : Locals} (h : Standing x item locals locals') (bag : Bag)
    (value : SetValue) :
    setValueOf cx.scene.model locals bag value =
      setValueOf cx.scene.model locals' bag (value.replace x target) := by
  cases value with
  | literal text => rfl
  | expr e => exact congrArg (Option.getD · .null) ((sameValue_replace hroot htarget h e).value_eq bag)

/-- A page does the same with the loop variable replaced by where its item is. -/
theorem replace_alike (page : Page) {locals locals' : Locals} (h : Standing x item locals locals') :
    Alike (runPage cx page locals) (runPage cx (page.replace x target) locals') := by
  have hsame := sameValue_replace hroot htarget h
  induction page generalizing locals locals' with
  | done => exact .pure 0
  | text content rest ih => exact (Alike.refl (writeText content)).bind fun _ => ih h hsame
  | echo e escaped pos rest ih => exact (echo_alike (hsame e) escaped pos).bind fun _ => ih h hsame
  | renderBody pos rest ih =>
    exact (Alike.refl (renderBody cx pos)).bind fun _ => (ih h hsame).bind fun n => .pure (1 + n)
  | partialView name pos rest ih => exact (Alike.refl (partialView cx name pos)).bind fun _ => ih h hsame
  | set key value rest ih =>
    exact (set_alike (fun bag => setValueOf_replace hroot htarget h bag value) key).bind fun _ => ih h hsame
  | cond e yes no rest ihyes ihno ih =>
    refine (test_alike (hsame e)).bind fun b => ?_
    cases b with
    | true => exact add_matches (ihyes h hsame) (ih h hsame)
    | false => exact add_matches (ihno h hsame) (ih h hsame)
  | each source binding body pos rest ihbody ih =>
    simp only [Page.replace, runPage_each]
    refine (items_alike (hsame source) pos).bind fun items => ?_
    refine add_matches (sumOver_matches (fun inner => ?_) items) (ih h hsame)
    by_cases hbinding : binding = x
    · subst hbinding
      rw [if_pos rfl, runPage_sameLocals body (h.rebind inner)]
      exact Alike.refl _
    · rw [if_neg hbinding]
      have hinner := h.push hbinding inner
      exact ihbody hinner (sameValue_replace hroot htarget hinner)

end Pages

/-- A run over items and the pages for them in order. -/
theorem sumOver_alike_concat {α : Type} {cx : PageContext} {locals : Locals} {run : α → Render Nat}
    {items : List α} {pages : List Page}
    (h : List.Forall₂ (fun item page => Alike (run item) (runPage cx page locals)) items pages) :
    Alike (sumOver run items) (runPage cx (Page.concat pages) locals) := by
  induction h with
  | nil => exact .pure 0
  | cons hfirst _ ih =>
    rw [Page.concat, runPage_append]
    exact add_matches hfirst ih

/-- An array has its items under their indices. -/
theorem lookup_item {model : Json} {e : Expr} {items : List Json} (h : model.lookup e.path = some (.arr items))
    (hlength : items.length ≤ Text.sizeMax) {i : Nat} {item : Json} (hitem : items[i]? = some item) :
    model.lookup (e.item i).path = some item :=
  (Json.lookup_index h hlength i).trans hitem

/-- A loop over an array of the model does what its body does once for each item, written out in order with the
loop variable replaced by the item: both leave one state and give the same, except for the spelling of the
expression that a fault quotes.  An array has no more items than a size can count. -/
theorem runPage_unrolled (cx : PageContext) {e : Expr} {items : List Json} (hroot : e.root = .model)
    (hitems : cx.scene.model.lookup e.path = some (.arr items)) (hlength : items.length ≤ Text.sizeMax)
    (x : String) (body : Page) (pos : Position) (locals : Locals) (st : State) :
    let loop := ending (runPage cx (.each e x body pos .done) locals) st
    let sequence := ending (runPage cx (Page.concat (Page.unrolled e x body items.length)) locals) st
    loop.1.mapError ExecError.unquoted = sequence.1.mapError ExecError.unquoted ∧ loop.2 = sequence.2 := by
  have hbodies : List.Forall₂
      (fun item page => Alike (runPage cx body ((x, item) :: locals)) (runPage cx page locals)) items
      (Page.unrolled e x body items.length) := by
    refine List.forall₂_iff_get.mpr ⟨by simp [Page.unrolled], fun i hi hi' => ?_⟩
    have hitem := lookup_item hitems hlength (List.getElem?_eq_getElem hi)
    have hitemRoot : (e.item i).root = .model := hroot
    have halike := replace_alike hitemRoot hitem body (.start x items[i] locals)
    simpa [Page.unrolled] using halike
  have hloop : runPage cx (.each e x body pos .done) locals =
      sumOver (fun item => runPage cx body ((x, item) :: locals)) items := by
    have hrequired : ∀ bag, loopItems cx.scene.model locals bag e = .ok items := by
      intro bag
      simp only [loopItems, requiredValue, valueOf, hroot, hitems]
      rfl
    simp only [runPage, hrequired, orFault, pure_bind, Nat.add_zero, bind_pure]
    rfl
  intro loop sequence
  have hmatches := sumOver_alike_concat hbodies st st rfl
  rw [← hloop] at hmatches
  exact hmatches

/-- Two members of a group: one with a name and two tags, the other with a list where its name should be. -/
def twoMembers : Json :=
  .obj [("members", .arr [
    .obj [("name", .str "a"), ("tags", .arr [.str "b", .str "c"])],
    .obj [("name", .arr []), ("tags", .arr [])]])]

/-- A name and then all tags, under the same variable. -/
def memberBody : Page :=
  .echo ⟨.loop "x", ["name"], "x.name"⟩ false ⟨2, 1⟩
    (.each ⟨.loop "x", ["tags"], "x.tags"⟩ "x" (.echo ⟨.loop "x", [], "x"⟩ false ⟨3, 3⟩ .done) ⟨3, 1⟩ .done)

theorem runPage_unrolled_of_members :
    let cx : PageContext := ⟨⟨twoMembers, 0, 0, false, none⟩, "group", none⟩
    let members : Expr := ⟨.model, ["members"], "model.members"⟩
    let loop := ending (runPage cx (.each members "x" memberBody ⟨1, 1⟩ .done) []) blank
    let sequence := ending (runPage cx (Page.concat (Page.unrolled members "x" memberBody 2)) []) blank
    (loop.1.mapError ExecError.unquoted = sequence.1.mapError ExecError.unquoted ∧ loop.2 = sequence.2) ∧
      loop.1 = .error (.runtime "group" ⟨2, 1⟩ (.arrayEcho "x.name")) ∧
      sequence.1 = .error (.runtime "group" ⟨2, 1⟩ (.arrayEcho "model.members.1.name")) ∧
      loop.2.out.buffer = "abc" := by
  intro cx members loop sequence
  refine ⟨?_, by decide +kernel, by decide +kernel, by decide +kernel⟩
  have hmembers : cx.scene.model.lookup members.path = some (.arr [
      .obj [("name", .str "a"), ("tags", .arr [.str "b", .str "c"])],
      .obj [("name", .arr []), ("tags", .arr [])]]) := rfl
  exact runPage_unrolled cx rfl hmembers (by decide) "x" memberBody ⟨1, 1⟩ [] blank

end Render

end LayeredViews
