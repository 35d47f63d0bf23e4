import LayeredViews.Proofs.Template.Grammar
import LayeredViews.Proofs.Template.Nodes

/-!
# Scoping — which loops an expression stands in

`Page.sites` lists the expressions of a page, each with the loops around it.  In a page that a source compiles to,
an expression that is rooted in a loop variable stands in a loop with this variable: the grammar lets only the
variables of open loops be named, and opens a loop exactly around its body.
-/

namespace LayeredViews.Template

open Text (Position)

/-! ### Sites -/

/-- A loop without its body. -/
structure Loop where
  source : Expr
  binding : String
  pos : Position
deriving DecidableEq, Repr

/-- An expression with the loops around it, the innermost one first. -/
structure Site where
  loops : List Loop
  expr : Expr
deriving DecidableEq, Repr

namespace Page

/-- The expressions that a page looks up, inside of some loops. -/
def sites (loops : List Loop) : Page → List Site
  | .done => []
  | .text _ rest => rest.sites loops
  | .echo e _ _ rest => ⟨loops, e⟩ :: rest.sites loops
  | .renderBody _ rest => rest.sites loops
  | .partialView _ _ rest => rest.sites loops
  | .set key value rest => (Node.set key value).exprs.map (⟨loops, ·⟩) ++ rest.sites loops
  | .cond test yes no rest => ⟨loops, test⟩ :: (yes.sites loops ++ (no.sites loops ++ rest.sites loops))
  | .each source binding body pos rest =>
    ⟨loops, source⟩ :: (body.sites (⟨source, binding, pos⟩ :: loops) ++ rest.sites loops)

end Page

/-! ### Scopes -/

/-- An expression that is rooted in a loop variable stands in a loop with this variable. -/
def Site.InScope (site : Site) : Prop :=
  ∀ name, site.expr.root = .loop name → ∃ loop ∈ site.loops, loop.binding = name

variable {scope : List String}

theorem Rooted.mem {word name : String} {root : Root} (h : Rooted scope word root) (hroot : root = .loop name) :
    name ∈ scope := by
  cases h with
  | model => cases hroot
  | bag => cases hroot
  | loop inScope =>
    obtain rfl := Root.loop.inj hroot
    exact inScope

/-- The loop variable of an expression is one of the scope. -/
theorem Expr.Spelled.root_mem {cs : List Char} {e : Expr} (h : e.Spelled scope cs) {name : String}
    (hroot : e.root = .loop name) : name ∈ scope := by
  obtain ⟨-, rooted⟩ := h
  exact rooted.mem hroot

/-- The expressions in a tag. -/
def Tag.exprs : Tag → List Expr
  | .echo e _ => [e]
  | .set key value => (Node.set key value).exprs
  | .openCond e => [e]
  | .openEach e _ => [e]
  | _ => []

/-- The loop variables of the expressions in a tag are of the scope. -/
theorem Tag.Says.root_mem {body : List Char} {t : Tag} (h : t.Says scope body) {e : Expr} (he : e ∈ t.exprs)
    {name : String} (hroot : e.root = .loop name) : name ∈ scope := by
  cases h with
  | echo _ _ spelled => exact spelled.root_mem (List.mem_singleton.mp he ▸ hroot)
  | raw _ spelled => exact spelled.root_mem (List.mem_singleton.mp he ▸ hroot)
  | set _ _ _ spelled =>
    cases spelled with
    | literal _ => cases he
    | expr spelled => exact spelled.root_mem (List.mem_singleton.mp he ▸ hroot)
  | openCond _ spelled => exact spelled.root_mem (List.mem_singleton.mp he ▸ hroot)
  | openEach _ _ _ _ _ _ _ spelled => exact spelled.root_mem (List.mem_singleton.mp he ▸ hroot)
  | _ => cases he

/-- The loops around some tokens have the variables of a scope. -/
def Around (scope : List String) (loops : List Loop) : Prop :=
  ∀ name ∈ scope, ∃ loop ∈ loops, loop.binding = name

theorem Around.inner {loops : List Loop} (h : Around scope loops) (source : Expr) (binding : String)
    (pos : Position) : Around (binding :: scope) (⟨source, binding, pos⟩ :: loops) := by
  intro name hname
  rcases List.mem_cons.mp hname with rfl | hname
  · exact ⟨_, List.mem_cons_self, rfl⟩
  · obtain ⟨loop, hloop, hbinding⟩ := h name hname
    exact ⟨loop, List.mem_cons_of_mem _ hloop, hbinding⟩

theorem Around.inScope {loops : List Loop} (h : Around scope loops) {body : List Char} {t : Tag}
    (form : t.Says scope body) : ∀ site ∈ t.exprs.map (⟨loops, ·⟩), Site.InScope site := by
  intro site hsite name hroot
  obtain ⟨e, he, rfl⟩ := List.mem_map.mp hsite
  exact h name (form.root_mem he hroot)

/-- What tokens derive in a scope has all expressions in the scope of the loops around it. -/
theorem Derives.inScope {ts : List Token} {page : Page} (h : Derives scope ts page) {loops : List Loop}
    (hloops : Around scope loops) : ∀ site ∈ page.sites loops, site.InScope := by
  induction h generalizing loops with
  | done => simp [Page.sites]
  | text _ ih => exact ih hloops
  | comment _ _ ih => exact ih hloops
  | echo form _ ih => exact List.forall_mem_append.mpr ⟨hloops.inScope form, ih hloops⟩
  | renderBody _ _ ih => exact ih hloops
  | partialView _ _ ih => exact ih hloops
  | set form _ ih => exact List.forall_mem_append.mpr ⟨hloops.inScope form, ih hloops⟩
  | cond opens _ _ _ ihyes ih =>
    have hbranches := List.forall_mem_append.mpr ⟨ihyes hloops, ih hloops⟩
    exact List.forall_mem_append.mpr ⟨hloops.inScope opens, hbranches⟩
  | condElse opens _ _ _ _ _ ihyes ihno ih =>
    have hbranches := List.forall_mem_append.mpr ⟨ihyes hloops, List.forall_mem_append.mpr ⟨ihno hloops, ih hloops⟩⟩
    exact List.forall_mem_append.mpr ⟨hloops.inScope opens, hbranches⟩
  | each opens _ _ _ ihbody ih =>
    refine List.forall_mem_append.mpr ⟨hloops.inScope opens, List.forall_mem_append.mpr ⟨?_, ih hloops⟩⟩
    exact ihbody (hloops.inner _ _ _)

/-- In the page of a source all expressions are in the scope of the loops around them. -/
theorem parse_inScope {source : String} {page : Page} (h : parse source = .ok page) :
    ∀ site ∈ page.sites [], site.InScope :=
  (parse_eq_ok_iff.mp h).2.inScope fun _ hname => absurd hname List.not_mem_nil

end LayeredViews.Template
