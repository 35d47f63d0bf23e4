import LayeredViews.Proofs.Render.Inlining
import LayeredViews.Proofs.Render.Rechunked
import LayeredViews.Proofs.Template.Joined

/-!
# Joined sources — one source behind another one, run

A page may end in a fault of a node of its own, which names the page and where the node stands, or in what a partial
view or the wrapped content ended in.  The two are told apart by running the page under every name (`Ends`), and
moving its tags moves its own faults and nothing else.  The page of two sources does what the page of the first one
does and then, where that does not fail, what the page of the second one does, further on (`runPage_joined`).
-/

namespace LayeredViews

open Template (Page Expr parse)
open Text (Position)

/-! ### Own faults -/

/-- How a program of a page ends: as it should, in a fault of a node of the page, or in an error of another
program. -/
inductive Ended (α : Type) where
  | done (a : α)
  | fault (pos : Position) (f : Fault)
  | passedOn (e : ExecError)

namespace Ended

variable {α : Type}

/-- What the program gives if its page has this name. -/
def result (template : String) : Ended α → Except ExecError α
  | .done a => .ok a
  | .fault pos f => .error (.runtime template pos f)
  | .passedOn e => .error e

/-- The same where the nodes of the page stand elsewhere. -/
def mapPos (move : Position → Position) : Ended α → Ended α
  | .done a => .done a
  | .fault pos f => .fault (move pos) f
  | .passedOn e => .passedOn e

/-- The same for a page that renders what it wraps some times before. -/
def plus (n : Nat) : Ended Nat → Ended Nat
  | .done m => .done (n + m)
  | .fault pos f => .fault pos f
  | .passedOn e => .passedOn e

/-- An error that does not name the page is not the page's own. -/
theorem passedOn_ne_fault {e : ExecError} {pos : Position} {f : Fault}
    (h : ∀ template, e = .runtime template pos f) : False := by
  have hnames : ExecError.runtime "" pos f = .runtime "page" pos f := (h "").symm.trans (h "page")
  exact absurd (ExecError.runtime.inj hnames).1 (by decide)

/-- What a program gives under every name says how it ended. -/
theorem eq_of_results {e e' : Ended α} (h : ∀ template, e.result template = e'.result template) : e = e' := by
  have hany := h ""
  cases e with
  | done a =>
    cases e' with
    | done a' => rw [Except.ok.inj hany]
    | _ => cases hany
  | fault pos f =>
    cases e' with
    | done a' => cases hany
    | fault pos' f' =>
      obtain ⟨-, rfl, rfl⟩ := ExecError.runtime.inj (Except.error.inj hany)
      rfl
    | passedOn error => exact (passedOn_ne_fault fun template => (Except.error.inj (h template)).symm).elim
  | passedOn error =>
    cases e' with
    | done a' => cases hany
    | fault pos' f' => exact (passedOn_ne_fault fun template => Except.error.inj (h template)).elim
    | passedOn error' => rw [Except.error.inj hany]

end Ended

namespace Render

/-- Two programs, each given for every name of their page, that do the same but for where the nodes of the page
stand. -/
def Moves (move : Position → Position) {α : Type} (x y : String → Render α) : Prop :=
  ∀ st, ∃ (e : Ended α) (st' : State), ∀ template,
    ending (x template) st = (e.result template, st') ∧
      ending (y template) st = ((e.mapPos move).result template, st')

namespace Moves

variable {move : Position → Position} {α β : Type}

/-- A program that has nothing to do with the page. -/
theorem same (x : Render α) : Moves move (fun _ => x) fun _ => x := by
  intro st
  rcases hx : ending x st with ⟨e | a, st'⟩
  · exact ⟨.passedOn e, st', fun _ => ⟨hx, hx⟩⟩
  · exact ⟨.done a, st', fun _ => ⟨hx, hx⟩⟩

theorem fault (pos : Position) (f : Fault) :
    Moves move (fun template => (throw (.runtime template pos f) : Render α))
      fun template => throw (.runtime template (move pos) f) :=
  fun st => ⟨.fault pos f, st, fun _ => ⟨rfl, rfl⟩⟩

theorem bind {x y : String → Render α} {f g : String → α → Render β} (hx : Moves move x y)
    (hf : ∀ a, Moves move (fun template => f template a) fun template => g template a) :
    Moves move (fun template => x template >>= f template) fun template => y template >>= g template := by
  intro st
  obtain ⟨e, mid, hmid⟩ := hx st
  cases e with
  | done a =>
    obtain ⟨e, st', hend⟩ := hf a mid
    refine ⟨e, st', fun template => ?_⟩
    rw [ending_bind_ok (hmid template).1, ending_bind_ok (hmid template).2]
    exact hend template
  | fault pos fault =>
    exact ⟨.fault pos fault, mid, fun template =>
      ⟨ending_bind_error (hmid template).1 _, ending_bind_error (hmid template).2 _⟩⟩
  | passedOn error =>
    exact ⟨.passedOn error, mid, fun template =>
      ⟨ending_bind_error (hmid template).1 _, ending_bind_error (hmid template).2 _⟩⟩

theorem withBag {f g : String → Bag → Render α}
    (hf : ∀ bag, Moves move (fun template => f template bag) fun template => g template bag) :
    Moves move (fun template => do f template (← get).bag) (fun template => do g template (← get).bag) :=
  fun st => hf st.bag st

theorem add {x y x' y' : String → Render Nat} (hx : Moves move x y) (hx' : Moves move x' y') :
    Moves move
      (fun template => do
        let n ← x template
        let m ← x' template
        return n + m)
      (fun template => do
        let n ← y template
        let m ← y' template
        return n + m) :=
  hx.bind fun n => hx'.bind fun m => same (pure (n + m))

theorem sumOver {run run' : String → α → Render Nat}
    (hrun : ∀ a, Moves move (fun template => run template a) fun template => run' template a) (as : List α) :
    Moves move (fun template => Render.sumOver (run template) as)
      fun template => Render.sumOver (run' template) as := by
  induction as with
  | nil => exact same (pure 0)
  | cons a as ih => exact (hrun a).add ih

end Moves

section Pages

variable {scene : Scene} {body? : Option (Render Unit)} (move : Position → Position)

theorem orFault_moves {α : Type} (pos : Position) (v : Except Fault α) :
    Moves move (fun template => orFault ⟨scene, template, body?⟩ pos v)
      fun template => orFault ⟨scene, template, body?⟩ (move pos) v := by
  cases v with
  | ok a => exact .same (pure a)
  | error f => exact .fault pos f

/-- Moving the nodes of a page moves the faults of its own. -/
theorem runPage_moves (page : Page) (locals : Locals) :
    Moves move (fun template => runPage ⟨scene, template, body?⟩ page locals)
      fun template => runPage ⟨scene, template, body?⟩ (page.mapPos move) locals := by
  induction page generalizing locals with
  | done => exact .same (pure 0)
  | text content rest ih => exact (Moves.same (writeText content)).bind fun _ => ih locals
  | echo e escaped pos rest ih =>
    have hecho : Moves move (fun template => echo ⟨scene, template, body?⟩ locals e escaped pos)
        fun template => echo ⟨scene, template, body?⟩ locals e escaped (move pos) :=
      .withBag fun bag => (orFault_moves move pos (echoed scene.model locals bag e escaped)).bind fun text =>
        .same (writeText text)
    exact hecho.bind fun _ => ih locals
  | renderBody pos rest ih =>
    have hbody : Moves move (fun template => renderBody ⟨scene, template, body?⟩ pos)
        fun template => renderBody ⟨scene, template, body?⟩ (move pos) := by
      unfold renderBody
      cases body? with
      | none => exact .fault pos .bodyOutsideLayout
      | some body => exact .same body
    exact hbody.bind fun _ => (ih locals).bind fun n => .same (pure (1 + n))
  | partialView name pos rest ih =>
    have hview : Moves move (fun template => partialView ⟨scene, template, body?⟩ name pos)
        fun template => partialView ⟨scene, template, body?⟩ name (move pos) := by
      unfold partialView
      dsimp only
      cases scene.deeper? with
      | none => exact .fault pos (.tooDeep scene.maxDepth name)
      | some render => exact .same (do checkCancelled scene.heedsFlag; render name)
    exact hview.bind fun _ => ih locals
  | set key value rest ih =>
    exact (Moves.same (set ⟨scene, "", body?⟩ locals key value)).bind fun _ => ih locals
  | cond e yes no rest ihyes ihno ih =>
    refine (Moves.same (test ⟨scene, "", body?⟩ locals e)).bind fun b => ?_
    cases b with
    | true => exact (ihyes locals).add (ih locals)
    | false => exact (ihno locals).add (ih locals)
  | each source binding body pos rest ihbody ih =>
    have hitems : Moves move (fun template => items ⟨scene, template, body?⟩ locals source pos)
        fun template => items ⟨scene, template, body?⟩ locals source (move pos) :=
      .withBag fun bag => orFault_moves move pos (loopItems scene.model locals bag source)
    simp only [Page.mapPos, runPage_each]
    exact hitems.bind fun items =>
      (Moves.sumOver (fun item => ihbody ((binding, item) :: locals)) items).add (ih locals)

end Pages

/-- From a state a page ends so and leaves the other state, whatever its name is. -/
def Ends (scene : Scene) (body? : Option (Render Unit)) (page : Page) (locals : Locals) (st : State)
    (e : Ended Nat) (st' : State) : Prop :=
  ∀ template, ending (runPage ⟨scene, template, body?⟩ page locals) st = (e.result template, st')

section Seams

variable {scene : Scene} {body? : Option (Render Unit)}

/-- A page ends somehow, and with its nodes moved it ends so but for where its own faults are. -/
theorem ends_mapPos (move : Position → Position) (page : Page) (locals : Locals) (st : State) :
    ∃ e st', Ends scene body? page locals st e st' ∧
      Ends scene body? (page.mapPos move) locals st (e.mapPos move) st' := by
  obtain ⟨e, st', hend⟩ := runPage_moves move page locals st
  exact ⟨e, st', fun template => (hend template).1, fun template => (hend template).2⟩

theorem exists_ends (scene : Scene) (body? : Option (Render Unit)) (page : Page) (locals : Locals) (st : State) :
    ∃ e st', Ends scene body? page locals st e st' := by
  obtain ⟨e, st', hend, -⟩ := ends_mapPos id page locals st
  exact ⟨e, st', hend⟩

theorem Ends.unique {page : Page} {locals : Locals} {st st' st'' : State} {e e' : Ended Nat}
    (h : Ends scene body? page locals st e st') (h' : Ends scene body? page locals st e' st'') :
    e = e' ∧ st' = st'' := by
  have hsame := fun template => (h template).symm.trans (h' template)
  exact ⟨Ended.eq_of_results fun template => congrArg Prod.fst (hsame template), congrArg Prod.snd (hsame "")⟩

variable (cx : PageContext) (hdeeper : cx.scene.Unchunked)
  (hbody : ∀ body ∈ cx.body?, Respects (State.Rechunked cx.scene.heedsFlag) body)
include hdeeper hbody

/-- Joined pages do what the two do one after the other, in other chunks at most. -/
theorem runPage_joins {p q page : Page} (h : p.Joins q page) (locals : Locals) :
    Matches (State.Rechunked cx.scene.heedsFlag) id
      (do
        let n ← runPage cx p locals
        let m ← runPage cx q locals
        return n + m)
      (runPage cx page locals) := by
  have hpage : ∀ part, Matches (State.Rechunked cx.scene.heedsFlag) id (runPage cx part locals)
      (runPage cx part locals) := fun part => (runPage_rechunked hdeeper hbody part locals).matches id
  cases h with
  | apart =>
    rw [runPage_append]
    exact add_matches (hpage p) (hpage q)
  | @merged p q content content' =>
    have hparts : (do
          let n ← runPage cx (p ++ .text content .done) locals
          let m ← runPage cx (.text content' q) locals
          return n + m) = (do
        let n ← runPage cx p locals
        writeText content
        writeText content'
        let m ← runPage cx q locals
        return n + m) := by
      simp only [runPage_append, runPage, bind_assoc, pure_bind, Nat.add_zero]
    have hwhole : runPage cx (p ++ .text (content ++ content') q) locals = (do
        let n ← runPage cx p locals
        writeText (content ++ content')
        let m ← runPage cx q locals
        return n + m) := by
      simp only [runPage_append, runPage, bind_assoc]
    rw [hparts, hwhole]
    refine (hpage p).bind fun n => ?_
    have htexts := (writeText_append cx.scene.heedsFlag content content').bind fun _ =>
      (hpage q).bind fun m => .pure (n + m)
    simpa only [bind_assoc] using htexts

end Seams

/-- If two sources compile, and the first one ends in neither an opening brace nor a backslash, then the first one
with the second one behind it compiles.  On a sink that takes what it is offered and leaves the cancel flag alone,
and with partial views and wrapped content that make nothing of chunks, its page ends as the page of the first
source does, or, where that is done, as the page of the second one does from there, with faults of its own moved
by what the first source takes up; it leaves the same bag and the same text. -/
theorem runPage_joined {s t : String} {p q : Page} (hs : parse s = .ok p) (ht : parse t = .ok q)
    (hbrace : s.toList.getLast? ≠ some '{') (hslash : s.toList.getLast? ≠ some '\\') :
    ∃ page, parse (s ++ t) = .ok page ∧
      ∀ (scene : Scene) (body? : Option (Render Unit)) (locals : Locals) (st : State), scene.Unchunked →
        (∀ body ∈ body?, Respects (State.Rechunked scene.heedsFlag) body) →
        st.out.sink.Steady scene.heedsFlag →
          ∃ e mid e' st', Ends scene body? p locals st e mid ∧ Ends scene body? page locals st e' st' ∧
            match e with
            | .done n => ∃ e₂ st₂, Ends scene body? q locals mid e₂ st₂ ∧
                e' = (e₂.mapPos (Position.moved s.toList)).plus n ∧ st₂.Rechunked scene.heedsFlag st'
            | e => e' = e ∧ mid.Rechunked scene.heedsFlag st' := by
  obtain ⟨page, hpage, hjoins⟩ := Template.parse_append hs ht hbrace hslash
  refine ⟨page, hpage, fun scene body? locals st hdeeper hbody hsteady => ?_⟩
  obtain ⟨e, mid, hfirst⟩ := exists_ends scene body? p locals st
  obtain ⟨e', st', hwhole⟩ := exists_ends scene body? page locals st
  refine ⟨e, mid, e', st', hfirst, hwhole, ?_⟩
  -- under every name, joining gives one result and states that differ by chunks
  have hseam : ∀ (e'' : Ended Nat) (st'' : State), (∀ template, ending (do
        let n ← runPage ⟨scene, template, body?⟩ p locals
        let m ← runPage ⟨scene, template, body?⟩ (q.mapPos (Position.moved s.toList)) locals
        return n + m) st = (e''.result template, st'')) →
      e' = e'' ∧ st''.Rechunked scene.heedsFlag st' := by
    intro e'' st'' hparts
    have hmatches : ∀ template, _ := fun template =>
      runPage_joins ⟨scene, template, body?⟩ hdeeper hbody hjoins locals
    refine ⟨Ended.eq_of_results fun template => ?_, ?_⟩
    · have hresult := (hmatches template).result_eq (.refl hsteady)
      rw [hparts template, hwhole template] at hresult
      exact hresult.symm
    · have hstates := (hmatches "" st st (.refl hsteady)).2
      rw [hparts "", hwhole ""] at hstates
      exact hstates
  cases e with
  | done n =>
    obtain ⟨e₂, st₂, hsecond, hmoved⟩ := ends_mapPos (Position.moved s.toList) q locals mid
    refine ⟨e₂, st₂, hsecond, hseam _ st₂ fun template => ?_⟩
    rw [ending_bind_ok (hfirst template)]
    cases e₂ with
    | done m => rw [ending_bind_ok (hmoved template)]; rfl
    | _ => exact ending_bind_error (hmoved template) _
  | fault pos f => exact hseam _ mid fun template => ending_bind_error (hfirst template) _
  | passedOn error => exact hseam _ mid fun template => ending_bind_error (hfirst template) _

/-- A fault of the second source on its first line, behind text on the second line of the first one. -/
theorem runPage_joined_of_fault :
    let first := "one\ntwo"
    let second := " \x7b\x7b model.n \x7d\x7d"
    let st : State := { blank with out := .on .accepting 3 }
    ∃ page st', parse (first ++ second) = .ok page ∧
      Ends onePartial.scene none page [] st (.fault ⟨2, 5⟩ (.undefinedValue "model.n")) st' ∧
        st'.out.text = "one\ntwo " := by
  intro first second st
  have hfirst : parse first = .ok (.text "one\ntwo" .done) := by decide +kernel
  have hsecond : parse second =
      .ok (.text " " (.echo ⟨.model, ["n"], "model.n"⟩ true ⟨1, 2⟩ .done)) := by decide +kernel
  obtain ⟨page, hpage, hruns⟩ := runPage_joined hfirst hsecond (by decide) (by decide)
  obtain ⟨e, mid, e', st', hp, hwhole, hend⟩ :=
    hruns onePartial.scene none [] st onePartial.scene_unchunked (by simp)
      ⟨⟨fun _ => rfl, rfl⟩, fun _ _ => rfl⟩
  let middle : State := { st with out := (ending (Output.write first) st.out).2 }
  have hdone : Ends onePartial.scene none (.text first .done) [] st (.done 0) middle := fun _ => rfl
  obtain ⟨rfl, rfl⟩ := hp.unique hdone
  obtain ⟨e₂, st₂, hq, rfl, hst⟩ := hend
  let last : State := { middle with out := (ending (Output.write " ") middle.out).2 }
  have hfault : Ends onePartial.scene none (.text " " (.echo ⟨.model, ["n"], "model.n"⟩ true ⟨1, 2⟩ .done)) []
      middle (.fault ⟨1, 2⟩ (.undefinedValue "model.n")) last := fun _ => rfl
  obtain ⟨rfl, rfl⟩ := hq.unique hfault
  have hplace : Position.moved first.toList ⟨1, 2⟩ = ⟨2, 5⟩ := by decide +kernel
  have hwhole : Ends onePartial.scene none page [] st
      (.fault (Position.moved first.toList ⟨1, 2⟩) (.undefinedValue "model.n")) st' := hwhole
  rw [hplace] at hwhole
  have htext : last.out.text = "one\ntwo " := by decide +kernel
  exact ⟨page, st', hpage, hwhole, hst.1.text_eq.symm.trans htext⟩

end Render

end LayeredViews
