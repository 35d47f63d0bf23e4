import LayeredViews.Proofs.Render.Inlining
import LayeredViews.Proofs.Render.Telling

/-!
# Depth — partial views inside of one another

Views may ask for each other, and for themselves, as partial views in any cycle.  A render ends all the same:
the depth goes up by one with each partial view, and at the limit of the settings there is none.
`unrolled_eq_sceneAt` says that a session never looks further than that into what partial views ask for, and
`run_within_depth` which depths the pages of a render start at, and what a partial view does at the limit and
below it.
-/

namespace LayeredViews

open Template (Page)

/-! ### Depths told of -/

/-- Tells of no page that starts, unless at one of these depths. -/
def Event.StartsIn (least most : Nat) (e : Event) : Prop :=
  ∀ template depth, e = .started template depth → least ≤ depth ∧ depth ≤ most

/-- Tells of no page that starts. -/
def Event.Quiet (e : Event) : Prop :=
  ∀ template depth, e ≠ .started template depth

theorem Event.Quiet.startsIn {e : Event} (h : e.Quiet) (least most : Nat) : e.StartsIn least most :=
  fun template depth he => absurd he (h template depth)

theorem Event.StartsIn.mono {e : Event} {least least' most : Nat} (h : e.StartsIn least' most)
    (hle : least ≤ least') : e.StartsIn least most :=
  fun template depth he => ⟨hle.trans (h template depth he).1, (h template depth he).2⟩

theorem Event.Prepares.quiet {A : Address → Prop} {e : Event} (h : e.Prepares A) : e.Quiet := by
  intro template depth he
  subst he
  cases h

namespace Session

variable (s : Session)

theorem partialLayers_quiet (name : String) : Tells State.journal Event.Quiet (s.partialLayers name) :=
  (s.partialLayers_tells name).imp fun _ => Event.Prepares.quiet

theorem prepare_quiet : Tells State.journal Event.Quiet s.prepare :=
  s.prepare_tells.imp fun _ => Event.Prepares.quiet

/-! ### Pages at their depths -/

theorem startsIn_tale : s.Tale fun depth => Event.StartsIn depth s.settings.maxPartialDepth where
  prepares depth _ he := he.quiet.startsIn depth _
  started template depth hdepth template' depth' he := by
    obtain ⟨-, rfl⟩ := Event.started.inj he
    exact ⟨le_refl _, hdepth⟩
  refused _ := nofun
  deeper he := he.mono (Nat.le_succ _)

theorem startsIn_closedOn :
    Render.ClosedOn s (fun _ _ => True) fun _ depth =>
      Tells State.journal (Event.StartsIn depth s.settings.maxPartialDepth) :=
  s.startsIn_tale.closedOn

theorem run_startsIn : Tells State.journal (Event.StartsIn 0 s.settings.maxPartialDepth) s.run :=
  s.startsIn_tale.run

/-! ### The depth limit -/

/-- The scene as the depth alone has it, with something for partial views to do below the limit. -/
def sceneWith (depth : Nat) (nested : String → Render Unit) : Scene :=
  ⟨s.model, depth, s.settings.maxPartialDepth, s.heedsFlag,
    if depth < s.settings.maxPartialDepth then some nested else none⟩

/-- The scene at a depth with partial views inside of partial views looked into `calls` deep; what they would
do further in is `stuck`. -/
def unrolled (stuck : String → Render Unit) : (calls : Nat) → (depth : Nat) → Scene
  | 0, depth => s.sceneWith depth stuck
  | calls + 1, depth => s.sceneWith depth fun name => do
    Render.checkCancelled s.heedsFlag
    let layers ← s.partialLayers name
    Render.runLayers (unrolled stuck calls (depth + 1)) layers

/-- Looked into as far as the limit leaves room, a scene does not depend on what comes further in. -/
theorem unrolled_eq_sceneAt (stuck : String → Render Unit) {calls depth : Nat}
    (hdepth : depth ≤ s.settings.maxPartialDepth) (hcalls : s.settings.maxPartialDepth ≤ depth + calls) :
    s.unrolled stuck calls depth = s.sceneAt depth (s.settings.maxPartialDepth - depth) := by
  induction calls generalizing depth with
  | zero =>
    have hlimit : depth = s.settings.maxPartialDepth := by omega
    unfold unrolled sceneWith
    rw [if_neg (by omega), hlimit, Nat.sub_self]
    rfl
  | succ calls ih =>
    unfold unrolled sceneWith
    by_cases hlimit : depth = s.settings.maxPartialDepth
    · rw [if_neg (by omega), hlimit, Nat.sub_self]
      rfl
    · have hlevels : s.settings.maxPartialDepth - depth = s.settings.maxPartialDepth - (depth + 1) + 1 := by
        omega
      rw [if_pos (by omega), hlevels, sceneAt_succ]
      have hdeeper := @ih (depth + 1) (by omega) (by omega)
      simp only [hdeeper]

section Contexts

variable {depth : Nat} (template : String) (body? : Option (Render Unit)) (name : String)
  (pos : Text.Position)

/-- At the limit a partial view fails at its tag, and nothing else happens. -/
theorem partialView_at_limit (st : State) :
    ending (Render.partialView ⟨s.sceneAt depth 0, template, body?⟩ name pos) st =
      (.error (.runtime template pos (.tooDeep s.settings.maxPartialDepth name)), st) :=
  rfl

/-- Below the limit a partial view runs its layers one level deeper. -/
theorem partialView_below_limit (hdepth : depth < s.settings.maxPartialDepth) :
    Render.partialView ⟨s.sceneAt depth (s.settings.maxPartialDepth - depth), template, body?⟩ name pos = (do
      Render.checkCancelled s.heedsFlag
      Render.checkCancelled s.heedsFlag
      let layers ← s.partialLayers name
      Render.runLayers (s.sceneAt (depth + 1) (s.settings.maxPartialDepth - (depth + 1))) layers) := by
  have hlevels : s.settings.maxPartialDepth - depth = s.settings.maxPartialDepth - (depth + 1) + 1 := by
    omega
  rw [hlevels, sceneAt_succ]
  rfl

theorem partialView_startsIn (hdepth : depth < s.settings.maxPartialDepth) :
    let scene := s.sceneAt depth (s.settings.maxPartialDepth - depth)
    Tells State.journal (Event.StartsIn (depth + 1) s.settings.maxPartialDepth)
      (Render.partialView ⟨scene, template, body?⟩ name pos) := by
  intro scene
  have hcheck := s.startsIn_closedOn.check [] (depth + 1)
  rw [s.partialView_below_limit template body? name pos hdepth]
  refine hcheck.bind fun _ => hcheck.bind fun _ => ?_
  refine ((s.partialLayers_quiet name).imp fun e he => he.startsIn _ _).bind fun layers => ?_
  exact s.startsIn_tale.layers (by omega) layers

end Contexts

/-- A render ends whatever partial views its views ask for: it never looks further into them than the limit of
the settings, and its pages start at depths up to that.  A page starts with the depth of its scene.  At the
limit a partial view fails at its tag without so much as a lookup; below it the partial view runs one level
deeper, and the page goes on where it was. -/
theorem run_within_depth (s : Session) :
    let m := s.settings.maxPartialDepth
    (∀ stuck more, s.unrolled stuck (m + more) 0 = s.scene) ∧
      Tells State.journal (Event.StartsIn 0 m) s.run ∧
      ∀ depth ≤ m, ∀ template body? name pos,
        let cx : PageContext := ⟨s.sceneAt depth (m - depth), template, body?⟩
        cx.scene.depth = depth ∧
          (depth = m → ∀ st, ending (Render.partialView cx name pos) st =
            (.error (.runtime template pos (.tooDeep m name)), st)) ∧
          (depth < m →
            (Render.partialView cx name pos = do
              Render.checkCancelled s.heedsFlag
              Render.checkCancelled s.heedsFlag
              let layers ← s.partialLayers name
              Render.runLayers (s.sceneAt (depth + 1) (m - (depth + 1))) layers) ∧
            Tells State.journal (Event.StartsIn (depth + 1) m) (Render.partialView cx name pos)) ∧
          ∀ before after locals, Render.runPage cx (before ++ .partialView name pos after) locals = (do
            let n ← Render.runPage cx before locals
            Render.partialView cx name pos
            let k ← Render.runPage cx after locals
            return n + k) := by
  intro m
  refine ⟨fun stuck more => ?_, s.run_startsIn, fun depth hdepth template body? name pos => ?_⟩
  · have hunrolled := s.unrolled_eq_sceneAt stuck (Nat.zero_le m) (show m ≤ 0 + (m + more) by omega)
    rw [hunrolled, Nat.sub_zero]
    rfl
  intro cx
  have hscene := s.startsIn_closedOn.sceneAt (m - depth) depth (by omega)
  refine ⟨hscene.depth_eq, fun hlimit st => ?_, fun hbelow => ?_, fun before after locals => ?_⟩
  · subst hlimit
    show ending (Render.partialView ⟨s.sceneAt m (m - m), template, body?⟩ name pos) st = _
    rw [Nat.sub_self]
    exact s.partialView_at_limit template body? name pos st
  · exact ⟨s.partialView_below_limit template body? name pos hbelow,
      s.partialView_startsIn template body? name pos hbelow⟩
  · rw [Render.runPage_append]
    simp only [Render.runPage, bind_assoc]

/-- Renders a page that asks for itself as a partial view, twice. -/
def selfIncluding : Session where
  catalog :=
    { locate := fun _ a => .ok (
        if a = ⟨"", "page"⟩ then
          some ⟨a, "html", .text "a\x7b\x7b partial \"page\" \x7d\x7d\x7b\x7b partial \"page\" \x7d\x7d"⟩
        else none)
      list := fun _ => .ok [] }
  settings := { Settings.default with maxPartialDepth := 2, bufferLimit := 0 }
  view := "page"
  model := .obj []
  heedsFlag := true
  raises _ _ := false

example : (ending selfIncluding.run (selfIncluding.start .accepting false .empty)).1 =
    .error (.committed "page" (.runtime "page.html" ⟨1, 2⟩ (.tooDeep 2 "page"))) := by
  decide +kernel

end Session

end LayeredViews
