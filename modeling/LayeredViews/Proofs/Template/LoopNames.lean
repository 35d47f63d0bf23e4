import LayeredViews.Proofs.Template.OpenBlocks

/-!
# Loop names — which loop variables a tag can echo

A loop takes every identifier for its variable but `model` and `bag`, and only such names are ever in scope
(`exists_scope_iff`).  The words that start a directive are among them, but the first word of a tag is taken for a
directive before it is taken for a variable.  So a tag that consists of the name of a variable in scope is an echo
of this variable exactly if the name is none of these words (`echoes_loopVariable_iff`).
-/

namespace LayeredViews.Template

open Text (Position isBlank trim)

/-- A name that a loop takes for its variable. -/
structure LoopName (name : String) : Prop where
  identifier : Identifier name.toList
  notModel : name ≠ "model"
  notBag : name ≠ "bag"

/-- The expression that is the variable of a loop. -/
def Expr.loopVariable (name : String) : Expr := ⟨.loop name, [], name⟩

/-! ### Tags that consist of a name -/

section Names

variable {scope : List String} {name word : String} {cs : List Char} {e : Expr}

theorem Identifier.unbroken (h : Identifier cs) : ∀ c ∈ cs, isBlank c = false := by
  intro c hc
  rcases h.2 c hc with halphanum | rfl
  · exact Text.isBlank_of_isAlphanum halphanum
  · decide

theorem LoopName.spelled (h : LoopName name) (hscope : name ∈ scope) :
    (Expr.loopVariable name).Spelled scope name.toList := by
  have hname : String.ofList name.toList = name := String.ofList_toList
  have hidentifiers : ∀ w ∈ [name.toList], Identifier w := fun w hw => List.mem_singleton.mp hw ▸ h.identifier
  have hrooted : Rooted scope (String.ofList name.toList) (.loop name) := by
    rw [hname]
    exact .loop hscope h.notModel h.notBag
  have hsegments : Expr.Spelled scope name.toList ⟨.loop name, [], String.ofList name.toList⟩ :=
    .segments hidentifiers hrooted
  rwa [hname] at hsegments

/-- A name that starts no directive says the echo of the variable. -/
theorem LoopName.says_echo (h : LoopName name) (hscope : name ∈ scope) (hfree : name ∉ directives) :
    Tag.Says scope name.toList (.echo (.loopVariable name) true) := by
  have hname : String.ofList name.toList = name := String.ofList_toList
  have hheads : Heads (String.ofList name.toList) name.toList [] := by
    rw [hname]
    exact .alone
  exact .echo hheads (hname.symm ▸ hfree) (h.spelled hscope)

/-- The variable that a tag gives a loop is a name that a loop takes. -/
theorem Tag.Says.loopName (h : Tag.Says scope cs (.openEach e name)) : LoopName name := by
  cases h with
  | @openEach _ _ inner _ _ _ _ _ _ key notModel notBag _ =>
    have hinner : (String.ofList (trim inner)).toList = trim inner := String.toList_ofList
    refine ⟨hinner.symm ▸ key, ?_, ?_⟩
    · intro hmodel
      exact notModel (hinner ▸ congrArg String.toList hmodel)
    · intro hbag
      exact notBag (hinner ▸ congrArg String.toList hbag)

/-- A loop over the model is opened by a tag that gives it this variable. -/
theorem LoopName.says_each (h : LoopName name) :
    Tag.Says scope ("each model|" ++ name ++ "|").toList (.openEach ⟨.model, [], "model"⟩ name) := by
  have hunbroken := h.identifier.unbroken
  have hbar : '|' ∉ name.toList := by
    intro hmem
    rcases h.identifier.2 '|' hmem with h | h <;> cases h
  have hroot : Identifier "model".toList := isIdentifier_iff.mp rfl
  have hname : trim name.toList = name.toList := Text.trim_of_unbroken hunbroken
  have hrest : trim ("model".toList ++ '|' :: (name.toList ++ ['|'])) =
      "model".toList ++ '|' :: (name.toList ++ ['|']) := by
    apply Text.trim_of_unbroken
    simp only [List.forall_mem_append, List.forall_mem_cons]
    exact ⟨hroot.unbroken, by decide, hunbroken, by decide, by simp⟩
  have hheads : Heads "each" ("each model|" ++ name ++ "|").toList
      ("model".toList ++ '|' :: (name.toList ++ ['|'])) := by
    have hblank : Heads "each" ("each".toList ++ ' ' :: ("model".toList ++ '|' :: (name.toList ++ ['|']))) _ :=
      .blank (by decide)
    rw [hrest] at hblank
    simpa using hblank
  have hmodel : Expr.Spelled scope (trim "model".toList) ⟨.model, [], "model"⟩ :=
    Expr.read_iff.mp rfl
  have hsays := Tag.Says.openEach hheads (by decide) hbar (by simp) (hname.symm ▸ h.identifier)
    (fun heq => h.notModel (String.toList_inj.mp (hname ▸ heq)))
    (fun heq => h.notBag (String.toList_inj.mp (hname ▸ heq))) hmodel
  rwa [hname, String.ofList_toList] at hsays

/-- A word alone is an echo only if it starts no directive. -/
theorem Tag.Says.free (hword : ∀ c ∈ word.toList, isBlank c = false)
    (h : Tag.Says scope word.toList (.echo e true)) : word ∉ directives := by
  generalize hbody : word.toList = body at h
  cases h with
  | @echo _ cs _ heads free _ =>
    generalize hrest : [] = rest at heads
    cases heads with
    | alone =>
      rw [String.toList_inj] at hbody
      exact hbody ▸ free
    | @blank c more hblank =>
      have hc : c ∈ word.toList := by simp [hbody]
      rw [hword c hc] at hblank
      cases hblank

end Names

namespace Parser

variable {p q : Parser} {body name : String} {pos : Position}

/-- The only tag that adds an encoded echo is that echo. -/
theorem apply_eq_add_echo {t : Tag} {e : Expr} (h : p.apply pos t = .ok (p.add (.echo e true pos .done))) :
    t = .echo e true := by
  have hpieces : ∀ {more : Page}, p.add more ≠ p := by
    intro more hsame
    have hdraft : more :: p.draft.pieces = p.draft.pieces := congrArg (·.draft.pieces) hsame
    exact List.cons_ne_self _ _ hdraft
  have hadd : ∀ {more : Page}, p.add more = p.add (.echo e true pos .done) → more = .echo e true pos .done := by
    intro more hsame
    have hdraft : more :: p.draft.pieces = .echo e true pos .done :: p.draft.pieces :=
      congrArg (·.draft.pieces) hsame
    exact (List.cons_eq_cons.mp hdraft).1
  cases t with
  | comment => exact absurd (Except.ok.inj h).symm hpieces
  | echo e' escaped =>
    cases hadd (Except.ok.inj h)
    rfl
  | renderBody => cases hadd (Except.ok.inj h)
  | partialView name => cases hadd (Except.ok.inj h)
  | set key value => cases hadd (Except.ok.inj h)
  | openCond test =>
    have hframes := congrArg Parser.frames (Except.ok.inj h)
    exact absurd hframes (List.cons_ne_self _ _)
  | openEach source binding =>
    have hframes := congrArg Parser.frames (Except.ok.inj h)
    exact absurd hframes (List.cons_ne_self _ _)
  | otherwise =>
    obtain ⟨test, opened, outer, frames, hframes, hq⟩ := otherwise_ok h
    have hsame : p.frames = ⟨.cond test (some p.page), opened, outer⟩ :: frames := congrArg Parser.frames hq
    rw [hframes] at hsame
    cases hsame
  | close kind =>
    obtain ⟨f, frames, hframes, -, hq⟩ := close_ok h
    have hsame : p.frames = frames := congrArg Parser.frames hq
    rw [hframes] at hsame
    exact absurd hsame (List.cons_ne_self _ _)

/-! ### Names in scope -/

/-- A tag that is taken brings no other names into scope than such as a loop takes. -/
theorem scope_of_ok (h : p.tag body pos = .ok q) : ∀ name ∈ q.scope, name ∈ p.scope ∨ LoopName name := by
  obtain ⟨t, hsays, happly⟩ := tag_ok_iff.mp h
  have hstep := frameStep_of_ok happly
  intro name hname
  obtain ⟨f, hf, hbinding⟩ := List.mem_filterMap.mp hname
  have houter : f ∈ p.frames → name ∈ p.scope := fun hmem => List.mem_filterMap.mpr ⟨f, hmem, hbinding⟩
  generalize q.frames = frames at hstep hf
  cases hstep with
  | same => exact Or.inl (houter hf)
  | opened _ binding =>
    rcases List.mem_cons.mp hf with rfl | hf
    · obtain ⟨source, rfl⟩ := binding name hbinding
      exact Or.inr hsays.loopName
    · exact Or.inl (houter hf)
  | turned top =>
    rcases List.mem_cons.mp hf with rfl | hf
    · cases hbinding
    · exact Or.inl (houter (top ▸ List.mem_cons_of_mem _ hf))
  | closed top => exact Or.inl (houter (top ▸ List.mem_cons_of_mem _ hf))

/-- Only names that a loop takes are ever in scope. -/
theorem scope_after {us : List Token} (h : name ∈ (start.after us).scope) : LoopName name := by
  induction us using List.reverseRecOn with
  | nil => cases h
  | append_singleton us t ih =>
    rw [after_concat] at h
    cases t with
    | text content => exact ih h
    | tag body pos =>
      cases htag : (start.after us).tag body pos with
      | error e =>
        rw [token_of_error htag] at h
        exact ih h
      | ok q =>
        rw [token_of_ok htag] at h
        exact (scope_of_ok htag name h).elim ih id

/-- A loop over the model takes the name for its variable. -/
theorem scope_of_loopName (h : LoopName name) :
    (start.after [.tag ("each model|" ++ name ++ "|") ⟨1, 1⟩]).scope = [name] := by
  have htag : start.tag ("each model|" ++ name ++ "|") ⟨1, 1⟩ =
      .ok (start.push (.each ⟨.model, [], "model"⟩ name) ⟨1, 1⟩) :=
    tag_ok_iff.mpr ⟨_, h.says_each, rfl⟩
  rw [after_cons, token_of_ok htag]
  rfl

/-- The names that are in scope behind some tokens are those that a loop takes. -/
theorem exists_scope_iff : (∃ us, name ∈ (start.after us).scope) ↔ LoopName name := by
  constructor
  · rintro ⟨us, h⟩
    exact scope_after h
  · intro h
    exact ⟨_, scope_of_loopName h ▸ List.mem_singleton_self name⟩

end Parser

/-- A loop takes every identifier but `model` and `bag` for its variable.  At any place of a source, the tag that
consists of the name of a variable in scope is taken as the encoded echo of the variable, without a diagnostic,
exactly if the name starts no directive. -/
theorem echoes_loopVariable_iff (name : String) :
    ((∃ us, name ∈ (Parser.start.after us).scope) ↔ LoopName name) ∧
    ∀ us pos, name ∈ (Parser.start.after us).scope →
      ((Parser.start.after us).token (.tag name pos) =
        ((Parser.start.after us).add (.echo (.loopVariable name) true pos .done), none) ↔ name ∉ directives) := by
  refine ⟨Parser.exists_scope_iff, fun us pos hscope => ?_⟩
  have hname := Parser.scope_after hscope
  generalize Parser.start.after us = p at hscope ⊢
  constructor
  · intro htoken
    cases htag : p.tag name pos with
    | error e =>
      rw [Parser.token_of_error htag] at htoken
      cases congrArg Prod.snd htoken
    | ok q =>
      rw [Parser.token_of_ok htag] at htoken
      obtain rfl : q = _ := congrArg Prod.fst htoken
      obtain ⟨t, hsays, happly⟩ := Parser.tag_ok_iff.mp htag
      obtain rfl := Parser.apply_eq_add_echo happly
      exact hsays.free hname.identifier.unbroken
  · intro hfree
    exact Parser.token_of_ok (Parser.tag_ok_iff.mpr ⟨_, hname.says_echo hscope hfree, rfl⟩)

/-- The tag `raw` in a loop whose variable has this name is no echo of the variable. -/
theorem raw_echoes_no_loopVariable :
    let us : List Token := [.tag "each model.items |raw|" ⟨1, 1⟩]
    "raw" ∈ (Parser.start.after us).scope ∧
      (Parser.start.after us).token (.tag "raw" ⟨1, 29⟩) ≠
        ((Parser.start.after us).add (.echo (.loopVariable "raw") true ⟨1, 29⟩ .done), none) := by
  have hscope : "raw" ∈ (Parser.start.after [.tag "each model.items |raw|" ⟨1, 1⟩]).scope := by decide
  exact ⟨hscope, fun h => ((echoes_loopVariable_iff "raw").2 _ _ hscope).mp h (by decide)⟩

end LayeredViews.Template
