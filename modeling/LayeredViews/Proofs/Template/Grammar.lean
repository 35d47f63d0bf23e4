import LayeredViews.Proofs.Template.TagForms
import LayeredViews.Template.Parser

/-!
# The grammar of pages — what the parser accepts, and the page it builds

`Derives` is the grammar: blocks nest, an else stands at most once in a block of its kind, and a loop
variable is in scope exactly in the body of its block.  The parser is a machine with a stack of open
blocks; `Finishes` tells what such a stack still needs.  `parseScan_iff_derives` is the result: the parser
has nothing to say against the tokens exactly if they can be derived, and builds their page.
-/

namespace LayeredViews.Template

open Text (Position)

/-- The page of a sequence of tokens in a scope of loop variables, innermost first. -/
inductive Derives : List String → List Token → Page → Prop where
  | done {scope} : Derives scope [] .done
  | text {scope content ts page} (rest : Derives scope ts page) :
    Derives scope (.text content :: ts) (.text content page)
  | comment {scope body pos ts page} (form : Tag.Says scope body.toList .comment)
    (rest : Derives scope ts page) : Derives scope (.tag body pos :: ts) page
  | echo {scope body pos e escaped ts page} (form : Tag.Says scope body.toList (.echo e escaped))
    (rest : Derives scope ts page) :
    Derives scope (.tag body pos :: ts) (.echo e escaped pos page)
  | renderBody {scope body pos ts page} (form : Tag.Says scope body.toList .renderBody)
    (rest : Derives scope ts page) : Derives scope (.tag body pos :: ts) (.renderBody pos page)
  | partialView {scope body pos name ts page}
    (form : Tag.Says scope body.toList (.partialView name)) (rest : Derives scope ts page) :
    Derives scope (.tag body pos :: ts) (.partialView name pos page)
  | set {scope body pos key value ts page} (form : Tag.Says scope body.toList (.set key value))
    (rest : Derives scope ts page) : Derives scope (.tag body pos :: ts) (.set key value page)
  | cond {scope opening pos closing pos' test yes ts yesPage page}
    (opens : Tag.Says scope opening.toList (.openCond test)) (inner : Derives scope yes yesPage)
    (closes : Tag.Says scope closing.toList (.close .cond)) (rest : Derives scope ts page) :
    Derives scope (.tag opening pos :: yes ++ .tag closing pos' :: ts)
      (.cond test yesPage .done page)
  | condElse {scope opening pos middle pos' closing pos'' test yes no ts yesPage noPage page}
    (opens : Tag.Says scope opening.toList (.openCond test)) (inner : Derives scope yes yesPage)
    (turns : Tag.Says scope middle.toList .otherwise) (inner' : Derives scope no noPage)
    (closes : Tag.Says scope closing.toList (.close .cond)) (rest : Derives scope ts page) :
    Derives scope (.tag opening pos :: yes ++ .tag middle pos' :: no ++ .tag closing pos'' :: ts)
      (.cond test yesPage noPage page)
  | each {scope opening pos closing pos' source binding body ts bodyPage page}
    (opens : Tag.Says scope opening.toList (.openEach source binding))
    (inner : Derives (binding :: scope) body bodyPage)
    (closes : Tag.Says (binding :: scope) closing.toList (.close .each))
    (rest : Derives scope ts page) :
    Derives scope (.tag opening pos :: body ++ .tag closing pos' :: ts)
      (.each source binding bodyPage pos page)

namespace Parser

/-! ### Accepting runs -/

/-- The parser takes all tokens, rejects none, and ends as `q`. -/
def Accepts (p : Parser) (ts : List Token) (q : Parser) : Prop :=
  p.tokens ts = (q, [])

variable {p q : Parser} {ts us : List Token} {body : String} {pos : Position}

theorem accepts_nil : p.Accepts [] q ↔ p = q := by
  simp [Accepts, tokens]

theorem accepts_text {content : String} :
    p.Accepts (.text content :: ts) q ↔ (p.add (.text content .done)).Accepts ts q := by
  simp [Accepts, tokens, token, Prod.ext_iff]

/-- A tag is taken by what its body says in the scope of the open blocks. -/
theorem tag_ok_iff :
    p.tag body pos = .ok q ↔ ∃ t, t.Says p.scope body.toList ∧ p.apply pos t = .ok q := by
  unfold tag
  rcases hread : Tag.read p.scope body.toList with e | t
  · simp only [reduceCtorEq, false_iff, not_exists, not_and]
    intro t hform
    rw [Tag.read_iff.mpr hform] at hread
    cases hread
  · constructor
    · exact fun h => ⟨t, Tag.read_iff.mp hread, h⟩
    · rintro ⟨t', hform, h⟩
      rw [Tag.read_iff.mpr hform] at hread
      exact Except.ok.inj hread ▸ h

theorem accepts_tag :
    p.Accepts (.tag body pos :: ts) q ↔
      ∃ t p', t.Says p.scope body.toList ∧ p.apply pos t = .ok p' ∧ p'.Accepts ts q := by
  unfold Accepts
  constructor
  · intro h
    rcases hp : p.tag body pos with e | p'
    · simp [tokens, token, hp] at h
    · obtain ⟨t, hform, happly⟩ := tag_ok_iff.mp hp
      simp only [tokens, token, hp] at h
      exact ⟨t, p', hform, happly, by simpa [Prod.ext_iff] using h⟩
  · rintro ⟨t, p', hform, happly, h⟩
    simp [tokens, token, tag_ok_iff.mpr ⟨t, hform, happly⟩, h]

theorem Accepts.append {r : Parser} (h : p.Accepts ts q) (h' : q.Accepts us r) :
    p.Accepts (ts ++ us) r := by
  induction ts generalizing p with
  | nil => rwa [accepts_nil.mp h]
  | cons t ts ih =>
    cases t with
    | text content => exact accepts_text.mpr (ih (accepts_text.mp h))
    | tag body pos =>
      obtain ⟨t, p', hform, happly, hrest⟩ := accepts_tag.mp h
      exact accepts_tag.mpr ⟨t, p', hform, happly, ih hrest⟩

theorem Accepts.split {r : Parser} (h : p.Accepts (ts ++ us) r) : ∃ q, p.Accepts ts q ∧ q.Accepts us r := by
  induction ts generalizing p with
  | nil => exact ⟨p, accepts_nil.mpr rfl, h⟩
  | cons t ts ih =>
    cases t with
    | text content =>
      obtain ⟨q, hfirst, hrest⟩ := ih (accepts_text.mp h)
      exact ⟨q, accepts_text.mpr hfirst, hrest⟩
    | tag body pos =>
      obtain ⟨t, p', hform, happly, hmore⟩ := accepts_tag.mp h
      obtain ⟨q, hfirst, hrest⟩ := ih hmore
      exact ⟨q, accepts_tag.mpr ⟨t, p', hform, happly, hfirst⟩, hrest⟩

/-! ### Derivable tokens are accepted -/

/-- The parser takes all tokens, adds a page for them, and has the same blocks open as before. -/
def Builds (p : Parser) (ts : List Token) (page : Page) : Prop :=
  ∃ q, p.Accepts ts q ∧ q.frames = p.frames ∧ q.page = p.page ++ page

theorem page_add (p : Parser) (more : Page) : (p.add more).page = p.page ++ more :=
  p.draft.page_add more

theorem scope_push (p : Parser) (block : Block) (pos : Position) :
    (p.push block pos).scope = block.binding?.toList ++ p.scope := by
  cases block <;> rfl

theorem builds_nil (p : Parser) : p.Builds [] .done :=
  ⟨p, accepts_nil.mpr rfl, rfl, (Page.append_done _).symm⟩

/-- A tag that stands for a node adds it in front of what follows. -/
theorem Builds.node {t : Tag} {node page : Page} (form : t.Says p.scope body.toList)
    (happly : p.apply pos t = .ok (p.add node)) (h : (p.add node).Builds ts page) :
    p.Builds (.tag body pos :: ts) (node ++ page) := by
  obtain ⟨q, haccepts, hframes, hpage⟩ := h
  refine ⟨q, accepts_tag.mpr ⟨t, _, form, happly, haccepts⟩, hframes, ?_⟩
  rw [hpage, page_add, Page.append_assoc]

/-- Tags around what is built inside a block put the block in front of what follows. -/
theorem Builds.block {opening closing : String} {pos' : Position} {t : Tag} {block : Block}
    {kind : BlockKind} {node page : Page} (opens : t.Says p.scope opening.toList)
    (happly : p.apply pos t = .ok (p.push block pos)) (hinner : (p.push block pos).Accepts us q)
    (closes : Tag.Says q.scope closing.toList (.close kind))
    (hclose : q.close kind = .ok (p.add node)) (h : (p.add node).Builds ts page) :
    p.Builds (.tag opening pos :: us ++ .tag closing pos' :: ts) (node ++ page) := by
  obtain ⟨r, haccepts, hframes, hpage⟩ := h
  have hrest : q.Accepts (.tag closing pos' :: ts) r :=
    accepts_tag.mpr ⟨.close kind, _, closes, hclose, haccepts⟩
  refine ⟨r, accepts_tag.mpr ⟨t, _, opens, happly, hinner.append hrest⟩, hframes, ?_⟩
  rw [hpage, page_add, Page.append_assoc]

/-- What is built from an empty page inside a block is the page that the block then has. -/
theorem Builds.inner {f : Frame} {frames : List Frame} {page : Page}
    (h : Builds ⟨f :: frames, .empty⟩ ts page) :
    ∃ draft, Accepts ⟨f :: frames, .empty⟩ ts ⟨f :: frames, draft⟩ ∧ draft.page = page := by
  obtain ⟨⟨_, draft⟩, haccepts, rfl, hpage⟩ := h
  exact ⟨draft, haccepts, hpage⟩

theorem builds_of_derives {scope : List String} {page : Page} (h : Derives scope ts page) :
    ∀ p : Parser, p.scope = scope → p.Builds ts page := by
  induction h with
  | done => exact fun p _ => p.builds_nil
  | @text scope content ts page _ ih =>
    intro p hscope
    obtain ⟨q, haccepts, hframes, hpage⟩ := ih (p.add (.text content .done)) hscope
    refine ⟨q, accepts_text.mpr haccepts, hframes, ?_⟩
    rw [hpage, page_add, Page.append_assoc]
    rfl
  | comment form _ ih =>
    intro p hscope
    obtain ⟨q, haccepts, hframes, hpage⟩ := ih p hscope
    exact ⟨q, accepts_tag.mpr ⟨.comment, p, hscope ▸ form, rfl, haccepts⟩, hframes, hpage⟩
  | echo form _ ih => exact fun p hscope => .node (hscope ▸ form) rfl (ih (p.add _) hscope)
  | renderBody form _ ih => exact fun p hscope => .node (hscope ▸ form) rfl (ih (p.add _) hscope)
  | partialView form _ ih => exact fun p hscope => .node (hscope ▸ form) rfl (ih (p.add _) hscope)
  | set form _ ih => exact fun p hscope => .node (hscope ▸ form) rfl (ih (p.add _) hscope)
  | @cond _ _ pos _ _ test _ _ _ _ opens _ closes _ ihyes ih =>
    intro p hscope
    obtain ⟨yes, hyes, rfl⟩ := (ihyes (p.push (.cond test none) pos) hscope).inner
    exact .block (hscope ▸ opens) rfl hyes (hscope ▸ closes) rfl (ih (p.add _) hscope)
  | @condElse _ _ pos middle pos' _ _ test _ _ _ _ _ _ opens _ turns _ closes _ ihyes ihno ih =>
    intro p hscope
    obtain ⟨yes, hyes, rfl⟩ := (ihyes (p.push (.cond test none) pos) hscope).inner
    -- the else tag leaves an empty page in a block that remembers the first one
    let f : Frame := ⟨.cond test (some yes.page), pos, p.draft⟩
    obtain ⟨no, hno, rfl⟩ := (ihno ⟨f :: p.frames, .empty⟩ hscope).inner
    have hturned : Accepts ⟨⟨.cond test none, pos, p.draft⟩ :: p.frames, yes⟩ (.tag middle pos' :: _)
        ⟨f :: p.frames, no⟩ := accepts_tag.mpr ⟨.otherwise, _, hscope ▸ turns, rfl, hno⟩
    exact .block (hscope ▸ opens) rfl (hyes.append hturned) (hscope ▸ closes) rfl
      (ih (p.add _) hscope)
  | @each scope _ pos _ _ source binding _ _ _ _ opens _ closes _ ihbody ih =>
    intro p hscope
    have hinner : (p.push (.each source binding) pos).scope = binding :: scope := by
      rw [scope_push, hscope]
      rfl
    obtain ⟨body, hbody, rfl⟩ := (ihbody _ hinner).inner
    exact .block (hscope ▸ opens) rfl hbody (hinner ▸ closes) rfl (ih (p.add _) hscope)

/-! ### Accepted tokens are derivable -/

/-- The loop variables that open blocks bring into scope, innermost first. -/
def scopeOf (frames : List Frame) : List String :=
  frames.filterMap fun f => f.block.binding?

/-- What a block becomes when it is closed behind a page. -/
def nodeOf (block : Block) (opened : Position) (page : Page) : Page :=
  match block with
  | .cond test none => .cond test page .done .done
  | .cond test (some yes) => .cond test yes page .done
  | .each source binding => .each source binding page opened .done

/-- Tokens close all open blocks, innermost first, and make `final` of the page begun in them. -/
inductive Finishes : List Frame → Page → List Token → Page → Prop where
  | root {page ts rest} (derived : Derives [] ts rest) : Finishes [] page ts (page ++ rest)
  | turn {test opened outer frames page us more body pos ts final}
    (derived : Derives (scopeOf frames) us more)
    (turns : Tag.Says (scopeOf frames) body.toList .otherwise)
    (finishes : Finishes (⟨.cond test (some (page ++ more)), opened, outer⟩ :: frames) .done ts final) :
    Finishes (⟨.cond test none, opened, outer⟩ :: frames) page (us ++ .tag body pos :: ts) final
  | close {f frames page us more body pos ts final} (derived : Derives (scopeOf (f :: frames)) us more)
    (closes : Tag.Says (scopeOf (f :: frames)) body.toList (.close f.block.kind))
    (finishes : Finishes frames (f.outer.page ++ nodeOf f.block f.opened (page ++ more)) ts final) :
    Finishes (f :: frames) page (us ++ .tag body pos :: ts) final

theorem otherwise_ok (h : p.otherwise = .ok q) :
    ∃ test opened outer frames, p.frames = ⟨.cond test none, opened, outer⟩ :: frames ∧
      q = ⟨⟨.cond test (some p.page), opened, outer⟩ :: frames, .empty⟩ := by
  unfold Parser.otherwise at h
  split at h
  · next test opened outer frames hframes =>
    exact ⟨test, opened, outer, frames, hframes, (Except.ok.inj h).symm⟩
  · cases h
  · cases h

theorem close_ok {kind : BlockKind} (h : p.close kind = .ok q) :
    ∃ f frames, p.frames = f :: frames ∧ f.block.kind = kind ∧
      q = ⟨frames, f.outer.add (nodeOf f.block f.opened p.page)⟩ := by
  unfold Parser.close at h
  split at h
  · next test yes opened outer frames hframes =>
    refine ⟨_, frames, hframes, rfl, (Except.ok.inj h).symm.trans ?_⟩
    cases yes <;> rfl
  · next source binding opened outer frames hframes =>
    exact ⟨_, frames, hframes, rfl, (Except.ok.inj h).symm⟩
  · cases h

/-- Tokens that put a node in front of every derivation may stand in front of finishing ones. -/
theorem Finishes.prepend {frames : List Frame} {page node final : Page}
    (h : Finishes frames (page ++ node) ts final)
    (hnode : ∀ ts rest, Derives (scopeOf frames) ts rest →
      Derives (scopeOf frames) (us ++ ts) (node ++ rest)) : Finishes frames page (us ++ ts) final := by
  generalize hpage : page ++ node = page' at h
  cases h with
  | root derived =>
    rw [← hpage, Page.append_assoc]
    exact .root (hnode _ _ derived)
  | turn derived turns finishes =>
    rw [← hpage, Page.append_assoc] at finishes
    rw [← List.append_assoc]
    exact .turn (hnode _ _ derived) turns finishes
  | close derived closes finishes =>
    rw [← hpage, Page.append_assoc] at finishes
    rw [← List.append_assoc]
    exact .close (hnode _ _ derived) closes finishes

/-- A token that stands for a node may stand in front of finishing tokens. -/
theorem Finishes.cons {frames : List Frame} {token : Token} {page node final : Page}
    (h : Finishes frames (page ++ node) ts final)
    (hnode : ∀ ts rest, Derives (scopeOf frames) ts rest →
      Derives (scopeOf frames) (token :: ts) (node ++ rest)) :
    Finishes frames page (token :: ts) final := by
  show Finishes frames page ([token] ++ ts) final
  exact h.prepend hnode

/-- So may the tags around a block, and what stands between them. -/
theorem Finishes.block {frames : List Frame} {closing : String} {pos' : Position}
    {page node final : Page} (h : Finishes frames (page ++ node) ts final)
    (hnode : ∀ ts rest, Derives (scopeOf frames) ts rest →
      Derives (scopeOf frames) (.tag body pos :: us ++ .tag closing pos' :: ts) (node ++ rest)) :
    Finishes frames page (.tag body pos :: (us ++ .tag closing pos' :: ts)) final := by
  have hsplit : ∀ ts, .tag body pos :: us ++ .tag closing pos' :: ts =
      (.tag body pos :: us ++ [.tag closing pos']) ++ ts := by simp
  rw [← List.cons_append, hsplit]
  refine h.prepend fun ts rest hrest => ?_
  rw [← hsplit]
  exact hnode ts rest hrest

theorem finishes_of_accepts (h : p.Accepts ts q) (hq : q.frames = []) :
    Finishes p.frames p.page ts q.page := by
  induction ts generalizing p with
  | nil =>
    obtain rfl := accepts_nil.mp h
    have hroot : Finishes [] p.page [] (p.page ++ .done) := .root .done
    rwa [Page.append_done, ← hq] at hroot
  | cons token ts ih =>
    cases token with
    | text content =>
      have hrest := ih (accepts_text.mp h)
      rw [page_add] at hrest
      exact hrest.cons fun _ _ => .text
    | tag body pos =>
      obtain ⟨t, p', form, happly, haccepts⟩ := accepts_tag.mp h
      have hrest := ih haccepts
      cases t with
      | comment =>
        obtain rfl := Except.ok.inj happly
        rw [← Page.append_done p.page] at hrest
        exact hrest.cons fun _ _ => .comment form
      | echo e escaped =>
        obtain rfl := Except.ok.inj happly
        rw [page_add] at hrest
        exact hrest.cons fun _ _ => .echo form
      | renderBody =>
        obtain rfl := Except.ok.inj happly
        rw [page_add] at hrest
        exact hrest.cons fun _ _ => .renderBody form
      | partialView name =>
        obtain rfl := Except.ok.inj happly
        rw [page_add] at hrest
        exact hrest.cons fun _ _ => .partialView form
      | set key value =>
        obtain rfl := Except.ok.inj happly
        rw [page_add] at hrest
        exact hrest.cons fun _ _ => .set form
      | openCond test =>
        obtain rfl := Except.ok.inj happly
        cases hrest with
        | @turn _ _ _ _ _ us _ middle pos' _ _ yes turns finishes =>
          cases finishes with
          | @close _ _ _ us' _ closing pos'' ts _ no closes finishes =>
            have hsplit : us ++ .tag middle pos' :: (us' ++ .tag closing pos'' :: ts) =
                (us ++ .tag middle pos' :: us') ++ .tag closing pos'' :: ts := by simp
            rw [hsplit]
            exact finishes.block fun _ _ => .condElse form yes turns no closes
        | close yes closes finishes => exact finishes.block fun _ _ => .cond form yes closes
      | otherwise =>
        obtain ⟨test, opened, outer, frames, hframes, rfl⟩ := otherwise_ok happly
        have hscope : p.scope = scopeOf frames := by
          unfold Parser.scope
          rw [hframes]
          rfl
        rw [hframes]
        rw [← Page.append_done p.page] at hrest
        exact .turn .done (hscope ▸ form) hrest
      | openEach source binding =>
        obtain rfl := Except.ok.inj happly
        cases hrest with
        | close inner closes finishes => exact finishes.block fun _ _ => .each form inner closes
      | close kind =>
        obtain ⟨f, frames, hframes, rfl, rfl⟩ := close_ok happly
        have hscope : p.scope = scopeOf (f :: frames) := by
          unfold Parser.scope
          rw [hframes]
          rfl
        have hpage : (f.outer.add (nodeOf f.block f.opened p.page)).page =
            f.outer.page ++ nodeOf f.block f.opened (p.page ++ .done) := by
          rw [Draft.page_add, Page.append_done]
        rw [hframes]
        exact .close .done (hscope ▸ form) (hpage ▸ hrest)

end Parser

theorem Parser.rootPage_of_frames {p : Parser} (h : p.frames = []) : p.rootPage = p.page := by
  rw [rootPage, h]
  rfl

theorem accepts_iff_derives {ts : List Token} {page : Page} :
    (∃ q, Parser.start.Accepts ts q ∧ q.frames = [] ∧ q.page = page) ↔ Derives [] ts page := by
  constructor
  · rintro ⟨q, haccepts, hframes, rfl⟩
    have hfinishes := Parser.finishes_of_accepts haccepts hframes
    generalize hfinal : q.page = final at hfinishes
    cases hfinishes with
    | root derived => exact derived
  · exact fun h => Parser.builds_of_derives h .start rfl

/-- A source compiles to a page exactly if its tags are closed and the grammar derives the page from its
tokens. -/
theorem parse_eq_ok_iff {source : String} {page : Page} :
    parse source = .ok page ↔
      (Scan.ofText source).unclosed = none ∧ Derives [] (Scan.ofText source).tokens page := by
  rw [← accepts_iff_derives]
  generalize hscan : Scan.ofText source = scan
  rcases hrun : Parser.start.tokens scan.tokens with ⟨p, rejected⟩
  have hparse : parse source = .ok page ↔
      scan.unclosed = none ∧ rejected = [] ∧ p.frames = [] ∧ p.page = page := by
    rw [parse, parseScan, hscan, hrun]
    cases scan.unclosed <;> cases rejected <;> cases hframes : p.frames <;>
      simp [hframes, Parser.rootPage_of_frames]
  rw [hparse]
  constructor
  · rintro ⟨hclosed, rfl, hframes, hpage⟩
    exact ⟨hclosed, p, hrun, hframes, hpage⟩
  · rintro ⟨hclosed, q, haccepts, hframes, hpage⟩
    obtain ⟨rfl, rfl⟩ := Prod.mk.inj (hrun.symm.trans haccepts)
    exact ⟨hclosed, rfl, hframes, hpage⟩

/-- The parser has no diagnostic of its own for a scan, and builds this page, exactly if the grammar
derives this page from the tokens. -/
theorem parseScan_iff_derives (scan : Scan) (page : Page) :
    parseScan scan = (scan.unclosed.toList.map unclosedTag, page) ↔
      Derives [] scan.tokens page := by
  rw [← accepts_iff_derives]
  rcases hrun : Parser.start.tokens scan.tokens with ⟨p, rejected⟩
  have hscan : parseScan scan = (scan.unclosed.toList.map unclosedTag ++ rejected.map rejectedTag ++
      p.frames.map unclosedBlock, p.rootPage) := by
    unfold parseScan
    rw [hrun]
  rw [hscan]
  constructor
  · intro h
    obtain ⟨hdiagnostics, rfl⟩ := Prod.mk.inj h
    rw [List.append_assoc, List.append_right_eq_self, List.append_eq_nil_iff, List.map_eq_nil_iff,
      List.map_eq_nil_iff] at hdiagnostics
    obtain ⟨rfl, hframes⟩ := hdiagnostics
    exact ⟨p, hrun, hframes, (Parser.rootPage_of_frames hframes).symm⟩
  · rintro ⟨q, haccepts, hframes, rfl⟩
    obtain ⟨rfl, rfl⟩ := Prod.mk.inj (hrun.symm.trans haccepts)
    simp [hframes, Parser.rootPage_of_frames]

end LayeredViews.Template
