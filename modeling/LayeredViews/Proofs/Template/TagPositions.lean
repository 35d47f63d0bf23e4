import LayeredViews.Proofs.Template.Grammar
import LayeredViews.Proofs.Template.Nodes
import LayeredViews.Proofs.Text.Position

/-!
# Tag positions — every position a page keeps is that of an opening tag

The scan takes the position of a tag where its braces stand in the source (`scanFrom_opens`), which the index
does not fail on (`Scan.ofText_located`), and the parser only hands positions on (`Parser.Within`).  So what a source is rejected for, and what a compiled page may
fail at, stands at an unescaped `{{` of that source.
-/

namespace LayeredViews.Template

open Text (Position)

/-- Two opening braces, with no backslash right before them, stand at a position of a source. -/
def OpensTag (source : String) (pos : Position) : Prop :=
  ∃ before after, source.toList = before ++ '{' :: '{' :: after ∧ before.getLast? ≠ some '\\' ∧
    pos = .behind before

/-- The index of a source does not fail where a tag opens. -/
theorem OpensTag.located {source : String} {pos : Position} (h : OpensTag source pos) :
    ∃ offset, (Text.LineIndex.ofText source.toList).position? offset = .ok pos := by
  obtain ⟨before, after, hsource, -, rfl⟩ := h
  exact ⟨Text.utf8Length before, by rw [hsource, Text.LineIndex.position?_behind]⟩

/-! ### The scan -/

/-- Where a token stands, if it is a tag. -/
def Token.pos? : Token → Option Position
  | .text _ => none
  | .tag _ pos => some pos

namespace Scan

/-- The positions of its tags, of one that is not closed too, are of a kind. -/
structure Within (T : Position → Prop) (s : Scan) : Prop where
  tokens : ∀ t ∈ s.tokens, ∀ pos ∈ t.pos?, T pos
  unclosed : ∀ pos ∈ s.unclosed, T pos

variable {T : Position → Prop} {s : Scan}

theorem Within.cons (h : s.Within T) {t : Token} (ht : ∀ pos ∈ t.pos?, T pos) :
    (s.cons t).Within T where
  tokens := by
    intro t' ht'
    rcases List.mem_cons.mp ht' with rfl | ht'
    · exact ht
    · exact h.tokens t' ht'
  unclosed := h.unclosed

theorem Within.consText (h : s.Within T) (pending : List Char) : (s.consText pending).Within T := by
  unfold Scan.consText
  split
  · exact h
  · exact h.cons (by simp [Token.pos?])

/-- What is known behind a first part of a source: a backslash is not yet there in front of braces, or the
tag that is open was opened at braces. -/
def Reached (source : String) (before rest : List Char) : ScanMode → Prop
  | .text _ => before.getLast? = some '\\' → ∀ after, rest ≠ '{' :: '{' :: after
  | .tag opened _ => OpensTag source ((Text.LineIndex.ofText source.toList).position opened)

theorem scanFrom_opens {source : String} (before : List Char) {mode : ScanMode} {offset : Nat}
    {rest : List Char} (hsource : source.toList = before ++ rest)
    (hoffset : offset = Text.utf8Length before) (hmode : Reached source before rest mode) :
    (scanFrom (Text.LineIndex.ofText source.toList) mode offset rest).Within (OpensTag source) := by
  fun_induction scanFrom (Text.LineIndex.ofText source.toList) mode offset rest generalizing before with
  | case1 pending offset cs ih =>
    refine ih (before ++ ['\\', '{', '{']) (by simp [hsource]) ?_ ?_
    · simp [hoffset, Text.utf8Length]
      decide
    · intro h
      simp at h
  | case2 pending offset cs ih =>
    have hopens : OpensTag source ((Text.LineIndex.ofText source.toList).position offset) := by
      refine ⟨before, cs, hsource, fun h => hmode h cs rfl, ?_⟩
      rw [hsource, hoffset, Text.LineIndex.position_behind]
    refine (ih (before ++ ['{', '{']) (by simp [hsource]) ?_ hopens).consText pending
    simp [hoffset, Text.utf8Length]
    decide
  | case3 pending offset c cs hescape hopen ih =>
    refine ih (before ++ [c]) (by simp [hsource]) (by simp [hoffset, Text.utf8Length]) ?_
    intro h after hcs
    simp at h
    exact hescape after h hcs
  | case4 pending offset => exact Within.consText ⟨by simp, by simp⟩ pending
  | case5 opened body offset cs ih =>
    refine (ih (before ++ ['}', '}']) (by simp [hsource]) ?_ ?_).cons ?_
    · simp [hoffset, Text.utf8Length]
      decide
    · intro h
      simp at h
    · intro pos hpos
      obtain rfl := Option.some.inj hpos
      exact hmode
  | case6 opened body offset c cs hclose ih =>
    exact ih (before ++ [c]) (by simp [hsource]) (by simp [hoffset, Text.utf8Length]) hmode
  | case7 opened body offset =>
    refine ⟨by simp, fun pos hpos => ?_⟩
    obtain rfl := Option.some.inj hpos
    exact hmode

theorem ofText_opens (source : String) : (ofText source).Within (OpensTag source) :=
  scanFrom_opens [] rfl rfl (by intro h; simp at h)

/-- The index fails for none of the positions that a scan tells. -/
theorem ofText_located (source : String) : (ofText source).Within fun pos =>
    ∃ offset, (Text.LineIndex.ofText source.toList).position? offset = .ok pos where
  tokens t ht pos hpos := ((ofText_opens source).tokens t ht pos hpos).located
  unclosed pos hpos := ((ofText_opens source).unclosed pos hpos).located

end Scan

/-! ### The parser -/

/-- The places that the nodes of a page keep are of a kind. -/
def Page.Within (T : Position → Prop) (p : Page) : Prop :=
  ∀ node ∈ p.nodes, ∀ pos ∈ node.pos?, T pos

theorem Page.Within.append {T : Position → Prop} {p q : Page} (hp : p.Within T) (hq : q.Within T) :
    (p ++ q).Within T := by
  intro node hnode
  rw [nodes_append] at hnode
  rcases List.mem_append.mp hnode with hnode | hnode
  · exact hp node hnode
  · exact hq node hnode

/-- The page before an else tag of the block, once there was one. -/
def Block.yes? : Block → Option Page
  | .cond _ yes => yes
  | .each _ _ => none

/-- The places that an open block keeps are of a kind. -/
structure Frame.Within (T : Position → Prop) (f : Frame) : Prop where
  opened : T f.opened
  outer : f.outer.page.Within T
  yes : ∀ page ∈ f.block.yes?, page.Within T

namespace Parser

/-- The places that a parser keeps are of a kind. -/
structure Within (T : Position → Prop) (p : Parser) : Prop where
  frames : ∀ f ∈ p.frames, f.Within T
  page : p.page.Within T

variable {T : Position → Prop} {p q : Parser} {pos : Position}

theorem Within.rootPage (h : p.Within T) : p.rootPage.Within T := by
  unfold Parser.rootPage
  split
  · next f hlast => exact (h.frames f (List.mem_of_getLast? hlast)).outer
  · exact h.page

theorem start_within : start.Within T :=
  ⟨by simp [start], by simp [start, Parser.page, Page.Within]⟩

theorem Within.add (h : p.Within T) {more : Page} (hmore : more.Within T) : (p.add more).Within T := by
  refine ⟨h.frames, ?_⟩
  unfold Parser.page Parser.add
  rw [Draft.page_add]
  exact h.page.append hmore

theorem Within.push (h : p.Within T) (hpos : T pos) {block : Block} (hblock : block.yes? = none) :
    (p.push block pos).Within T := by
  refine ⟨fun f hf => ?_, by simp [Parser.page, Parser.push, Page.Within]⟩
  rcases List.mem_cons.mp hf with rfl | hf
  · exact ⟨hpos, h.page, by simp [hblock]⟩
  · exact h.frames f hf

theorem Within.otherwise (h : p.Within T) (hq : p.otherwise = .ok q) : q.Within T := by
  obtain ⟨test, opened, outer, frames, hframes, rfl⟩ := otherwise_ok hq
  obtain ⟨hframe, hothers⟩ := List.forall_mem_cons.mp (hframes ▸ h.frames)
  refine ⟨List.forall_mem_cons.mpr ⟨⟨hframe.opened, hframe.outer, ?_⟩, hothers⟩, ?_⟩
  · intro page hpage
    obtain rfl := Option.some.inj hpage
    exact h.page
  · simp [Parser.page, Page.Within]

/-- What a block becomes keeps the places of the block and of the page in front of its end. -/
theorem nodeOf_within {f : Frame} {page : Page} (hf : f.Within T) (hpage : page.Within T) :
    (nodeOf f.block f.opened page).Within T := by
  obtain ⟨block, opened, outer⟩ := f
  have hyes := hf.yes
  have hopened := hf.opened
  rcases block with ⟨test, _ | yes⟩ | ⟨source, binding⟩ <;> intro node hnode <;>
    simp only [nodeOf, Page.nodes, List.append_nil, List.mem_cons, List.mem_append] at hnode
  · rcases hnode with rfl | hnode
    · simp [Node.pos?]
    · exact hpage node hnode
  · rcases hnode with rfl | hnode | hnode
    · simp [Node.pos?]
    · exact hyes yes rfl node hnode
    · exact hpage node hnode
  · rcases hnode with rfl | hnode
    · simpa [Node.pos?] using hopened
    · exact hpage node hnode

theorem Within.close (h : p.Within T) {kind : BlockKind} (hq : p.close kind = .ok q) :
    q.Within T := by
  obtain ⟨f, frames, hframes, -, rfl⟩ := close_ok hq
  obtain ⟨hframe, hothers⟩ := List.forall_mem_cons.mp (hframes ▸ h.frames)
  have houter : Parser.Within T ⟨frames, f.outer⟩ := ⟨hothers, hframe.outer⟩
  exact houter.add (nodeOf_within hframe h.page)

theorem Within.apply (h : p.Within T) (hpos : T pos) {t : Tag} (hq : p.apply pos t = .ok q) :
    q.Within T := by
  cases t with
  | comment =>
    obtain rfl := Except.ok.inj hq
    exact h
  | otherwise => exact h.otherwise hq
  | close kind => exact h.close hq
  | openCond test =>
    obtain rfl := Except.ok.inj hq
    exact h.push hpos rfl
  | openEach source binding =>
    obtain rfl := Except.ok.inj hq
    exact h.push hpos rfl
  | _ =>
    obtain rfl := Except.ok.inj hq
    exact h.add (by simp [Page.Within, Page.nodes, Node.pos?, hpos])

theorem Within.token (h : p.Within T) {t : Token} (ht : ∀ pos ∈ t.pos?, T pos) :
    (p.token t).1.Within T ∧ ∀ r ∈ (p.token t).2, T r.1 := by
  cases t with
  | text content => exact ⟨h.add (by simp [Page.Within, Page.nodes, Node.pos?]), by simp [Parser.token]⟩
  | tag body pos =>
    have hpos : T pos := ht pos rfl
    unfold Parser.token
    dsimp only
    split
    · next q htag =>
      obtain ⟨t, -, happly⟩ := tag_ok_iff.mp htag
      exact ⟨h.apply hpos happly, by simp⟩
    · exact ⟨h, by simp [hpos]⟩

theorem Within.tokens (h : p.Within T) {ts : List Token} (hts : ∀ t ∈ ts, ∀ pos ∈ t.pos?, T pos) :
    (p.tokens ts).1.Within T ∧ ∀ r ∈ (p.tokens ts).2, T r.1 := by
  induction ts generalizing p with
  | nil => exact ⟨h, by simp [Parser.tokens]⟩
  | cons t ts ih =>
    obtain ⟨ht, hts⟩ := List.forall_mem_cons.mp hts
    obtain ⟨hnext, hrejected⟩ := h.token ht
    obtain ⟨hlast, hothers⟩ := ih hnext hts
    refine ⟨hlast, fun r hr => ?_⟩
    rcases List.mem_append.mp hr with hr | hr
    · exact hrejected r (Option.mem_toList.mp hr)
    · exact hothers r hr

end Parser

/-- What a scan is rejected for, and where nodes of its page stand, is of the kind of its tags. -/
theorem parseScan_within {T : Position → Prop} {scan : Scan} (h : scan.Within T) :
    (∀ d ∈ (parseScan scan).1, T ⟨d.line, d.column⟩) ∧ (parseScan scan).2.Within T := by
  obtain ⟨hparser, hrejected⟩ := Parser.start_within.tokens h.tokens
  refine ⟨fun d hd => ?_, hparser.rootPage⟩
  simp only [parseScan, List.mem_append, List.mem_map, Option.mem_toList] at hd
  rcases hd with (⟨pos, hpos, rfl⟩ | ⟨r, hr, rfl⟩) | ⟨f, hf, rfl⟩
  · exact h.unclosed pos hpos
  · exact hrejected r hr
  · exact (hparser.frames f hf).opened

/-- A source is rejected for something, and all of it stands at opening tags. -/
theorem parse_error_opens {source : String} {ds : List Diagnostic} (h : parse source = .error ds) :
    ds ≠ [] ∧ ∀ d ∈ ds, OpensTag source ⟨d.line, d.column⟩ := by
  have hall := (parseScan_within (Scan.ofText_opens source)).1
  unfold parse at h
  split at h
  · cases h
  · next d ds' page hscan =>
    obtain rfl := Except.error.inj h
    rw [hscan] at hall
    exact ⟨by simp, hall⟩

/-- The nodes of a compiled page stand at opening tags of its source. -/
theorem parse_ok_opens {source : String} {page : Page} (h : parse source = .ok page) :
    page.Within (OpensTag source) := by
  have hpage := (parseScan_within (Scan.ofText_opens source)).2
  unfold parse at h
  split at h
  · next page' hscan =>
    obtain rfl := Except.ok.inj h
    rwa [hscan] at hpage
  · cases h

end LayeredViews.Template
