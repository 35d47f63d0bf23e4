import LayeredViews.Proofs.Template.Grammar
import LayeredViews.Proofs.Template.Printing
import LayeredViews.Proofs.Template.TagPositions

/-!
# Joined sources — one source behind another one, compiled

Where neither source is rejected and the first one does not end in the middle of what could open a tag, the
scan of both is the scan of the first one and then that of the second one; text that meets at the seam is one
text.  So the page of both is the page of the first one and then that of the second one, whose tags stand
further on by what the first source takes up (`Position.moved`).
-/

namespace LayeredViews

namespace Text

/-- A position of a text, once another text stands in front of that: the line feeds in front count, and on
the first line so do the characters behind the last of them. -/
def Position.moved (front : List Char) (pos : Position) : Position :=
  ⟨pos.line + front.count '\n',
    if pos.line = 1 then pos.column + (front.reverse.takeWhile (· != '\n')).length else pos.column⟩

theorem Position.behind_append_moved (front before : List Char) :
    Position.behind (front ++ before) = (Position.behind before).moved front := by
  have hline : (front ++ before).count '\n' + 1 = before.count '\n' + 1 + front.count '\n' := by
    rw [List.count_append]
    omega
  unfold Position.behind Position.moved
  rw [hline, List.reverse_append, List.takeWhile_append]
  by_cases hnone : '\n' ∈ before
  · have hcount : before.count '\n' ≠ 0 := fun h => List.count_eq_zero.mp h hnone
    have hshort : (before.reverse.takeWhile (· != '\n')).length ≠ before.reverse.length := by
      intro h
      have hall := (List.takeWhile_prefix (· != '\n')).eq_of_length h
      simpa using List.takeWhile_eq_self_iff.mp hall '\n' (by simpa using hnone)
    rw [if_neg hshort]
    simp [hcount]
  · have hcount : before.count '\n' = 0 := List.count_eq_zero.mpr hnone
    have hall : before.reverse.takeWhile (· != '\n') = before.reverse := by
      refine List.takeWhile_eq_self_iff.mpr fun c hc => ?_
      have hmem : c ∈ before := List.mem_reverse.mp hc
      simpa using fun h : c = '\n' => hnone (h ▸ hmem)
    rw [hall]
    simp [hcount]
    omega

end Text

namespace Template

open Text (LineIndex Position utf8Length utf8Length_append)

/-! ### Tokens at other positions -/

/-- The token with its position changed. -/
def Token.mapPos (f : Position → Position) : Token → Token
  | .text content => .text content
  | .tag body pos => .tag body (f pos)

namespace Scan

/-- The scan with all positions changed. -/
def mapPos (f : Position → Position) (s : Scan) : Scan :=
  ⟨s.tokens.map (Token.mapPos f), s.unclosed.map f⟩

theorem mapPos_cons (f : Position → Position) (t : Token) (s : Scan) :
    (s.cons t).mapPos f = (s.mapPos f).cons (t.mapPos f) := rfl

theorem mapPos_consText (f : Position → Position) (pending : List Char) (s : Scan) :
    (s.consText pending).mapPos f = (s.mapPos f).consText pending := by
  unfold consText
  split_ifs <;> rfl

/-- What a scan is inside of, in a text with so many bytes in front. -/
def modeFrom (shift : Nat) : ScanMode → ScanMode
  | .text pending => .text pending
  | .tag opened body => .tag (shift + opened) body

section Places

variable (index index' : LineIndex) (shift : Nat) (f : Position → Position)

/-- Each place of a text from an offset on is in two sources at positions that `f` relates. -/
def PlacesAlike (offset : Nat) (cs : List Char) : Prop :=
  ∀ before after, cs = before ++ after →
    index'.position (shift + (offset + utf8Length before)) = f (index.position (offset + utf8Length before))

/-- So is the place where a tag was opened that a scan is inside of. -/
def OpenedAlike : ScanMode → Prop
  | .text _ => True
  | .tag opened _ => index'.position (shift + opened) = f (index.position opened)

variable {index index' shift f}

theorem PlacesAlike.tail {offset size : Nat} (first : List Char) {rest : List Char}
    (h : PlacesAlike index index' shift f offset (first ++ rest)) (hsize : utf8Length first = size) :
    PlacesAlike index index' shift f (offset + size) rest := by
  subst hsize
  rintro before after rfl
  have hplace := h (first ++ before) after (by simp)
  rwa [utf8Length_append, ← Nat.add_assoc offset] at hplace

theorem PlacesAlike.head {offset : Nat} {cs : List Char} (h : PlacesAlike index index' shift f offset cs) :
    index'.position (shift + offset) = f (index.position offset) :=
  h [] cs rfl

/-- Two scans of one text tell the same but for positions, if the places of the text are alike. -/
theorem scanFrom_mapPos (mode : ScanMode) (offset : Nat) (cs : List Char)
    (hplaces : PlacesAlike index index' shift f offset cs) (hopened : OpenedAlike index index' shift f mode) :
    scanFrom index' (modeFrom shift mode) (shift + offset) cs = (scanFrom index mode offset cs).mapPos f := by
  have hescape : utf8Length ['\\', '{', '{'] = 3 := by simp [utf8Length]
  have hopening : utf8Length ['{', '{'] = 2 := by simp [utf8Length]
  have hclosing : utf8Length ['}', '}'] = 2 := by simp [utf8Length]
  have hsingle : ∀ c, utf8Length [c] = c.utf8Size := fun c => by simp [utf8Length]
  fun_induction scanFrom index mode offset cs with
  | case1 pending offset cs ih =>
    have hrest := ih (PlacesAlike.tail ['\\', '{', '{'] hplaces hescape) trivial
    exact hrest
  | case2 pending offset cs ih =>
    have hrest := ih (PlacesAlike.tail ['{', '{'] hplaces hopening) hplaces.head
    rw [mapPos_consText, ← hrest]
    rfl
  | case3 pending offset c cs hslash hbraces ih =>
    have hrest := ih (PlacesAlike.tail [c] hplaces (hsingle c)) trivial
    rw [modeFrom, scanFrom.eq_3 index' (shift + offset) pending c cs hslash hbraces, Nat.add_assoc]
    exact hrest
  | case4 pending offset => exact (mapPos_consText f pending ⟨[], none⟩).symm
  | case5 opened body offset cs ih =>
    have hrest := ih (PlacesAlike.tail ['}', '}'] hplaces hclosing) trivial
    have htoken : tagToken index' (shift + opened) body = (tagToken index opened body).mapPos f :=
      congrArg (Token.tag _) hopened
    rw [mapPos_cons, ← hrest, ← htoken]
    rfl
  | case6 opened body offset c cs hbraces ih =>
    have hrest := ih (PlacesAlike.tail [c] hplaces (hsingle c)) hopened
    rw [modeFrom, scanFrom.eq_6 index' (shift + offset) (shift + opened) body c cs hbraces, Nat.add_assoc]
    exact hrest
  | case7 opened body offset => exact congrArg (fun pos => Scan.mk [] (some pos)) hopened

end Places

/-- The scan of a source does not depend on what follows the source, as far as positions go. -/
theorem scanFrom_in_front (cs more : List Char) :
    scanFrom (.ofText (cs ++ more)) (.text []) 0 cs = scanFrom (.ofText cs) (.text []) 0 cs := by
  have hplaces : PlacesAlike (.ofText cs) (.ofText (cs ++ more)) 0 id 0 cs := by
    rintro before after rfl
    have hboth : before ++ after ++ more = before ++ (after ++ more) := by simp
    rw [Nat.zero_add, Nat.zero_add, LineIndex.position_behind, hboth, LineIndex.position_behind]
    rfl
  have hsame := scanFrom_mapPos (.text []) 0 cs hplaces trivial
  have hid : ∀ s : Scan, s.mapPos id = s := by
    rintro ⟨tokens, unclosed⟩
    have htoken : Token.mapPos id = id := by
      funext t
      cases t <;> rfl
    simp [mapPos, htoken]
  rw [hid] at hsame
  exact hsame

/-- Behind another source the tags of a source stand further on. -/
theorem scanFrom_behind (front cs : List Char) :
    scanFrom (.ofText (front ++ cs)) (.text []) (utf8Length front) cs =
      (scanFrom (.ofText cs) (.text []) 0 cs).mapPos (Position.moved front) := by
  have hplaces : PlacesAlike (.ofText cs) (.ofText (front ++ cs)) (utf8Length front)
      (Position.moved front) 0 cs := by
    rintro before after rfl
    have hboth : front ++ (before ++ after) = front ++ before ++ after := by simp
    rw [Nat.zero_add, LineIndex.position_behind, hboth, ← utf8Length_append, LineIndex.position_behind,
      Position.behind_append_moved]
  exact scanFrom_mapPos (.text []) 0 cs hplaces trivial

end Scan

/-! ### The seam -/

/-- Tokens one after the other, where text that meets text is one text. -/
def joinTokens : List Token → List Token → List Token
  | [.text content], .text content' :: ts => .text (content ++ content') :: ts
  | [], ts => ts
  | t :: us, ts => t :: joinTokens us ts

theorem joinTokens_nil (ts : List Token) : joinTokens [] ts = ts := by
  cases ts <;> rfl

theorem joinTokens_tag (body : String) (pos : Position) (us ts : List Token) :
    joinTokens (.tag body pos :: us) ts = .tag body pos :: joinTokens us ts := by
  cases us <;> cases ts <;> rfl

/-- Tokens are joined by putting them next to each other, or by making one text of the two that meet. -/
theorem joinTokens_cases (us ts : List Token) :
    joinTokens us ts = us ++ ts ∨
      ∃ us' content content' ts', us = us' ++ [.text content] ∧ ts = .text content' :: ts' ∧
        joinTokens us ts = us' ++ .text (content ++ content') :: ts' := by
  fun_induction joinTokens us ts with
  | case1 content content' ts => exact Or.inr ⟨[], content, content', ts, rfl, rfl, rfl⟩
  | case2 ts => exact Or.inl rfl
  | case3 t us ts _ ih =>
    rcases ih with h | ⟨us', content, content', ts', rfl, rfl, h⟩
    · exact Or.inl (congrArg (List.cons t) h)
    · exact Or.inr ⟨t :: us', content, content', ts', rfl, rfl, congrArg (List.cons t) h⟩

namespace Scan

/-- What two scans tell, one after the other. -/
def join (s s' : Scan) : Scan :=
  ⟨joinTokens s.tokens s'.tokens, s'.unclosed⟩

variable {index : LineIndex}

theorem join_cons_tag (body : String) (pos : Position) (s s' : Scan) :
    (s.cons (.tag body pos)).join s' = (s.join s').cons (.tag body pos) := by
  simp [join, cons, joinTokens_tag]

theorem unclosed_consText (pending : List Char) (s : Scan) : (s.consText pending).unclosed = s.unclosed := by
  unfold consText
  split_ifs <;> rfl

/-- Inside of a tag a scan comes to the end of the source or to the end of the tag. -/
theorem scanFrom_tag_cases (index : LineIndex) (opened : Nat) (read : List Char) (offset : Nat) (cs : List Char) :
    (∃ pos, scanFrom index (.tag opened read) offset cs = ⟨[], some pos⟩) ∨
      ∃ body pos s, scanFrom index (.tag opened read) offset cs = cons (.tag body pos) s := by
  generalize hmode : ScanMode.tag opened read = mode
  fun_induction scanFrom index mode offset cs generalizing read with
  | case5 opened' body offset cs => exact Or.inr ⟨_, _, _, rfl⟩
  | case6 opened' body offset c cs _ ih =>
    obtain ⟨rfl, rfl⟩ := ScanMode.tag.inj hmode
    exact ih _ rfl
  | case7 opened' body offset => exact Or.inl ⟨_, rfl⟩
  | _ => cases hmode

/-- Text that is pending in front of a tag, or of the end, is joined to text in front of that. -/
theorem consText_append {s : Scan} (hs : ∀ content ts, s.tokens ≠ .text content :: ts)
    (pending earlier : List Char) :
    consText (pending ++ earlier) s = (consText earlier ⟨[], none⟩).join (consText pending s) := by
  obtain ⟨tokens, unclosed⟩ := s
  by_cases hearlier : earlier = []
  · simp [hearlier, consText, join, joinTokens_nil]
  by_cases hpending : pending = []
  · rcases tokens with _ | ⟨_ | ⟨body, pos⟩, ts⟩
    · simp [hearlier, hpending, consText, join, joinTokens, cons]
    · exact absurd rfl (hs _ _)
    · simp [hearlier, hpending, consText, join, joinTokens, cons]
  · simp [hearlier, hpending, consText, join, joinTokens, cons]

/-- Text that was pending before a scan is joined to what the scan tells. -/
theorem scanFrom_pending (index : LineIndex) (pending earlier : List Char) (offset : Nat) (cs : List Char) :
    scanFrom index (.text (pending ++ earlier)) offset cs =
      (consText earlier ⟨[], none⟩).join (scanFrom index (.text pending) offset cs) := by
  generalize hmode : ScanMode.text pending = mode
  fun_induction scanFrom index mode offset cs generalizing pending with
  | case1 pending' offset cs ih =>
    obtain rfl := ScanMode.text.inj hmode
    have hrest := ih ('{' :: '{' :: pending) rfl
    rw [← hrest]
    rfl
  | case2 pending' offset cs ih =>
    obtain rfl := ScanMode.text.inj hmode
    have hopens : ∀ content ts,
        (scanFrom index (.tag offset []) (offset + 2) cs).tokens ≠ .text content :: ts := by
      rcases scanFrom_tag_cases index offset [] (offset + 2) cs with ⟨pos, h⟩ | ⟨body, pos, s, h⟩ <;>
        simp [h, cons]
    rw [scanFrom]
    exact consText_append hopens pending earlier
  | case3 pending' offset c cs hslash hbraces ih =>
    obtain rfl := ScanMode.text.inj hmode
    have hrest := ih (c :: pending) rfl
    rw [scanFrom.eq_3 index offset _ c cs hslash hbraces, ← hrest]
    rfl
  | case4 pending' offset =>
    obtain rfl := ScanMode.text.inj hmode
    rw [scanFrom]
    exact consText_append (by simp) pending earlier
  | _ => cases hmode

/-- A scan that has closed its tags goes on behind a first part of a source as if nothing had been in
front. -/
theorem scanFrom_append {mode : ScanMode} {offset : Nat} {cs more : List Char}
    (hclosed : (scanFrom index mode offset cs).unclosed = none) (hshielded : Shielded cs more) :
    scanFrom index mode offset (cs ++ more) =
      (scanFrom index mode offset cs).join (scanFrom index (.text []) (offset + utf8Length cs) more) := by
  fun_induction scanFrom index mode offset cs with
  | case1 pending offset cs ih =>
    have hsize : offset + utf8Length ('\\' :: '{' :: '{' :: cs) = offset + 3 + utf8Length cs := by
      simp only [utf8Length, utf8Size_backslash, utf8Size_openingBrace]
      omega
    rw [hsize]
    exact ih hclosed hshielded.tail.tail.tail
  | case2 pending offset cs ih =>
    have hsize : offset + utf8Length ('{' :: '{' :: cs) = offset + 2 + utf8Length cs := by
      simp only [utf8Length, utf8Size_openingBrace]
      omega
    rw [unclosed_consText] at hclosed
    have hrest := ih hclosed hshielded.tail.tail
    rw [List.cons_append, List.cons_append, scanFrom, hrest, hsize]
    -- the scan of the first part has come out of the tag, so that no text of it meets other text here
    rcases scanFrom_tag_cases index offset [] (offset + 2) cs with ⟨pos, h⟩ | ⟨body, pos, s, h⟩
    · rw [h] at hclosed
      cases hclosed
    · rw [h, join_cons_tag]
      by_cases hpending : pending = [] <;> simp [consText, cons, join, hpending, joinTokens, joinTokens_tag]
  | case3 pending offset c cs hslash hbraces ih =>
    have hsize : offset + utf8Length (c :: cs) = offset + c.utf8Size + utf8Length cs := by
      simp only [utf8Length]
      omega
    rw [List.cons_append, scanFrom.eq_3 index offset pending c _ (hshielded.not_escape_append hslash)
      (hshielded.not_open_append hbraces), hsize]
    exact ih hclosed hshielded.tail
  | case4 pending offset =>
    have hpending := scanFrom_pending index [] pending offset more
    exact hpending
  | case5 opened body offset cs ih =>
    have hsize : offset + utf8Length ('}' :: '}' :: cs) = offset + 2 + utf8Length cs := by
      simp only [utf8Length, utf8Size_closingBrace]
      omega
    have hrest := ih hclosed hshielded.tail.tail
    rw [List.cons_append, List.cons_append, scanFrom, hrest, hsize]
    exact (join_cons_tag _ _ _ _).symm
  | case6 opened body offset c cs hbraces ih =>
    have hsize : offset + utf8Length (c :: cs) = offset + c.utf8Size + utf8Length cs := by
      simp only [utf8Length]
      omega
    -- the tag is closed before the end of the first part
    have hne : cs ≠ [] := by
      rintro rfl
      cases hclosed
    obtain ⟨d, cs, rfl⟩ := List.exists_cons_of_ne_nil hne
    have hbraces' : ∀ after, c = '}' → d :: cs ++ more = '}' :: after → False := by
      rintro after rfl h
      obtain ⟨rfl, -⟩ := List.cons_eq_cons.mp h
      exact hbraces cs rfl rfl
    rw [List.cons_append, scanFrom.eq_6 index offset opened body c _ hbraces', hsize]
    exact ih hclosed hshielded.tail
  | case7 opened body offset => cases hclosed

/-- The scan of a source behind another one, which closes its tags and may stand in front of it. -/
theorem ofText_append {s t : String} (hclosed : (ofText s).unclosed = none)
    (hshielded : Shielded s.toList t.toList) :
    ofText (s ++ t) = (ofText s).join ((ofText t).mapPos (Position.moved s.toList)) := by
  have hfront := scanFrom_in_front s.toList t.toList
  have hbehind := scanFrom_behind s.toList t.toList
  have hclosed' : (scanFrom (.ofText (s.toList ++ t.toList)) (.text []) 0 s.toList).unclosed = none := by
    rw [hfront]
    exact hclosed
  have hboth := scanFrom_append hclosed' hshielded
  rw [hfront, Nat.zero_add, hbehind] at hboth
  unfold ofText
  rw [String.toList_append]
  exact hboth

end Scan

/-! ### Pages -/

/-- The page with the positions of all tags changed. -/
def Page.mapPos (f : Position → Position) : Page → Page
  | .done => .done
  | .text content rest => .text content (rest.mapPos f)
  | .echo e escaped pos rest => .echo e escaped (f pos) (rest.mapPos f)
  | .renderBody pos rest => .renderBody (f pos) (rest.mapPos f)
  | .partialView name pos rest => .partialView name (f pos) (rest.mapPos f)
  | .set key value rest => .set key value (rest.mapPos f)
  | .cond test yes no rest => .cond test (yes.mapPos f) (no.mapPos f) (rest.mapPos f)
  | .each source binding body pos rest => .each source binding (body.mapPos f) (f pos) (rest.mapPos f)

/-- Where tags stand does not count for what their tokens derive. -/
theorem Derives.mapPos {scope : List String} {ts : List Token} {page : Page} (h : Derives scope ts page)
    (f : Position → Position) : Derives scope (ts.map (Token.mapPos f)) (page.mapPos f) := by
  induction h with
  | done => exact .done
  | text _ ih => exact .text ih
  | comment form _ ih => exact .comment form ih
  | echo form _ ih => exact .echo form ih
  | renderBody form _ ih => exact .renderBody form ih
  | partialView form _ ih => exact .partialView form ih
  | set form _ ih => exact .set form ih
  | cond opens _ closes _ ihyes ih =>
    simpa [Token.mapPos, Page.mapPos] using Derives.cond opens ihyes closes ih
  | condElse opens _ turns _ closes _ ihyes ihno ih =>
    simpa [Token.mapPos, Page.mapPos] using Derives.condElse opens ihyes turns ihno closes ih
  | each opens _ closes _ ihbody ih =>
    simpa [Token.mapPos, Page.mapPos] using Derives.each opens ihbody closes ih

theorem Page.cond_append (test : Expr) (yes no rest q : Page) :
    Page.cond test yes no rest ++ q = .cond test yes no (rest ++ q) := rfl

theorem Page.each_append (source : Expr) (binding : String) (body : Page) (pos : Position) (rest q : Page) :
    Page.each source binding body pos rest ++ q = .each source binding body pos (rest ++ q) := rfl

/-- Tokens one after the other derive their pages one after the other. -/
theorem Derives.append {scope : List String} {ts us : List Token} {p q : Page} (h : Derives scope ts p)
    (h' : Derives scope us q) : Derives scope (ts ++ us) (p ++ q) := by
  induction h with
  | done => exact h'
  | text _ ih => exact .text (ih h')
  | comment form _ ih => exact .comment form (ih h')
  | echo form _ ih => exact .echo form (ih h')
  | renderBody form _ ih => exact .renderBody form (ih h')
  | partialView form _ ih => exact .partialView form (ih h')
  | set form _ ih => exact .set form (ih h')
  | cond opens inner closes _ _ ih => simpa [Page.cond_append] using Derives.cond opens inner closes (ih h')
  | condElse opens inner turns inner' closes _ _ _ ih =>
    simpa [Page.cond_append] using Derives.condElse opens inner turns inner' closes (ih h')
  | each opens inner closes _ _ ih => simpa [Page.each_append] using Derives.each opens inner closes (ih h')

/-- What is derived from tokens that end in text ends in that text. -/
theorem derives_append_text {us : List Token} {content : String} {page : Page}
    (h : Derives [] (us ++ [.text content]) page) :
    ∃ p, Derives [] us p ∧ page = p ++ .text content .done := by
  obtain ⟨q, haccepts, hframes, rfl⟩ := accepts_iff_derives.mpr h
  obtain ⟨r, hfirst, hlast⟩ := haccepts.split
  obtain rfl := Parser.accepts_nil.mp (Parser.accepts_text.mp hlast)
  exact ⟨r.page, accepts_iff_derives.mp ⟨r, hfirst, hframes, rfl⟩, Parser.page_add r _⟩

/-- A page is that of two pages one after the other, where text that meets text is one text. -/
inductive Page.Joins : Page → Page → Page → Prop where
  | apart {p q : Page} : Joins p q (p ++ q)
  | merged {p q : Page} {content content' : String} :
    Joins (p ++ .text content .done) (.text content' q) (p ++ .text (content ++ content') q)

theorem Derives.join {us ts : List Token} {p q : Page} (h : Derives [] us p) (h' : Derives [] ts q) :
    ∃ page, Derives [] (joinTokens us ts) page ∧ Page.Joins p q page := by
  rcases joinTokens_cases us ts with hjoin | ⟨us, content, content', ts, rfl, rfl, hjoin⟩
  · rw [hjoin]
    exact ⟨_, h.append h', .apart⟩
  · obtain ⟨p, hp, rfl⟩ := derives_append_text h
    cases h' with
    | text hq =>
      rw [hjoin]
      exact ⟨_, hp.append (.text hq), .merged⟩

/-- A source behind another one compiles to the joined pages, if both compile and the first one does not end
in what could be the start of a tag, or of an escape. -/
theorem parse_append {s t : String} {p q : Page} (hs : parse s = .ok p) (ht : parse t = .ok q)
    (hbrace : s.toList.getLast? ≠ some '{') (hslash : s.toList.getLast? ≠ some '\\') :
    ∃ page, parse (s ++ t) = .ok page ∧ Page.Joins p (q.mapPos (Position.moved s.toList)) page := by
  obtain ⟨hsclosed, hp⟩ := parse_eq_ok_iff.mp hs
  obtain ⟨htclosed, hq⟩ := parse_eq_ok_iff.mp ht
  have hscan := Scan.ofText_append hsclosed fun _ : t.toList ≠ [] => ⟨hbrace, hslash⟩
  obtain ⟨page, hpage, hjoins⟩ := hp.join (hq.mapPos (Position.moved s.toList))
  refine ⟨page, parse_eq_ok_iff.mpr ?_, hjoins⟩
  rw [hscan]
  exact ⟨by simp [Scan.join, Scan.mapPos, htclosed], hpage⟩

end Template

end LayeredViews
