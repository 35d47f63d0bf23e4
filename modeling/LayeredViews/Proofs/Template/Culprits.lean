import LayeredViews.Proofs.Template.OpenBlocks
import LayeredViews.Proofs.Template.TagOrder
import Mathlib.Data.List.Perm.Subperm

/-!
# Culprits — what each diagnostic of a source is about

A tag is rejected by what it says and by the blocks that are open in front of it (`Parser.Rejects`).  There is one
diagnostic for each rejected tag, and one for each block that is left open.  They stand at different places,
because each tag is rejected, or opens a block, or does neither (`Parser.culprits_subperm`), and tags stand at
ascending places of the source.  What a rejected tag leaves behind is the parser as it was in front of it, so
that the tag can be left out: `parseScan_without_rejected`.
-/

namespace LayeredViews.Template

open Text (Position)

namespace Parser

variable {p : Parser} {ts : List Token}

/-! ### Rejected tags -/

/-- A tag at this place is rejected for this fault, behind the tokens in front of it. -/
def Rejects (p : Parser) (ts : List Token) (r : Position × TagError) : Prop :=
  ∃ us body vs, ts = us ++ .tag body r.1 :: vs ∧ (p.after us).tag body r.1 = .error r.2

theorem mem_rejected_iff {r : Position × TagError} : r ∈ p.rejected ts ↔ p.Rejects ts r := by
  induction ts generalizing p with
  | nil =>
    constructor
    · intro h
      cases h
    · rintro ⟨us, body, vs, h, -⟩
      cases us <;> cases h
  | cons t ts ih =>
    rw [rejected_cons, List.mem_append, Option.mem_toList]
    constructor
    · rintro (hhere | hlater)
      · cases t with
        | text content => cases hhere
        | tag body pos =>
          cases htag : p.tag body pos with
          | ok q =>
            rw [token_of_ok htag] at hhere
            cases hhere
          | error e =>
            rw [token_of_error htag] at hhere
            obtain rfl := Option.some.inj hhere
            exact ⟨[], body, ts, rfl, htag⟩
      · obtain ⟨us, body, vs, rfl, htag⟩ := ih.mp hlater
        exact ⟨t :: us, body, vs, rfl, htag⟩
    · rintro ⟨_ | ⟨u, us⟩, body, vs, hsplit, htag⟩
      · obtain ⟨rfl, rfl⟩ := List.cons_eq_cons.mp hsplit
        have hrejected := token_of_error htag
        rw [after_nil] at hrejected
        rw [hrejected]
        exact Or.inl rfl
      · obtain ⟨rfl, rfl⟩ := List.cons_eq_cons.mp hsplit
        exact Or.inr (ih.mpr ⟨us, body, vs, rfl, htag⟩)

/-! ### Places -/

theorem filterMap_pos?_cons (t : Token) (ts : List Token) :
    (t :: ts).filterMap Token.pos? = t.pos?.toList ++ ts.filterMap Token.pos? := by
  cases t <;> rfl

theorem token_rejected_sublist (p : Parser) (t : Token) :
    ((p.token t).2.toList.map Prod.fst).Sublist t.pos?.toList := by
  cases t with
  | text content => exact .slnil
  | tag body pos =>
    cases htag : p.tag body pos with
    | error e =>
      rw [token_of_error htag]
      exact .refl _
    | ok q =>
      rw [token_of_ok htag]
      exact List.nil_sublist _

/-- The place of a token is that of a rejected tag, or that of a block which it opens, or neither. -/
theorem token_places_sublist (p : Parser) (t : Token) :
    ((p.token t).2.toList.map Prod.fst ++ (p.token t).1.openBlocks.map Prod.snd).Sublist
      (t.pos?.toList ++ p.openBlocks.map Prod.snd) := by
  cases t with
  | text content => exact .refl _
  | tag body pos =>
    cases htag : p.tag body pos with
    | error e =>
      rw [token_of_error htag]
      exact .refl _
    | ok q =>
      rw [token_of_ok htag]
      show (q.openBlocks.map Prod.snd).Sublist (pos :: p.openBlocks.map Prod.snd)
      rcases openBlocks_of_ok htag with hsame | ⟨kind, hopened⟩ | ⟨b, hclosed⟩
      · rw [hsame]
        exact List.sublist_cons_self _ _
      · rw [hopened]
        exact .refl _
      · rw [hclosed, List.map_cons]
        exact (List.sublist_cons_self _ _).trans (List.sublist_cons_self _ _)

/-- Rejected tags come in the order in which they stand. -/
theorem rejected_sublist (p : Parser) (ts : List Token) :
    ((p.rejected ts).map Prod.fst).Sublist (ts.filterMap Token.pos?) := by
  induction ts generalizing p with
  | nil => exact .slnil
  | cons t ts ih =>
    rw [rejected_cons, List.map_append, filterMap_pos?_cons]
    exact (token_rejected_sublist p t).append (ih (p.token t).1)

/-- Open blocks come in the reverse order of that in which their tags stand. -/
theorem openBlocks_sublist (p : Parser) (ts : List Token) :
    ((p.after ts).openBlocks.map Prod.snd).Sublist
      ((ts.filterMap Token.pos?).reverse ++ p.openBlocks.map Prod.snd) := by
  induction ts generalizing p with
  | nil => exact .refl _
  | cons t ts ih =>
    have hfirst := (List.sublist_append_right _ _).trans (token_places_sublist p t)
    have hreverse : t.pos?.toList.reverse = t.pos?.toList := by cases t <;> rfl
    rw [after_cons, filterMap_pos?_cons, List.reverse_append, hreverse, List.append_assoc]
    exact (ih (p.token t).1).trans (hfirst.append_left _)

/-- No tag is rejected and opens a block, or does one of these twice. -/
theorem culprits_subperm (p : Parser) (ts : List Token) :
    ((p.rejected ts).map Prod.fst ++ (p.after ts).openBlocks.map Prod.snd).Subperm
      (ts.filterMap Token.pos? ++ p.openBlocks.map Prod.snd) := by
  induction ts generalizing p with
  | nil => exact .refl _
  | cons t ts ih =>
    have hfirst := (token_places_sublist p t).subperm
    have hrest := ih (p.token t).1
    generalize hr : (p.token t).2.toList.map Prod.fst = r at hfirst
    generalize ho : (p.token t).1.openBlocks.map Prod.snd = o at hfirst hrest
    rw [rejected_cons, List.map_append, hr, after_cons, filterMap_pos?_cons, List.append_assoc, List.append_assoc]
    have hswap : (r ++ (ts.filterMap Token.pos? ++ o)).Perm (ts.filterMap Token.pos? ++ (r ++ o)) :=
      List.perm_append_comm_assoc _ _ _
    have hback : (ts.filterMap Token.pos? ++ (t.pos?.toList ++ p.openBlocks.map Prod.snd)).Perm
        (t.pos?.toList ++ (ts.filterMap Token.pos? ++ p.openBlocks.map Prod.snd)) :=
      List.perm_append_comm_assoc _ _ _
    exact (((List.Subperm.refl r).append hrest).trans hswap.subperm).trans
      (((List.Subperm.refl _).append hfirst).trans hback.subperm)

end Parser

/-! ### Diagnostics -/

/-- The diagnostic of a block that is left open. -/
def leftOpen (b : BlockKind × Position) : Diagnostic :=
  diagnosticAt b.2 ("Unclosed '" ++ b.1.word ++ "' block: expected \x7b\x7b /" ++ b.1.word ++ " \x7d\x7d")

/-- The diagnostics of a source; one that compiles has none. -/
def diagnostics (source : String) : List Diagnostic :=
  match parse source with
  | .ok _ => []
  | .error ds => ds

/-- The rejected tags among some tokens, in the order in which they stand, and the blocks left open, the
innermost one first. -/
structure Culprits (ts : List Token) (rejected : List (Position × TagError))
    (left : List (BlockKind × Position)) : Prop where
  rejected_iff : ∀ r, r ∈ rejected ↔ Parser.start.Rejects ts r
  rejected_ascending : rejected.Pairwise fun r r' => r.1.Before r'.1
  left_iff : ∀ b, b ∈ left ↔ Parser.LeavesOpen ts b
  left_descending : left.Pairwise fun b b' => b'.2.Before b.2

theorem culprits_of_ascending {ts : List Token} (h : (ts.filterMap Token.pos?).Pairwise Position.Before) :
    Culprits ts (Parser.start.rejected ts) (Parser.start.after ts).openBlocks where
  rejected_iff _ := Parser.mem_rejected_iff
  rejected_ascending := List.pairwise_map.mp (h.sublist (Parser.start.rejected_sublist ts))
  left_iff _ := Parser.mem_openBlocks_iff
  left_descending := by
    have hsublist := Parser.start.openBlocks_sublist ts
    have hnone : Parser.start.openBlocks = [] := rfl
    rw [hnone, List.map_nil, List.append_nil] at hsublist
    exact List.pairwise_map.mp ((List.pairwise_reverse.mpr h).sublist hsublist)

theorem parseScan_eq (scan : Scan) :
    parseScan scan = (scan.unclosed.toList.map unclosedTag ++
      (Parser.start.rejected scan.tokens).map rejectedTag ++
        (Parser.start.after scan.tokens).openBlocks.map leftOpen,
      (Parser.start.after scan.tokens).rootPage) := by
  have hblocks : (Parser.start.after scan.tokens).openBlocks.map leftOpen =
      (Parser.start.after scan.tokens).frames.map unclosedBlock := by
    unfold Parser.openBlocks
    rw [List.map_map]
    rfl
  rw [hblocks]
  rfl

theorem diagnostics_eq (source : String) : diagnostics source = (parseScan (Scan.ofText source)).1 := by
  unfold diagnostics parse
  rcases parseScan (Scan.ofText source) with ⟨_ | ⟨d, ds⟩, page⟩
  · rfl
  · rfl

/-- No two diagnostics of a source stand at the same place. -/
theorem diagnostics_places (source : String) :
    ((diagnostics source).map fun d => Position.mk d.line d.column).Nodup := by
  have hplaces : (Scan.ofText source).places.Nodup := (Scan.places_ascending source).imp fun h => h.ne
  rw [diagnostics_eq]
  generalize Scan.ofText source = scan at hplaces ⊢
  have hculprits := (Parser.start.culprits_subperm scan.tokens).append (.refl scan.unclosed.toList)
  have hnone : Parser.start.openBlocks = [] := rfl
  rw [hnone, List.map_nil, List.append_nil] at hculprits
  obtain ⟨ps, hperm, hsublist⟩ := hculprits
  have hnodup := hperm.nodup_iff.mp (hplaces.sublist hsublist)
  have hmap : (parseScan scan).1.map (fun d => Position.mk d.line d.column) =
      scan.unclosed.toList ++ ((Parser.start.rejected scan.tokens).map Prod.fst ++
        (Parser.start.after scan.tokens).openBlocks.map Prod.snd) := by
    rw [parseScan_eq]
    simp only [List.map_append, List.map_map, List.append_assoc]
    congr 1
    exact List.map_id _
  rw [hmap]
  exact List.perm_append_comm.nodup_iff.mp hnodup

/-- A rejected tag can be left out of the tokens: its diagnostic goes, and nothing else changes. -/
theorem parseScan_without_rejected {us : List Token} {body : String} {pos : Position} {e : TagError}
    (h : (Parser.start.after us).tag body pos = .error e) (vs : List Token) (unclosed : Option Position) :
    ∃ front back page, parseScan ⟨us ++ .tag body pos :: vs, unclosed⟩ =
        (front ++ rejectedTag (pos, e) :: back, page) ∧
      parseScan ⟨us ++ vs, unclosed⟩ = (front ++ back, page) := by
  have htoken := Parser.token_of_error h
  have hafter : Parser.start.after (us ++ .tag body pos :: vs) = Parser.start.after (us ++ vs) := by
    rw [Parser.after_append, Parser.after_append, Parser.after_cons, htoken]
  have hrejected : Parser.start.rejected (us ++ .tag body pos :: vs) =
      Parser.start.rejected us ++ (pos, e) :: (Parser.start.after us).rejected vs := by
    rw [Parser.rejected_append, Parser.rejected_cons, htoken]
    rfl
  refine ⟨unclosed.toList.map unclosedTag ++ (Parser.start.rejected us).map rejectedTag,
    ((Parser.start.after us).rejected vs).map rejectedTag ++
      (Parser.start.after (us ++ vs)).openBlocks.map leftOpen, (Parser.start.after (us ++ vs)).rootPage,
    ?_, ?_⟩
  · rw [parseScan_eq, hafter, hrejected]
    simp
  · rw [parseScan_eq, Parser.rejected_append]
    simp

end LayeredViews.Template
