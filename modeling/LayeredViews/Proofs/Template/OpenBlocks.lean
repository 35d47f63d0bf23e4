import LayeredViews.Proofs.Template.Grammar
import Mathlib.Data.List.Induction

/-!
# Open blocks — which blocks some tokens leave open

A token leaves the open blocks of a parser as they are, opens one more, or closes the innermost one
(`openBlocks_token`).  A block is left open by tokens if from its tag on there are always more blocks open than
in front of that tag (`LeavesOpen`), and these are the blocks that a parser has open at the end.
-/

namespace LayeredViews.Template

open Text (Position)

/-! ### Running over tokens -/

namespace Parser

/-- The parser behind some tokens. -/
def after (p : Parser) (ts : List Token) : Parser := (p.tokens ts).1

/-- The places and the faults of the tags that are rejected, in order. -/
def rejected (p : Parser) (ts : List Token) : List (Position × TagError) := (p.tokens ts).2

/-- The open blocks with the places where they were opened, the innermost one first. -/
def openBlocks (p : Parser) : List (BlockKind × Position) :=
  p.frames.map fun f => (f.block.kind, f.opened)

variable {p q : Parser} {t : Token} {ts : List Token} {body : String} {pos : Position} {e : TagError}

@[simp] theorem after_nil (p : Parser) : p.after [] = p := rfl

theorem after_cons (p : Parser) (t : Token) (ts : List Token) : p.after (t :: ts) = (p.token t).1.after ts := rfl

theorem rejected_cons (p : Parser) (t : Token) (ts : List Token) :
    p.rejected (t :: ts) = (p.token t).2.toList ++ (p.token t).1.rejected ts := rfl

theorem after_append (p : Parser) (us vs : List Token) : p.after (us ++ vs) = (p.after us).after vs := by
  induction us generalizing p with
  | nil => rfl
  | cons u us ih => exact ih (p.token u).1

theorem rejected_append (p : Parser) (us vs : List Token) :
    p.rejected (us ++ vs) = p.rejected us ++ (p.after us).rejected vs := by
  induction us generalizing p with
  | nil => rfl
  | cons u us ih => rw [List.cons_append, rejected_cons, rejected_cons, after_cons, ih, List.append_assoc]

theorem token_of_error (h : p.tag body pos = .error e) : p.token (.tag body pos) = (p, some (pos, e)) := by
  simp [token, h]

theorem token_of_ok (h : p.tag body pos = .ok q) : p.token (.tag body pos) = (q, none) := by
  simp [token, h]

/-! ### One token -/

/-- What a tag makes of the open blocks. -/
inductive FrameStep (p : Parser) (pos : Position) (t : Tag) : List Frame → Prop where
  | same : FrameStep p pos t p.frames
  | opened {f : Frame} (place : f.opened = pos)
    (binding : ∀ name ∈ f.block.binding?, ∃ source, t = .openEach source name) : FrameStep p pos t (f :: p.frames)
  | turned {test : Expr} {yes : Page} {opened : Position} {outer : Draft} {frames : List Frame}
    (top : p.frames = ⟨.cond test none, opened, outer⟩ :: frames) :
    FrameStep p pos t (⟨.cond test (some yes), opened, outer⟩ :: frames)
  | closed {f : Frame} {frames : List Frame} (top : p.frames = f :: frames) : FrameStep p pos t frames

theorem frameStep_of_ok {t : Tag} (h : p.apply pos t = .ok q) : FrameStep p pos t q.frames := by
  cases t with
  | otherwise =>
    obtain ⟨test, opened, outer, frames, htop, rfl⟩ := otherwise_ok h
    exact .turned htop
  | close kind =>
    obtain ⟨f, frames, htop, -, rfl⟩ := close_ok h
    exact .closed htop
  | openCond test =>
    obtain rfl := Except.ok.inj h
    exact .opened rfl (by simp [Block.binding?])
  | openEach source binding =>
    obtain rfl := Except.ok.inj h
    exact .opened rfl (by simp [Block.binding?])
  | _ =>
    obtain rfl := Except.ok.inj h
    exact .same

/-- A tag that is taken leaves the open blocks as they are, opens one, or closes the innermost one. -/
theorem openBlocks_of_ok (h : p.tag body pos = .ok q) :
    q.openBlocks = p.openBlocks ∨ (∃ kind, q.openBlocks = (kind, pos) :: p.openBlocks) ∨
      ∃ b, p.openBlocks = b :: q.openBlocks := by
  obtain ⟨t, -, happly⟩ := tag_ok_iff.mp h
  have hstep := frameStep_of_ok happly
  unfold openBlocks
  generalize q.frames = frames at hstep ⊢
  cases hstep with
  | same => exact Or.inl rfl
  | @opened f place => exact Or.inr (Or.inl ⟨f.block.kind, by rw [List.map_cons, place]⟩)
  | turned top =>
    rw [top]
    exact Or.inl rfl
  | closed top =>
    rw [top]
    exact Or.inr (Or.inr ⟨_, rfl⟩)

/-- So does every token. -/
theorem openBlocks_token (p : Parser) (t : Token) :
    (p.token t).1.openBlocks = p.openBlocks ∨
      (∃ body kind pos, t = .tag body pos ∧ (p.token t).1.openBlocks = (kind, pos) :: p.openBlocks) ∨
      ∃ b, p.openBlocks = b :: (p.token t).1.openBlocks := by
  cases t with
  | text content => exact Or.inl rfl
  | tag body pos =>
    cases htag : p.tag body pos with
    | error e =>
      rw [token_of_error htag]
      exact Or.inl rfl
    | ok q =>
      rw [token_of_ok htag]
      rcases openBlocks_of_ok htag with hsame | ⟨kind, hopened⟩ | hclosed
      · exact Or.inl hsame
      · exact Or.inr (Or.inl ⟨body, kind, pos, rfl, hopened⟩)
      · exact Or.inr (Or.inr hclosed)

/-! ### Blocks left open -/

/-- A block is opened by a tag in front of which the blocks `around` are open, and no later tag closes it:
from then on there are always more blocks open than those. -/
def LeavesOpenIn (around : List (BlockKind × Position)) (ts : List Token) (b : BlockKind × Position) : Prop :=
  ∃ us body vs, ts = us ++ .tag body b.2 :: vs ∧ (start.after us).openBlocks = around ∧
    (start.after (us ++ [.tag body b.2])).openBlocks = b :: around ∧
    ∀ ws, ws <+: vs → around.length < (start.after (us ++ .tag body b.2 :: ws)).openBlocks.length

/-- A block is opened by a tag at its place, and no later tag closes it. -/
def LeavesOpen (ts : List Token) (b : BlockKind × Position) : Prop :=
  ∃ around, LeavesOpenIn around ts b

variable {b : BlockKind × Position} {around : List (BlockKind × Position)}

theorem after_concat (p : Parser) (ts : List Token) (t : Token) :
    p.after (ts ++ [t]) = ((p.after ts).token t).1 := by
  rw [after_append]
  rfl

/-- A block stays open under a token behind which there are still more open blocks than around it. -/
theorem suffix_token (h : b :: around <:+ p.openBlocks)
    (hlength : around.length < (p.token t).1.openBlocks.length) : b :: around <:+ (p.token t).1.openBlocks := by
  rcases openBlocks_token p t with hsame | ⟨body, kind, pos, -, hopened⟩ | ⟨closed, hclosed⟩
  · rwa [hsame]
  · rw [hopened]
    exact h.trans (List.suffix_cons _ _)
  · rw [hclosed] at h
    rcases List.suffix_cons_iff.mp h with heq | hsuffix
    · obtain ⟨-, rfl⟩ := List.cons_eq_cons.mp heq
      exact absurd hlength (Nat.lt_irrefl _)
    · exact hsuffix

/-- A block that a tag leaves open is open at the end. -/
theorem LeavesOpenIn.suffix (h : LeavesOpenIn around ts b) : b :: around <:+ (start.after ts).openBlocks := by
  obtain ⟨us, body, vs, rfl, -, hopens, hstays⟩ := h
  have hsuffix : ∀ ws, ws <+: vs → b :: around <:+ (start.after (us ++ .tag body b.2 :: ws)).openBlocks := by
    intro ws
    induction ws using List.reverseRecOn with
    | nil => exact fun _ => hopens ▸ List.suffix_rfl
    | append_singleton ws t ih =>
      intro hws
      have hconcat : us ++ .tag body b.2 :: (ws ++ [t]) = (us ++ .tag body b.2 :: ws) ++ [t] := by simp
      have hlength := hstays _ hws
      rw [hconcat, after_concat] at hlength ⊢
      exact suffix_token (ih ((List.prefix_append ws [t]).trans hws)) hlength
  exact hsuffix vs (List.prefix_refl vs)

theorem LeavesOpenIn.concat (h : LeavesOpenIn around ts b)
    (hlength : around.length < (start.after (ts ++ [t])).openBlocks.length) :
    LeavesOpenIn around (ts ++ [t]) b := by
  obtain ⟨us, body, vs, rfl, haround, hopens, hstays⟩ := h
  refine ⟨us, body, vs ++ [t], by simp, haround, hopens, fun ws hws => ?_⟩
  rcases List.prefix_concat_iff.mp hws with rfl | hws
  · simpa using hlength
  · exact hstays ws hws

/-- A block that is open at the end was left open by its tag. -/
theorem leavesOpenIn_of_suffix (h : b :: around <:+ (start.after ts).openBlocks) :
    LeavesOpenIn around ts b := by
  induction ts using List.reverseRecOn with
  | nil => simp [start, openBlocks] at h
  | append_singleton ts t ih =>
    have hlength : around.length < (start.after (ts ++ [t])).openBlocks.length := h.length_le
    rw [after_concat] at h
    rcases openBlocks_token (start.after ts) t with hsame | ⟨body, kind, pos, rfl, hopened⟩ | ⟨closed, hclosed⟩
    · exact (ih (hsame ▸ h)).concat hlength
    · rw [hopened] at h
      rcases List.suffix_cons_iff.mp h with heq | hsuffix
      · -- the block that this token opens
        obtain ⟨rfl, rfl⟩ := List.cons_eq_cons.mp heq
        refine ⟨ts, body, [], rfl, rfl, ?_, fun ws hws => ?_⟩
        · rw [after_concat, hopened]
        · obtain rfl := List.prefix_nil.mp hws
          exact hlength
      · exact (ih hsuffix).concat hlength
    · exact (ih (hclosed ▸ h.trans (List.suffix_cons _ _))).concat hlength

theorem mem_openBlocks_iff : b ∈ (start.after ts).openBlocks ↔ LeavesOpen ts b := by
  constructor
  · intro h
    obtain ⟨front, around, hsplit⟩ := List.append_of_mem h
    exact ⟨around, leavesOpenIn_of_suffix ⟨front, hsplit.symm⟩⟩
  · rintro ⟨around, h⟩
    exact h.suffix.subset List.mem_cons_self

end Parser

end LayeredViews.Template
