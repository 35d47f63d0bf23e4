/-!
# Splitting — a text cut at chosen characters

`cut?` cuts at the first character of a class, `pieces` at every one; neither keeps the characters
it cuts at.  `joinWith` puts pieces back together around one character, and `dropEnd?` takes a given
ending off.
-/

namespace LayeredViews.Text

/-- What stands before and after the first character that satisfies `p`. -/
def cut? (p : Char → Bool) : List Char → Option (List Char × List Char)
  | [] => none
  | c :: cs => if p c then some ([], cs) else (cut? p cs).map fun r => (c :: r.1, r.2)

/-- What stands before and after the last character that satisfies `p`. -/
def cutLast? (p : Char → Bool) (cs : List Char) : Option (List Char × List Char) :=
  (cut? p cs.reverse).map fun r => (r.2.reverse, r.1.reverse)

/-- Puts one character in front of the first piece. -/
def consPiece (c : Char) : List (List Char) → List (List Char)
  | [] => [[c]]
  | w :: ws => (c :: w) :: ws

/-- The pieces between the characters that satisfy `p`; one more than there are such characters. -/
def pieces (p : Char → Bool) : List Char → List (List Char)
  | [] => [[]]
  | c :: cs => if p c then [] :: pieces p cs else consPiece c (pieces p cs)

/-- The pieces that hold a character. -/
def words (p : Char → Bool) (cs : List Char) : List (List Char) :=
  (pieces p cs).filter fun w => !w.isEmpty

/-- The pieces one after the other with `sep` between them. -/
def joinWith (sep : Char) : List (List Char) → List Char
  | [] => []
  | [w] => w
  | w :: ws => w ++ sep :: joinWith sep ws

/-- What is left of a text after a given beginning. -/
def dropStart? : List Char → List Char → Option (List Char)
  | [], cs => some cs
  | _ :: _, [] => none
  | a :: as, c :: cs => if a = c then dropStart? as cs else none

/-- What is left of a text before a given ending. -/
def dropEnd? (ending cs : List Char) : Option (List Char) :=
  (dropStart? ending.reverse cs.reverse).map List.reverse

@[simp] theorem cut?_nil (p : Char → Bool) : cut? p [] = none := rfl

@[simp] theorem pieces_nil (p : Char → Bool) : pieces p [] = [[]] := rfl

theorem cut?_eq_some {p : Char → Bool} {cs a b : List Char} (h : cut? p cs = some (a, b)) :
    ∃ c, p c = true ∧ cs = a ++ c :: b ∧ ∀ x ∈ a, p x = false := by
  induction cs generalizing a with
  | nil => simp at h
  | cons c cs ih =>
    by_cases hc : p c = true
    · simp only [cut?, hc, if_true, Option.some.injEq, Prod.mk.injEq] at h
      obtain ⟨rfl, rfl⟩ := h
      exact ⟨c, hc, rfl, by simp⟩
    · rw [cut?, if_neg hc, Option.map_eq_some_iff] at h
      obtain ⟨⟨a', b'⟩, hr, he⟩ := h
      simp only [Prod.mk.injEq] at he
      obtain ⟨rfl, rfl⟩ := he
      obtain ⟨d, hd, rfl, hx⟩ := ih hr
      refine ⟨d, hd, rfl, fun x hx' => ?_⟩
      rcases List.mem_cons.mp hx' with rfl | hx'
      · simpa using hc
      · exact hx x hx'

theorem dropStart?_append (a cs : List Char) : dropStart? a (a ++ cs) = some cs := by
  induction a with
  | nil => rfl
  | cons c a ih => simp [dropStart?, ih]

end LayeredViews.Text
