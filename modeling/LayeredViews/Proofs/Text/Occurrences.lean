import Mathlib.Data.List.Infix

/-!
# Occurrences — the places of a text at which a word begins

`occurrences` lists what a text says from each such place on, so that a statement about it says how often the
word stands in the text, in which order, and what follows it there.  A part of the text in which the word
never begins, whatever comes behind that part, can be passed over (`Apart`).
-/

namespace LayeredViews.Text

variable {word a : List Char} {c : Char}

/-- What a text says from each place on at which a word begins, from the left. -/
def occurrences (word cs : List Char) : List (List Char) :=
  cs.tails.filter fun t => word.isPrefixOf t

/-- The word begins nowhere in the text, whatever follows the text. -/
def Apart (word : List Char) : List Char → Prop
  | [] => True
  | c :: cs => (∀ more, ¬ word <+: c :: (cs ++ more)) ∧ Apart word cs

theorem occurrences_cons_of_starts {cs : List Char} (h : word <+: c :: cs) :
    occurrences word (c :: cs) = (c :: cs) :: occurrences word cs := by
  have hbool : word.isPrefixOf (c :: cs) = true := List.isPrefixOf_iff_prefix.mpr h
  simp [occurrences, hbool]

theorem occurrences_cons_of_not_starts {cs : List Char} (h : ¬ word <+: c :: cs) :
    occurrences word (c :: cs) = occurrences word cs := by
  have hbool : word.isPrefixOf (c :: cs) = false := by
    rw [Bool.eq_false_iff, ne_eq, List.isPrefixOf_iff_prefix]
    exact h
  simp [occurrences, hbool]

theorem occurrences_nil (h : word ≠ []) : occurrences word [] = [] := by
  cases word with
  | nil => exact absurd rfl h
  | cons c word => rfl

/-! ### Passing over -/

/-- A word cannot begin where its first character does not stand. -/
theorem Apart.of_notMem (h : c ∉ a) : Apart (c :: word) a := by
  induction a with
  | nil => trivial
  | cons d a ih =>
    refine ⟨fun more hprefix => ?_, ih fun hmem => h (List.mem_cons_of_mem d hmem)⟩
    obtain ⟨rfl, -⟩ := List.cons_prefix_cons.mp hprefix
    exact h List.mem_cons_self

/-- Whether a word is apart from a text can be seen from the two of them. -/
theorem Apart.of_tails (h : ∀ t ∈ a.tails, t ≠ [] → ¬ t <+: word ∧ ¬ word <+: t) : Apart word a := by
  induction a with
  | nil => trivial
  | cons c a ih =>
    rw [List.tails_cons] at h
    obtain ⟨hhere, hrest⟩ := List.forall_mem_cons.mp h
    obtain ⟨hshort, hlong⟩ := hhere (List.cons_ne_nil c a)
    refine ⟨fun more hprefix => ?_, ih hrest⟩
    exact (List.prefix_or_prefix_of_prefix hprefix (List.prefix_append (c :: a) more)).elim hlong hshort

theorem occurrences_append (h : Apart word a) (more : List Char) :
    occurrences word (a ++ more) = occurrences word more := by
  induction a with
  | nil => rfl
  | cons c a ih => rw [List.cons_append, occurrences_cons_of_not_starts (h.1 more), ih h.2]

/-- A word whose first character comes once in it begins where it stands, and then again only behind it. -/
theorem occurrences_self_append (h : c ∉ word) (more : List Char) :
    occurrences (c :: word) (c :: (word ++ more)) =
      (c :: (word ++ more)) :: occurrences (c :: word) more := by
  have hbegins : c :: word <+: c :: (word ++ more) := List.prefix_append (c :: word) more
  rw [occurrences_cons_of_starts hbegins, occurrences_append (Apart.of_notMem h)]

end LayeredViews.Text
