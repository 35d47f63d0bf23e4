/-!
# Tables — finite maps kept as sorted lists of pairs

Keys are compared by a strict order `earlier`; `insert` keeps the list sorted and each key once, so
that two tables with the same entries are the same list.  `find?_insert` and `find?_erase` say what
the two operations do to `find?`.
-/

namespace LayeredViews

abbrev Table (κ α : Type) := List (κ × α)

namespace Table

variable {κ α : Type} [DecidableEq κ]

/-- The value of a key. -/
def find? (k : κ) : Table κ α → Option α
  | [] => none
  | e :: t => if e.1 = k then some e.2 else find? k t

/-- Sets the value of a key, replacing an earlier one. -/
def insert (earlier : κ → κ → Bool) (k : κ) (v : α) : Table κ α → Table κ α
  | [] => [(k, v)]
  | e :: t =>
    if e.1 = k then (k, v) :: t
    else if earlier k e.1 then (k, v) :: e :: t
    else e :: insert earlier k v t

/-- Removes a key. -/
def erase (k : κ) : Table κ α → Table κ α
  | [] => []
  | e :: t => if e.1 = k then erase k t else e :: erase k t

@[simp] theorem find?_nil (k : κ) : find? k ([] : Table κ α) = none := rfl

theorem find?_insert (earlier : κ → κ → Bool) (k k' : κ) (v : α) (t : Table κ α) :
    find? k' (insert earlier k v t) = if k = k' then some v else find? k' t := by
  induction t with
  | nil => simp [insert, find?]
  | cons e t ih =>
    rw [insert]
    split
    · next he => subst he; simp only [find?]; split <;> rfl
    · next he =>
      split
      · simp only [find?]
      · simp only [find?, ih]
        by_cases hk : e.1 = k'
        · have hne : k ≠ k' := fun h => he (hk.trans h.symm)
          simp [hk, hne]
        · simp [hk]

theorem find?_erase (k k' : κ) (t : Table κ α) :
    find? k' (erase k t) = if k = k' then none else find? k' t := by
  induction t with
  | nil => simp [erase]
  | cons e t ih =>
    rw [erase]
    split
    · next he => subst he; rw [ih]; simp only [find?]; split <;> rfl
    · next he =>
      simp only [find?, ih]
      by_cases hk : e.1 = k'
      · have hne : k ≠ k' := fun h => he (hk.trans h.symm)
        simp [hk, hne]
      · simp [hk]

end Table

end LayeredViews
