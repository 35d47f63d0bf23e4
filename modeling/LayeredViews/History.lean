/-!
# Histories — what has happened, one after the other

A history only grows, at its end.  `toList` tells it in order; it is kept in reverse, so that
`push` costs the same however long the history is.
-/

namespace LayeredViews

structure History (α : Type) where
  /-- The latest one first. -/
  backwards : List α
deriving DecidableEq, Repr

namespace History

variable {α : Type}

def empty : History α := ⟨[]⟩

/-- All that has happened, in order. -/
def toList (h : History α) : List α := h.backwards.reverse

def push (h : History α) (a : α) : History α := ⟨a :: h.backwards⟩

@[simp] theorem toList_empty : (empty : History α).toList = [] := rfl

@[simp] theorem toList_push (h : History α) (a : α) : (h.push a).toList = h.toList ++ [a] := by
  simp [toList, push]

end History

end LayeredViews
