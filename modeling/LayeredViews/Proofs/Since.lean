import Mathlib.Data.List.Basic

/-!
# Since — what has happened, and what has been so ever since

`Since P Q xs` says that `P` holds of some element of a list, and `Q` of all behind it.  One more element at the end is
either the one that `P` holds of, or leaves this as it was if `Q` holds of it (`since_concat`).
-/

namespace LayeredViews

variable {α : Type} {P Q : α → Prop} {xs : List α}

/-- Holds of some element, with the second property true of all that stand behind it. -/
def Since (P Q : α → Prop) (xs : List α) : Prop :=
  ∃ before x after, xs = before ++ x :: after ∧ P x ∧ ∀ y ∈ after, Q y

theorem not_since_nil : ¬ Since P Q [] := by
  rintro ⟨before, x, after, hsplit, -⟩
  simp at hsplit

theorem since_concat {x : α} : Since P Q (xs ++ [x]) ↔ P x ∨ (Q x ∧ Since P Q xs) := by
  constructor
  · rintro ⟨before, y, after, hsplit, hy, hafter⟩
    rcases List.eq_nil_or_concat after with rfl | ⟨after, z, rfl⟩
    · obtain rfl := List.singleton_inj.mp (List.append_inj' hsplit rfl).2
      exact Or.inl hy
    · rw [List.concat_eq_append] at hsplit hafter
      rw [← List.cons_append, ← List.append_assoc] at hsplit
      obtain ⟨rfl, hlast⟩ := List.append_inj' hsplit rfl
      obtain rfl := List.singleton_inj.mp hlast
      obtain ⟨hothers, hx⟩ := List.forall_mem_append.mp hafter
      exact Or.inr ⟨hx x List.mem_cons_self, before, y, after, rfl, hy, hothers⟩
  · rintro (hx | ⟨hx, before, y, after, rfl, hy, hafter⟩)
    · exact ⟨xs, x, [], rfl, hx, by simp⟩
    · exact ⟨before, y, after ++ [x], by simp, hy, List.forall_mem_append.mpr ⟨hafter, by simpa using hx⟩⟩

theorem Since.imp {Q' : α → Prop} (h : Since P Q xs) (hQ : ∀ x, Q x → Q' x) : Since P Q' xs := by
  obtain ⟨before, x, after, hsplit, hx, hafter⟩ := h
  exact ⟨before, x, after, hsplit, hx, fun y hy => hQ y (hafter y hy)⟩

end LayeredViews
