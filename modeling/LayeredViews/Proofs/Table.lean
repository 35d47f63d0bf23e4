import LayeredViews.Table
import LayeredViews.Text.Order
import Mathlib.Data.List.Induction
import Mathlib.Data.List.Nodup

/-!
# Ordered tables — sorted lists of pairs with each key once

`insert` and `erase` keep a table ordered.  In an ordered table a pair stands exactly if it is found by its key
(`Ordered.mem_iff_find?`), so that there are as many pairs as keys that are found.
-/

namespace LayeredViews

namespace Table

variable {κ α : Type} {earlier : κ → κ → Bool}

/-- A strict order in which of two keys that differ one is the earlier. -/
structure KeyOrder (earlier : κ → κ → Bool) : Prop where
  irrefl : ∀ k, earlier k k = false
  trans : ∀ {a b c}, earlier a b = true → earlier b c = true → earlier a c = true
  total : ∀ {a b}, a ≠ b → earlier a b = true ∨ earlier b a = true

/-- Each key is earlier than those behind it. -/
def Ordered (earlier : κ → κ → Bool) (t : Table κ α) : Prop :=
  t.Pairwise fun e e' => earlier e.1 e'.1 = true

theorem ordered_nil : Ordered earlier ([] : Table κ α) := List.Pairwise.nil

/-- In an ordered table no key stands twice. -/
theorem Ordered.keys_nodup {t : Table κ α} (h : Ordered earlier t) (horder : KeyOrder earlier) :
    (t.map Prod.fst).Nodup := by
  refine List.pairwise_map.mpr (h.imp fun {e e'} hlt heq => ?_)
  rw [heq, horder.irrefl] at hlt
  cases hlt

variable [DecidableEq κ] {t : Table κ α} {k : κ} {v : α}

/-! ### Setting and removing -/

theorem mem_insert {e : κ × α} (h : e ∈ insert earlier k v t) : e = (k, v) ∨ e ∈ t := by
  induction t with
  | nil => exact Or.inl (List.mem_singleton.mp h)
  | cons e' t ih =>
    rw [insert] at h
    split_ifs at h
    · rcases List.mem_cons.mp h with h | h
      · exact Or.inl h
      · exact Or.inr (List.mem_cons_of_mem e' h)
    · exact List.mem_cons.mp h
    · rcases List.mem_cons.mp h with rfl | h
      · exact Or.inr List.mem_cons_self
      · exact (ih h).imp_right (List.mem_cons_of_mem e')

theorem Ordered.insert (horder : KeyOrder earlier) (h : Ordered earlier t) (k : κ) (v : α) :
    Ordered earlier (insert earlier k v t) := by
  induction t with
  | nil => exact List.pairwise_singleton _ _
  | cons e t ih =>
    obtain ⟨hfirst, hrest⟩ := List.pairwise_cons.mp h
    rw [Table.insert]
    split_ifs with hsame hbefore
    · exact List.pairwise_cons.mpr ⟨fun e' he' => hsame ▸ hfirst e' he', hrest⟩
    · refine List.pairwise_cons.mpr ⟨fun e' he' => ?_, h⟩
      rcases List.mem_cons.mp he' with rfl | he'
      · exact hbefore
      · exact horder.trans hbefore (hfirst e' he')
    · refine List.pairwise_cons.mpr ⟨fun e' he' => ?_, ih hrest⟩
      rcases mem_insert he' with rfl | he'
      · exact (horder.total hsame).resolve_right hbefore
      · exact hfirst e' he'

/-- A key behind all others is set at the end. -/
theorem insert_of_last (horder : KeyOrder earlier) (hlast : ∀ e ∈ t, earlier e.1 k = true) (v : α) :
    Table.insert earlier k v t = t ++ [(k, v)] := by
  induction t with
  | nil => rfl
  | cons e t ih =>
    obtain ⟨hfirst, hrest⟩ := List.forall_mem_cons.mp hlast
    have hne : e.1 ≠ k := fun heq => by simp [heq, horder.irrefl] at hfirst
    have hnot : ¬ earlier k e.1 = true := fun hback => by
      have hloop := horder.trans hfirst hback
      simp [horder.irrefl] at hloop
    rw [Table.insert, if_neg hne, if_neg hnot, ih hrest, List.cons_append]

/-- An ordered table is made by setting its keys one after the other. -/
theorem Ordered.foldl_insert (horder : KeyOrder earlier) {front : Table κ α} (h : Ordered earlier (front ++ t)) :
    t.foldl (fun done e => Table.insert earlier e.1 e.2 done) front = front ++ t := by
  induction t generalizing front with
  | nil => rw [List.append_nil, List.foldl_nil]
  | cons e t ih =>
    have hlast : ∀ e' ∈ front, earlier e'.1 e.1 = true := fun e' he' =>
      (List.pairwise_append.mp h).2.2 e' he' e List.mem_cons_self
    rw [List.append_cons] at h ⊢
    rw [List.foldl_cons, insert_of_last horder hlast]
    exact ih h

theorem erase_sublist (k : κ) (t : Table κ α) : (erase k t).Sublist t := by
  induction t with
  | nil => exact List.Sublist.slnil
  | cons e t ih =>
    rw [erase]
    split_ifs
    · exact ih.cons e
    · exact ih.cons_cons e

theorem Ordered.erase (h : Ordered earlier t) (k : κ) : Ordered earlier (erase k t) :=
  h.sublist (erase_sublist k t)

/-! ### Finding -/

theorem mem_of_find? (h : find? k t = some v) : (k, v) ∈ t := by
  induction t with
  | nil => cases h
  | cons e t ih =>
    rw [find?] at h
    split_ifs at h with hsame
    · obtain rfl := hsame
      obtain rfl := Option.some.inj h
      exact List.mem_cons_self
    · exact List.mem_cons_of_mem e (ih h)

theorem Ordered.mem_iff_find? (horder : KeyOrder earlier) (h : Ordered earlier t) :
    (k, v) ∈ t ↔ find? k t = some v := by
  refine ⟨fun hmem => ?_, mem_of_find?⟩
  induction t with
  | nil => cases hmem
  | cons e t ih =>
    obtain ⟨hfirst, hrest⟩ := List.pairwise_cons.mp h
    rw [find?]
    rcases List.mem_cons.mp hmem with rfl | hmem
    · rw [if_pos rfl]
    · -- the key of a later pair is not the first one
      have hne : e.1 ≠ k := by
        intro heq
        have hlt := hfirst (k, v) hmem
        rw [heq, horder.irrefl] at hlt
        cases hlt
      rw [if_neg hne]
      exact ih hrest hmem

/-- After keys have been set in any order, a key has the value that it has been set to last. -/
theorem find?_foldl_insert (earlier : κ → κ → Bool) (entries : List (κ × α)) (k : κ) :
    find? k (entries.foldl (fun t e => insert earlier e.1 e.2 t) []) = entries.reverse.lookup k := by
  induction entries using List.reverseRecOn with
  | nil => rfl
  | append_singleton entries e ih =>
    rw [List.foldl_concat, find?_insert, ih, List.reverse_concat, List.lookup_cons]
    by_cases hk : e.1 = k
    · simp [hk]
    · have hne : (k == e.1) = false := beq_eq_false_iff_ne.mpr (Ne.symm hk)
      rw [if_neg hk, hne]

end Table

/-- Texts can be keys in the order by code point. -/
theorem Text.before_order : Table.KeyOrder before where
  irrefl := before_irrefl
  trans {a b c} hab hbc :=
    decide_eq_true (String.lt_trans (of_decide_eq_true hab) (of_decide_eq_true hbc))
  total {a b} hne := by
    unfold before
    by_cases hlt : a < b
    · exact Or.inl (decide_eq_true hlt)
    · refine Or.inr (decide_eq_true (String.not_le.mp fun hle => hne ?_))
      exact String.le_antisymm hle (String.not_lt.mp hlt)

end LayeredViews
