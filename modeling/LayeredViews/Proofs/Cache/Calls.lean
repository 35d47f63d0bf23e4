import LayeredViews.PageCache
import LayeredViews.Proofs.Since
import LayeredViews.Proofs.Table
import Mathlib.Data.Finset.Card
import Mathlib.Data.List.Induction

/-!
# Calls of a cache — what it answers after any of them

Asking a cache may change it: an entry whose digest is not the one asked for goes.  So the answer to a call depends
on all calls before it that concern its template, whether they write or ask.  An entry stands exactly if some call has
put it there and every call since has spared it (`entry?_after_iff`); `hit_law` says this of the answers.
-/

namespace LayeredViews.PageCache

variable {α : Type}

/-- A call of a cache. -/
inductive Call (α : Type) where
  | insert (template digest : String) (page : α)
  | get (template digest : String)
  | invalidate (template : String)
  | clear

namespace Call

/-- The cache after a call. -/
def apply (cache : PageCache α) : Call α → PageCache α
  | .insert template digest page => cache.insert template digest page
  | .get template digest => (cache.get template digest).2
  | .invalidate template => cache.invalidate template
  | .clear => cache.clear

/-- The call is about the template, or about all of them. -/
def concerns (template : String) : Call α → Bool
  | .insert other _ _ => other == template
  | .get other _ => other == template
  | .invalidate other => other == template
  | .clear => true

/-- The call inserts a page for the template. -/
def Inserts (template : String) : Call α → Prop
  | .insert other _ _ => other = template
  | _ => False

/-- The call leaves an entry alone that the template has with the digest: it inserts no other, does not drop it, and
does not ask for the template with another digest. -/
def Spares (template digest : String) (call : Call α) : Prop :=
  ¬ call.Inserts template ∧ call ≠ .invalidate template ∧ call ≠ .clear ∧ ∀ other ≠ digest, call ≠ .get template other

end Call

/-- The cache after some calls, which was empty before them. -/
def after (calls : List (Call α)) : PageCache α :=
  calls.foldl Call.apply empty

variable {calls : List (Call α)} {template digest : String} {entry : CacheEntry α}

@[simp] theorem after_nil : after ([] : List (Call α)) = empty := rfl

theorem after_concat (calls : List (Call α)) (call : Call α) :
    after (calls ++ [call]) = call.apply (after calls) := by
  simp [after]

/-! ### One call -/

namespace Call

variable {cache : PageCache α} {call : Call α}

/-- After a call a template has the entry that the call inserts, or one that it had before and that is spared. -/
theorem entry?_apply_iff :
    entry? (call.apply cache) template = some entry ↔
      call = .insert template entry.digest entry.page ∨
        (call.Spares template entry.digest ∧ cache.entry? template = some entry) := by
  cases call with
  | insert other digest page =>
    rw [apply, entry?_insert]
    by_cases hsame : other = template
    · obtain ⟨recorded, kept⟩ := entry
      simp [hsame, Spares, Inserts]
    · simp [hsame, Spares, Inserts]
  | get other asked =>
    rw [apply, entry?_get]
    by_cases hsame : other = template
    · simp only [hsame, if_true, Option.filter_eq_some_iff, Spares, Inserts]
      grind
    · simp [hsame, Spares, Inserts]
  | invalidate other =>
    rw [apply, entry?_invalidate]
    by_cases hsame : other = template <;> simp [hsame, Spares, Inserts]
  | clear => simp [apply, Spares]

/-- A call that is not about a template leaves its entry as it is. -/
theorem entry?_apply_of_not_concerns (h : call.concerns template = false) :
    entry? (call.apply cache) template = cache.entry? template := by
  cases call with
  | insert other digest page => simp_all [apply, concerns, entry?_insert]
  | get other asked => simp_all [apply, concerns, entry?_get]
  | invalidate other => simp_all [apply, concerns, entry?_invalidate]
  | clear => cases h

/-- What a call leaves of a template's entry depends on that entry alone. -/
theorem entry?_apply_congr {cache' : PageCache α} (h : cache.entry? template = cache'.entry? template) :
    entry? (call.apply cache) template = entry? (call.apply cache') template := by
  cases call with
  | insert other digest page => simp only [apply, entry?_insert, h]
  | get other asked => simp only [apply, entry?_get, h]
  | invalidate other => simp only [apply, entry?_invalidate, h]
  | clear => rfl

theorem apply_ordered (h : Table.Ordered Text.before cache.entries) :
    Table.Ordered Text.before (call.apply cache).entries := by
  cases call with
  | insert other digest page => exact h.insert Text.before_order other ⟨digest, page⟩
  | get other asked =>
    rw [apply, PageCache.get]
    split
    · exact h
    · split_ifs
      · exact h
      · exact h.erase other
  | invalidate other => exact h.erase other
  | clear => exact Table.ordered_nil

end Call

/-! ### All calls -/

theorem entry?_after_iff :
    entry? (after calls) template = some entry ↔
      Since (· = .insert template entry.digest entry.page) (Call.Spares template entry.digest) calls := by
  induction calls using List.reverseRecOn with
  | nil => simp [not_since_nil]
  | append_singleton calls call ih => rw [after_concat, Call.entry?_apply_iff, since_concat, ih]

/-- The entry of a template is what the calls that concern the template have made of it. -/
theorem entry?_after_filter (calls : List (Call α)) (template : String) :
    entry? (after (calls.filter (Call.concerns template))) template = entry? (after calls) template := by
  induction calls using List.reverseRecOn with
  | nil => rfl
  | append_singleton calls call ih =>
    rw [List.filter_append, after_concat]
    by_cases hconcerns : call.concerns template = true
    · rw [List.filter_cons_of_pos hconcerns, List.filter_nil, after_concat]
      exact Call.entry?_apply_congr ih
    · rw [List.filter_cons_of_neg hconcerns, List.filter_nil, List.append_nil, ih,
        Call.entry?_apply_of_not_concerns (Bool.eq_false_iff.mpr hconcerns)]

theorem after_ordered (calls : List (Call α)) : Table.Ordered Text.before (after calls).entries := by
  induction calls using List.reverseRecOn with
  | nil => exact Table.ordered_nil
  | append_singleton calls call ih =>
    rw [after_concat]
    exact Call.apply_ordered ih

/-- There are as many entries as templates that have one. -/
theorem exists_card_eq_size (calls : List (Call α)) :
    ∃ templates : Finset String, (after calls).size = templates.card ∧
      ∀ template, template ∈ templates ↔ ∃ entry, entry? (after calls) template = some entry := by
  have hordered := after_ordered calls
  have hnodup := hordered.keys_nodup Text.before_order
  refine ⟨((after calls).entries.map Prod.fst).toFinset, ?_, fun template => ?_⟩
  · rw [List.toFinset_card_of_nodup hnodup, List.length_map]
    rfl
  · simp only [List.mem_toFinset, List.mem_map, Prod.exists, exists_and_right, exists_eq_right]
    exact exists_congr fun entry => hordered.mem_iff_find? Text.before_order

/-- When a cache has what it is asked for: that page has been inserted for the template with that digest, and since
then no page has been inserted for it, it has not been invalidated, the cache has not been cleared, and the template has
not been asked for with another digest.  Calls about other templates do not count, and the size of a cache is the number
of templates that it has with the digest that they have been inserted with last. -/
theorem hit_law (calls : List (Call α)) :
    (∀ template digest page, ((after calls).get template digest).1 = some page ↔
      Since (· = .insert template digest page) (Call.Spares template digest) calls) ∧
    (∀ template digest, ((after (calls.filter (Call.concerns template))).get template digest).1 =
      ((after calls).get template digest).1) ∧
    ∃ hits : Finset String, (after calls).size = hits.card ∧ ∀ template, template ∈ hits ↔
      ∃ digest page, Since (· = .insert template digest page) (fun call => ¬ call.Inserts template) calls ∧
        ((after calls).get template digest).1.isSome = true := by
  refine ⟨fun template digest page => ?_, fun template digest => ?_, ?_⟩
  · rw [get_eq_some_iff, entry?_after_iff]
  · ext page
    rw [get_eq_some_iff, get_eq_some_iff, entry?_after_filter]
  · obtain ⟨templates, hsize, hmem⟩ := exists_card_eq_size calls
    refine ⟨templates, hsize, fun template => (hmem template).trans ⟨?_, ?_⟩⟩
    · rintro ⟨⟨digest, page⟩, hentry⟩
      have hlatest := (entry?_after_iff.mp hentry).imp fun call hspares => hspares.1
      exact ⟨digest, page, hlatest, Option.isSome_iff_exists.mpr ⟨page, get_eq_some_iff.mpr hentry⟩⟩
    · rintro ⟨digest, page, -, hsome⟩
      obtain ⟨found, hfound⟩ := Option.isSome_iff_exists.mp hsome
      exact ⟨_, get_eq_some_iff.mp hfound⟩

end LayeredViews.PageCache
