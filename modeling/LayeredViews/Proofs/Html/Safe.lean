import LayeredViews.Html.Escape

/-!
# Safe text — HTML text in which nothing begins markup

A text is safe in content and in quoted attribute values if it has none of the characters that open or close
tags and values, and if each ampersand begins one of the five entities that stand for such characters.
Whatever is escaped is safe: `escape_safe`.
-/

namespace LayeredViews.Html

/-- The characters that open and close tags and quoted values. -/
def delimiters : List Char := ['<', '>', '"', '\'']

/-- What follows the ampersand in the five entities. -/
def entityTails : List (List Char) :=
  ["amp;".toList, "lt;".toList, "gt;".toList, "quot;".toList, "#39;".toList]

/-- Characters in which nothing begins markup. -/
structure SafeChars (cs : List Char) : Prop where
  delimiter : ∀ c ∈ cs, c ∉ delimiters
  ampersand : ∀ before after, cs = before ++ '&' :: after → ∃ tail ∈ entityTails, tail <+: after

/-- A text in which nothing begins markup. -/
def Safe (text : String) : Prop :=
  SafeChars text.toList

theorem SafeChars.nil : SafeChars [] where
  delimiter := by simp
  ampersand before after h := by cases before <;> cases h

theorem SafeChars.append {a b : List Char} (ha : SafeChars a) (hb : SafeChars b) : SafeChars (a ++ b) where
  delimiter c hc := (List.mem_append.mp hc).elim (ha.delimiter c) (hb.delimiter c)
  ampersand before after h := by
    obtain ⟨a', rfl, hafter⟩ | ⟨b', rfl, hbefore⟩ := List.append_eq_append_iff.mp h
    · exact hb.ampersand a' after hafter
    · -- the ampersand stands in the first part, or is the first one of the second
      cases b' with
      | nil => exact hb.ampersand [] after hbefore.symm
      | cons c b' =>
        obtain ⟨rfl, rfl⟩ := List.cons.inj hbefore
        obtain ⟨tail, htail, hprefix⟩ := ha.ampersand before b' rfl
        exact ⟨tail, htail, hprefix.trans (List.prefix_append b' b)⟩

theorem entityTails_plain : ∀ tail ∈ entityTails, ∀ c ∈ tail, c ≠ '&' ∧ c ∉ delimiters := by
  simp [entityTails, delimiters]

/-- An ampersand with what makes it an entity is safe. -/
theorem SafeChars.entity {tail : List Char} (h : tail ∈ entityTails) : SafeChars ('&' :: tail) where
  delimiter := by
    refine List.forall_mem_cons.mpr ⟨by decide, fun c hc => ?_⟩
    exact (entityTails_plain tail h c hc).2
  ampersand before after hsplit := by
    cases before with
    | nil =>
      obtain rfl := List.tail_eq_of_cons_eq hsplit
      exact ⟨tail, h, List.prefix_refl tail⟩
    | cons c before =>
      have hmem : '&' ∈ tail := by
        rw [List.tail_eq_of_cons_eq hsplit]
        simp
      exact absurd rfl (entityTails_plain tail h '&' hmem).1

theorem entity?_some {c : Char} {entity : String} (h : entity? c = some entity) :
    ∃ tail ∈ entityTails, entity.toList = '&' :: tail := by
  unfold entity? at h
  split at h
  · exact ⟨"amp;".toList, by simp [entityTails], by rw [← Option.some.inj h]; rfl⟩
  · exact ⟨"lt;".toList, by simp [entityTails], by rw [← Option.some.inj h]; rfl⟩
  · exact ⟨"gt;".toList, by simp [entityTails], by rw [← Option.some.inj h]; rfl⟩
  · exact ⟨"quot;".toList, by simp [entityTails], by rw [← Option.some.inj h]; rfl⟩
  · exact ⟨"#39;".toList, by simp [entityTails], by rw [← Option.some.inj h]; rfl⟩
  · cases h

/-- A character without an entity is safe as it is. -/
theorem SafeChars.plain {c : Char} (h : entity? c = none) : SafeChars [c] where
  delimiter := by
    intro d hd hdelimiter
    obtain rfl := List.mem_singleton.mp hd
    have hentities : ∀ c ∈ delimiters, entity? c ≠ none := by simp [delimiters, entity?]
    exact hentities d hdelimiter h
  ampersand before after hsplit := by
    have hmem : '&' ∈ [c] := by
      rw [hsplit]
      simp
    obtain rfl := List.mem_singleton.mp hmem
    cases h

theorem escapeChar_safe (c : Char) : SafeChars (escapeChar c) := by
  unfold escapeChar
  cases h : entity? c with
  | none => exact .plain h
  | some entity =>
    obtain ⟨tail, htail, hentity⟩ := entity?_some h
    show SafeChars entity.toList
    rw [hentity]
    exact .entity htail

theorem escapeChars_safe (cs : List Char) : SafeChars (escapeChars cs) := by
  induction cs with
  | nil => exact .nil
  | cons c cs ih => exact (escapeChar_safe c).append ih

/-- Whatever a text says, nothing in it begins markup once it is escaped. -/
theorem escape_safe (text : String) : Safe (escape text) := by
  unfold Safe
  rw [toList_escape]
  exact escapeChars_safe text.toList

end LayeredViews.Html
