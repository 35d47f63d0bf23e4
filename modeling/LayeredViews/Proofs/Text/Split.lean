import LayeredViews.Proofs.Text.Trimming
import LayeredViews.Text.Split

/-!
# Splitting, exactly — when a text is cut and into what

Each function on texts is matched with the concatenation that it undoes, in both directions where
there are two.
-/

namespace LayeredViews.Text

variable {p : Char → Bool} {a b cs : List Char} {c : Char}

/-! ### One cut -/

theorem cut?_append (ha : ∀ x ∈ a, p x = false) (hc : p c = true) :
    cut? p (a ++ c :: b) = some (a, b) := by
  induction a with
  | nil => simp [cut?, hc]
  | cons x a ih =>
    have hx : p x = false := ha x (by simp)
    rw [List.cons_append, cut?, hx, ih fun y hy => ha y (by simp [hy])]
    rfl

theorem cut?_eq_none (h : ∀ x ∈ cs, p x = false) : cut? p cs = none := by
  induction cs with
  | nil => rfl
  | cons c cs ih =>
    have hc : p c = false := h c (by simp)
    rw [cut?, hc, ih fun x hx => h x (by simp [hx])]
    rfl

theorem not_of_cut?_eq_none (h : cut? p cs = none) : ∀ x ∈ cs, p x = false := by
  induction cs with
  | nil => simp
  | cons c cs ih =>
    rw [cut?] at h
    split at h
    · cases h
    · next hc => exact List.forall_mem_cons.mpr ⟨by simpa using hc, ih (Option.map_eq_none_iff.mp h)⟩

theorem cut?_beq_iff {sep : Char} :
    cut? (· == sep) cs = some (a, b) ↔ cs = a ++ sep :: b ∧ sep ∉ a := by
  constructor
  · intro h
    obtain ⟨c, hc, rfl, ha⟩ := cut?_eq_some h
    obtain rfl := eq_of_beq hc
    refine ⟨rfl, fun hmem => ?_⟩
    simpa using ha c hmem
  · rintro ⟨rfl, ha⟩
    refine cut?_append (fun x hx => ?_) (beq_self_eq_true sep)
    exact beq_eq_false_iff_ne.mpr fun he => ha (he ▸ hx)

/-- There is one way to read a text up to a word with whose first character it can be cut. -/
theorem append_word_inj {sep : Char} {word x y : List Char} (ha : sep ∉ a) (hb : sep ∉ b)
    (h : a ++ (word ++ x) = b ++ (word ++ y)) (hword : word.head? = some sep) : a = b ∧ x = y := by
  obtain ⟨more, rfl⟩ := List.head?_eq_some_iff.mp hword
  have hleft : cut? (· == sep) (a ++ sep :: (more ++ x)) = some (a, more ++ x) := cut?_beq_iff.mpr ⟨rfl, ha⟩
  have hright : cut? (· == sep) (a ++ sep :: (more ++ x)) = some (b, more ++ y) := cut?_beq_iff.mpr ⟨h, hb⟩
  obtain ⟨hfront, hrest⟩ := Prod.mk.inj (Option.some.inj (hleft.symm.trans hright))
  exact ⟨hfront, List.append_cancel_left hrest⟩

theorem cutLast?_append (hb : ∀ x ∈ b, p x = false) (hc : p c = true) :
    cutLast? p (a ++ c :: b) = some (a, b) := by
  have hreverse : (a ++ c :: b).reverse = b.reverse ++ c :: a.reverse := by simp
  unfold cutLast?
  rw [hreverse, cut?_append (fun x hx => hb x (List.mem_reverse.mp hx)) hc]
  simp

theorem cutLast?_eq_some (h : cutLast? p cs = some (a, b)) :
    ∃ c, p c = true ∧ cs = a ++ c :: b ∧ ∀ x ∈ b, p x = false := by
  obtain ⟨⟨b', a'⟩, hcut, heq⟩ := Option.map_eq_some_iff.mp h
  obtain ⟨rfl, rfl⟩ := Prod.mk.inj heq
  obtain ⟨c, hc, hcs, hb⟩ := cut?_eq_some hcut
  refine ⟨c, hc, ?_, fun x hx => hb x (List.mem_reverse.mp hx)⟩
  rw [← List.reverse_reverse cs, hcs]
  simp

/-! ### Beginnings and endings -/

theorem dropStart?_eq_some (h : dropStart? a cs = some b) : cs = a ++ b := by
  induction a generalizing cs with
  | nil => exact Option.some.inj h
  | cons x a ih =>
    cases cs with
    | nil => cases h
    | cons c cs =>
      rw [dropStart?] at h
      split at h
      · next hx => rw [ih h, hx, List.cons_append]
      · cases h

theorem dropEnd?_iff : dropEnd? b cs = some a ↔ cs = a ++ b := by
  unfold dropEnd?
  rw [Option.map_eq_some_iff]
  constructor
  · rintro ⟨r, hr, rfl⟩
    have h := congrArg List.reverse (dropStart?_eq_some hr)
    rwa [List.reverse_reverse, List.reverse_append, List.reverse_reverse] at h
  · rintro rfl
    refine ⟨a.reverse, ?_, List.reverse_reverse a⟩
    rw [List.reverse_append]
    exact dropStart?_append b.reverse a.reverse

/-! ### Pieces -/

theorem pieces_ne_nil (p : Char → Bool) (cs : List Char) : pieces p cs ≠ [] := by
  cases cs with
  | nil => simp
  | cons c cs =>
    rw [pieces]
    split
    · simp
    · cases pieces p cs <;> simp [consPiece]

theorem joinWith_consPiece (sep : Char) {ws : List (List Char)} (hne : ws ≠ []) :
    joinWith sep (consPiece c ws) = c :: joinWith sep ws := by
  rcases ws with _ | ⟨w, _ | ⟨w', ws⟩⟩
  · exact absurd rfl hne
  · rfl
  · rfl

theorem joinWith_pieces (sep : Char) (cs : List Char) :
    joinWith sep (pieces (· == sep) cs) = cs := by
  induction cs with
  | nil => rfl
  | cons c cs ih =>
    have hne := pieces_ne_nil (· == sep) cs
    rw [pieces]
    split
    · next hc =>
      obtain rfl := eq_of_beq hc
      rcases hws : pieces (· == c) cs with _ | ⟨w, ws⟩
      · exact absurd hws hne
      · rw [hws] at ih
        rw [joinWith, ih, List.nil_append]
        simp
    · rw [joinWith_consPiece sep hne, ih]

theorem pieces_append {w : List Char} (hw : ∀ x ∈ w, p x = false) (hc : p c = true) :
    pieces p (w ++ c :: cs) = w :: pieces p cs := by
  induction w with
  | nil => simp [pieces, hc]
  | cons x w ih =>
    have hx : p x = false := hw x (by simp)
    rw [List.cons_append, pieces, hx, ih fun y hy => hw y (by simp [hy])]
    rfl

theorem consPiece_append {ws vs : List (List Char)} (hne : ws ≠ []) :
    consPiece c (ws ++ vs) = consPiece c ws ++ vs := by
  cases ws with
  | nil => exact absurd rfl hne
  | cons w ws => rfl

theorem pieces_append_cons (a b : List Char) (hc : p c = true) :
    pieces p (a ++ c :: b) = pieces p a ++ pieces p b := by
  induction a with
  | nil => simp [pieces, hc]
  | cons x a ih =>
    rw [List.cons_append, pieces, pieces, ih]
    split
    · rfl
    · exact consPiece_append (pieces_ne_nil p a)

theorem not_of_mem_pieces {w : List Char} (hw : w ∈ pieces p cs) : ∀ x ∈ w, p x = false := by
  induction cs generalizing w with
  | nil =>
    obtain rfl := List.mem_singleton.mp hw
    simp
  | cons c cs ih =>
    rw [pieces] at hw
    split at hw
    · rcases List.mem_cons.mp hw with rfl | hw
      · simp
      · exact ih hw
    · next hc =>
      obtain ⟨v, vs, hvs⟩ := List.exists_cons_of_ne_nil (pieces_ne_nil p cs)
      rw [hvs] at hw ih
      rcases List.mem_cons.mp hw with rfl | hw
      · exact List.forall_mem_cons.mpr ⟨by simpa using hc, ih List.mem_cons_self⟩
      · exact ih (List.mem_cons_of_mem v hw)

theorem pieces_eq_self (h : ∀ x ∈ cs, p x = false) : pieces p cs = [cs] := by
  induction cs with
  | nil => rfl
  | cons c cs ih =>
    have hc : p c = false := h c (by simp)
    rw [pieces, hc, ih fun x hx => h x (by simp [hx])]
    rfl

theorem pieces_joinWith {sep : Char} {ws : List (List Char)} (hne : ws ≠ [])
    (hws : ∀ w ∈ ws, sep ∉ w) : pieces (· == sep) (joinWith sep ws) = ws := by
  have hsep : ∀ w ∈ ws, ∀ x ∈ w, (x == sep) = false := fun w hw x hx =>
    beq_eq_false_iff_ne.mpr fun he => hws w hw (he ▸ hx)
  clear hws
  induction ws with
  | nil => exact absurd rfl hne
  | cons w ws ih =>
    cases ws with
    | nil => exact pieces_eq_self (hsep w (by simp))
    | cons w' ws =>
      rw [joinWith, pieces_append (hsep w (by simp)) (beq_self_eq_true sep),
        ih (by simp) fun v hv => hsep v (List.mem_cons_of_mem w hv)]
      simp

theorem mem_joinWith {sep : Char} {ws : List (List Char)} (h : c ∈ joinWith sep ws) :
    c = sep ∨ ∃ w ∈ ws, c ∈ w := by
  induction ws with
  | nil => cases h
  | cons w ws ih =>
    cases ws with
    | nil => exact Or.inr ⟨w, by simp, h⟩
    | cons w' ws =>
      have h : c ∈ w ++ sep :: joinWith sep (w' :: ws) := h
      rw [List.mem_append, List.mem_cons] at h
      rcases h with h | h | h
      · exact Or.inr ⟨w, by simp, h⟩
      · exact Or.inl h
      · rcases ih h with h | ⟨v, hv, hc⟩
        · exact Or.inl h
        · exact Or.inr ⟨v, List.mem_cons_of_mem w hv, hc⟩

theorem consPiece_eq_modifyHead {ws : List (List Char)} (hne : ws ≠ []) :
    consPiece c ws = ws.modifyHead (List.cons c) := by
  cases ws with
  | nil => exact absurd rfl hne
  | cons w ws => rfl

theorem pieces_eq_splitOnP (p : Char → Bool) (cs : List Char) : pieces p cs = cs.splitOnP p := by
  induction cs with
  | nil => rfl
  | cons c cs ih =>
    rw [pieces, List.splitOnP_cons_eq_if_modifyHead, consPiece_eq_modifyHead (pieces_ne_nil p cs), ih]

/-! ### Words -/

theorem words_eq_splitOnP (p : Char → Bool) (cs : List Char) :
    words p cs = (cs.splitOnP p).filter fun w => !w.isEmpty := by
  rw [words, pieces_eq_splitOnP]

@[simp] theorem words_nil (p : Char → Bool) : words p [] = [] := rfl

theorem of_mem_words {w : List Char} (hw : w ∈ words p cs) : w ≠ [] ∧ ∀ x ∈ w, p x = false := by
  obtain ⟨hpiece, hne⟩ := List.mem_filter.mp hw
  exact ⟨by simpa using hne, not_of_mem_pieces hpiece⟩

/-- A text is cut at each of the characters it is to be cut at. -/
theorem words_append_cons (a b : List Char) (hc : p c = true) :
    words p (a ++ c :: b) = words p a ++ words p b := by
  unfold words
  rw [pieces_append_cons a b hc, List.filter_append]

theorem words_eq_singleton {w : List Char} (hne : w ≠ []) (hw : ∀ x ∈ w, p x = false) :
    words p w = [w] := by
  unfold words
  rw [pieces_eq_self hw]
  simpa using hne

/-- A text without the characters at which texts are cut is a word of its own behind such a character, and goes on
with the last word otherwise. -/
theorem words_append_unbroken {w : List Char} (cs : List Char) (hne : w ≠ []) (hw : ∀ x ∈ w, p x = false) :
    ((cs = [] ∨ ∃ front c, cs = front ++ [c] ∧ p c = true) ∧ words p (cs ++ w) = words p cs ++ [w]) ∨
      ∃ front last, words p cs = front ++ [last] ∧ words p (cs ++ w) = front ++ [last ++ w] := by
  cases hcut : cutLast? p cs with
  | none =>
    have hunbroken : ∀ x ∈ cs, p x = false := fun x hx =>
      not_of_cut?_eq_none (Option.map_eq_none_iff.mp hcut) x (List.mem_reverse.mpr hx)
    by_cases hempty : cs = []
    · subst hempty
      exact Or.inl ⟨Or.inl rfl, words_eq_singleton hne hw⟩
    · refine Or.inr ⟨[], cs, words_eq_singleton hempty hunbroken, words_eq_singleton ?_ ?_⟩
      · simp [hempty]
      · exact List.forall_mem_append.mpr ⟨hunbroken, hw⟩
  | some cut =>
    obtain ⟨a, b⟩ := cut
    obtain ⟨c, hc, rfl, hb⟩ := cutLast?_eq_some hcut
    have hall : words p (a ++ c :: b ++ w) = words p a ++ words p (b ++ w) := by
      rw [List.append_assoc, List.cons_append, words_append_cons a _ hc]
    by_cases hempty : b = []
    · subst hempty
      refine Or.inl ⟨Or.inr ⟨a, c, rfl, hc⟩, ?_⟩
      rw [hall, words_append_cons a [] hc, List.nil_append, words_eq_singleton hne hw, words_nil, List.append_nil]
    · refine Or.inr ⟨words p a, b, ?_, ?_⟩
      · rw [words_append_cons a b hc, words_eq_singleton hempty hb]
      · rw [hall, words_eq_singleton (by simp [hempty]) (List.forall_mem_append.mpr ⟨hb, hw⟩)]

/-- Words put together around a character at which texts are cut. -/
theorem words_joinWith {sep : Char} {ws : List (List Char)} (hsep : p sep = true)
    (hws : ∀ w ∈ ws, w ≠ [] ∧ ∀ x ∈ w, p x = false) : words p (joinWith sep ws) = ws := by
  induction ws with
  | nil => rfl
  | cons w ws ih =>
    obtain ⟨⟨hne, hw⟩, hws⟩ := List.forall_mem_cons.mp hws
    cases ws with
    | nil => exact words_eq_singleton hne hw
    | cons w' ws =>
      rw [joinWith, words_append_cons w _ hsep, words_eq_singleton hne hw, ih hws]
      · rfl
      · simp

/-- The words stand in the text in order, apart from each other by characters at which it is cut, with any number of
these around them. -/
inductive Separated (p : Char → Bool) : List Char → List (List Char) → Prop where
  | nil : Separated p [] []
  | gap {c : Char} {cs : List Char} {ws : List (List Char)} (hc : p c = true) (h : Separated p cs ws) :
      Separated p (c :: cs) ws
  | last {w : List Char} (hne : w ≠ []) (hw : ∀ x ∈ w, p x = false) : Separated p w [w]
  | word {w cs : List Char} {c : Char} {ws : List (List Char)} (hne : w ≠ []) (hw : ∀ x ∈ w, p x = false)
      (hc : p c = true) (h : Separated p cs ws) : Separated p (w ++ c :: cs) (w :: ws)

theorem words_of_separated {ws : List (List Char)} (h : Separated p cs ws) : words p cs = ws := by
  induction h with
  | nil => rfl
  | gap hc _ ih => exact (words_append_cons [] _ hc).trans ih
  | last hne hw => exact words_eq_singleton hne hw
  | word hne hw hc _ ih => rw [words_append_cons _ _ hc, words_eq_singleton hne hw, ih, List.singleton_append]

theorem separated_words (p : Char → Bool) (cs : List Char) : Separated p cs (words p cs) := by
  induction hlength : cs.length using Nat.strongRecOn generalizing cs with
  | ind n ih =>
    cases hcut : cut? p cs with
    | none =>
      have hunbroken := not_of_cut?_eq_none hcut
      by_cases hempty : cs = []
      · subst hempty
        exact .nil
      · rw [words_eq_singleton hempty hunbroken]
        exact .last hempty hunbroken
    | some cut =>
      obtain ⟨w, rest⟩ := cut
      obtain ⟨c, hc, rfl, hw⟩ := cut?_eq_some hcut
      have hrest : Separated p rest (words p rest) := by
        refine ih rest.length ?_ rest rfl
        rw [← hlength, List.length_append, List.length_cons]
        omega
      rw [words_append_cons w rest hc]
      by_cases hempty : w = []
      · subst hempty
        exact .gap hc hrest
      · rw [words_eq_singleton hempty hw]
        exact .word hempty hw hc hrest

theorem flatten_consPiece (c : Char) (ws : List (List Char)) :
    (consPiece c ws).flatten = c :: ws.flatten := by
  cases ws <;> rfl

theorem flatten_filter_isEmpty (ws : List (List Char)) :
    (ws.filter fun w => !w.isEmpty).flatten = ws.flatten := by
  induction ws with
  | nil => rfl
  | cons w ws ih => cases w <;> simp [ih]

/-- The words of a text hold all its other characters. -/
theorem flatten_words (p : Char → Bool) (cs : List Char) :
    (words p cs).flatten = cs.filter fun c => !p c := by
  unfold words
  rw [flatten_filter_isEmpty]
  induction cs with
  | nil => rfl
  | cons c cs ih =>
    rw [pieces]
    split
    · next hc => simp [hc, ih]
    · next hc => simp [flatten_consPiece, hc, ih]

/-! ### Joined words -/

theorem joinWith_eq_intercalate (sep : Char) (ws : List (List Char)) : joinWith sep ws = [sep].intercalate ws := by
  induction ws with
  | nil => rfl
  | cons w ws ih =>
    cases ws with
    | nil => simp [joinWith]
    | cons w' ws => simp [joinWith, ih, List.intercalate_cons_cons]

theorem joinWith_eq_nil_iff {sep : Char} {ws : List (List Char)} (hws : ∀ w ∈ ws, w ≠ []) :
    joinWith sep ws = [] ↔ ws = [] := by
  rcases ws with _ | ⟨w, _ | ⟨w', ws⟩⟩
  · simp [joinWith]
  · simpa [joinWith] using hws
  · simp [joinWith]

end LayeredViews.Text
