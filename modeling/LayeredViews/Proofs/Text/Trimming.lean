import LayeredViews.Text.Blank
import Mathlib.Data.List.DropRight

/-!
# Trimming, exactly — what stands around a text that is left

Trimming takes the characters of a class off both ends of a text, and what is left starts and ends with none of them
(`trimEnds_iff`).
-/

namespace LayeredViews.Text

variable {p : Char → Bool} {cs core front back : List Char} {c : Char}

/-! ### Both ends -/

/-- Characters of the class stand around the core, which neither starts nor ends with one. -/
def Surrounded (p : Char → Bool) (cs core : List Char) : Prop :=
  (∃ front back, cs = front ++ core ++ back ∧ (∀ c ∈ front, p c = true) ∧ ∀ c ∈ back, p c = true) ∧
    (∀ c ∈ core.head?, p c = false) ∧ ∀ c ∈ core.getLast?, p c = false

theorem dropWhile_append_of_first (hfront : ∀ c ∈ front, p c = true) (hfirst : ∀ c ∈ cs.head?, p c = false) :
    (front ++ cs).dropWhile p = cs := by
  rw [List.dropWhile_append_of_pos hfront]
  cases cs with
  | nil => rfl
  | cons c cs => exact List.dropWhile_cons_of_neg (by simp [hfirst c rfl])

theorem first_dropWhile (p : Char → Bool) (cs : List Char) : ∀ c ∈ (cs.dropWhile p).head?, p c = false := by
  intro c hc
  have hnot := List.head?_dropWhile_not p cs
  rw [Option.mem_def.mp hc] at hnot
  exact Bool.eq_false_iff.mpr fun h => by simp [h] at hnot

/-- The last character that is not of the class, with those behind it. -/
theorem exists_last (h : ∃ c ∈ cs, p c = false) :
    ∃ init last back, cs = init ++ last :: back ∧ p last = false ∧ ∀ c ∈ back, p c = true := by
  obtain ⟨c, hc, hnot⟩ := h
  have hcore : cs.rdropWhile p ≠ [] := fun hnil => by
    simp [List.rdropWhile_eq_nil_iff.mp hnil c hc] at hnot
  obtain ⟨init, last, hcut⟩ := (List.eq_nil_or_concat' (cs.rdropWhile p)).resolve_left hcore
  refine ⟨init, last, cs.rtakeWhile p, ?_, ?_, fun c hc => List.mem_rtakeWhile_imp hc⟩
  · rw [List.append_cons, ← hcut, List.rdropWhile_append_rtakeWhile]
  · simpa [hcut] using List.rdropWhile_last_not p cs hcore

theorem trimEnds_of_surrounded (h : Surrounded p cs core) : trimEnds p cs = core := by
  obtain ⟨⟨front, back, rfl, hfront, hback⟩, hfirst, hlast⟩ := h
  have hends : trimEnd p (core ++ back) = core := by
    unfold trimEnd
    rw [List.reverse_append, dropWhile_append_of_first (fun c hc => hback c (List.mem_reverse.mp hc)),
      List.reverse_reverse]
    rwa [List.head?_reverse]
  unfold trimEnds
  cases core with
  | nil =>
    have hall : ∀ c ∈ front ++ back, p c = true := List.forall_mem_append.mpr ⟨hfront, hback⟩
    rw [List.append_nil, List.dropWhile_eq_nil_iff.mpr hall, trimEnd_nil]
  | cons c core =>
    rw [List.append_assoc, dropWhile_append_of_first hfront (by simpa using hfirst), hends]

theorem surrounded_trimEnds (p : Char → Bool) (cs : List Char) : Surrounded p cs (trimEnds p cs) := by
  have hsplit : cs = cs.takeWhile p ++ trimEnds p cs ++ (cs.dropWhile p).rtakeWhile p := by
    have hend : trimEnds p cs = (cs.dropWhile p).rdropWhile p := rfl
    rw [hend, List.append_assoc, List.rdropWhile_append_rtakeWhile, List.takeWhile_append_dropWhile]
  have hfirst : ∀ c ∈ (trimEnds p cs).head?, p c = false := by
    intro c hc
    obtain ⟨back, hback⟩ : trimEnds p cs <+: cs.dropWhile p := List.rdropWhile_prefix p _
    refine first_dropWhile p cs c ?_
    rw [← hback, List.head?_append, Option.mem_def.mp hc]
    rfl
  have hlast : ∀ c ∈ (trimEnds p cs).getLast?, p c = false := by
    unfold trimEnds trimEnd
    rw [List.getLast?_reverse]
    exact first_dropWhile p _
  exact ⟨⟨_, _, hsplit, fun c hc => List.mem_takeWhile_imp hc, fun c hc => List.mem_rtakeWhile_imp hc⟩, hfirst, hlast⟩

/-- There is one way to take all characters of a class off both ends. -/
theorem trimEnds_iff : trimEnds p cs = core ↔ Surrounded p cs core :=
  ⟨fun h => h ▸ surrounded_trimEnds p cs, trimEnds_of_surrounded⟩

/-! ### Blank texts -/

theorem isBlank_of_isAlphanum (h : c.isAlphanum = true) : isBlank c = false := by
  have hrange : ∀ lo hi : Char, lo.val ≤ c.val ∧ c.val ≤ hi.val →
      lo.toNat ≤ c.toNat ∧ c.toNat ≤ hi.toNat := fun _ _ h =>
    ⟨UInt32.le_iff_toNat_le.mp h.1, UInt32.le_iff_toNat_le.mp h.2⟩
  have hc : 48 ≤ c.toNat ∧ c.toNat ≤ 122 := by
    rcases Bool.or_eq_true_iff.mp h with h | h
    · rcases Bool.or_eq_true_iff.mp h with h | h
      · have hupper := hrange 'A' 'Z' (of_decide_eq_true h)
        simp only [Char.reduceToNat] at hupper
        omega
      · obtain ⟨hlo, hhi⟩ := Bool.and_eq_true_iff.mp h
        have hlower := hrange 'a' 'z' ⟨of_decide_eq_true hlo, of_decide_eq_true hhi⟩
        simp only [Char.reduceToNat] at hlower
        omega
    · have hdigit := Char.isDigit_iff_toNat.mp h
      simp only [Char.reduceToNat] at hdigit
      omega
  simp [isBlank, blankRanges]
  omega

theorem trim_eq_nil_iff : trim cs = [] ↔ ∀ c ∈ cs, isBlank c = true := by
  unfold trim trimEnds trimEnd
  rw [List.reverse_eq_nil_iff, List.dropWhile_eq_nil_iff]
  simp only [List.mem_reverse]
  constructor
  · intro h c hc
    rw [← List.takeWhile_append_dropWhile (p := isBlank) (l := cs), List.mem_append] at hc
    rcases hc with hc | hc
    · exact List.mem_takeWhile_imp hc
    · exact h c hc
  · exact fun h c hc => h c ((List.dropWhile_suffix isBlank).subset hc)

/-- A text that has no blank is trimmed already. -/
theorem trim_of_unbroken (h : ∀ c ∈ cs, isBlank c = false) : trim cs = cs := by
  exact trimEnds_iff.mpr ⟨⟨[], [], by simp, by simp, by simp⟩, fun c hc => h c (List.mem_of_head? hc),
    fun c hc => h c (List.mem_of_getLast? hc)⟩

end LayeredViews.Text
