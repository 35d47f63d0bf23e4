import LayeredViews.Text.Decimal
import Mathlib.Tactic.SplitIfs

/-!
# Decimal numerals — a number written in digits is read back

The digits of a number are those of its tenth and one more, and `readDigits` takes them up in the same order.  So the
bound is passed on the way exactly if the number is past it (`readNat_repr_eq`).
-/

namespace LayeredViews.Text

theorem digit?_digitChar {d : Nat} (h : d < 10) : digit? d.digitChar = some d := by
  revert d
  decide

/-- Digits go on from the value of the digits before them, if that has been read. -/
theorem readDigits_append (bound value : Nat) (cs ds : List Char) :
    readDigits bound value (cs ++ ds) =
      (readDigits bound value cs).bind fun value' => readDigits bound value' ds := by
  induction cs generalizing value with
  | nil => rfl
  | cons c cs ih =>
    rw [List.cons_append, readDigits, readDigits]
    cases digit? c with
    | none => rfl
    | some d =>
      dsimp only
      split_ifs
      · rfl
      · exact ih (value * 10 + d)

theorem readDigits_digitChar (bound value : Nat) {d : Nat} (hd : d < 10) :
    readDigits bound value [d.digitChar] =
      if value * 10 + d ≤ bound then .ok (value * 10 + d) else .error .tooLarge := by
  rw [readDigits, digit?_digitChar hd]
  by_cases hfits : value * 10 + d ≤ bound
  · simp [readDigits, hfits, Nat.not_lt.mpr hfits]
  · simp [hfits, Nat.not_le.mp hfits]

theorem readDigits_toDigits (bound n : Nat) :
    readDigits bound 0 (Nat.toDigits 10 n) = if n ≤ bound then .ok n else .error .tooLarge := by
  induction n using Nat.strongRecOn with
  | ind n ih =>
    by_cases hsmall : n < 10
    · rw [Nat.toDigits_of_lt_base hsmall, readDigits_digitChar bound 0 hsmall]
      simp
    · have hlarge : 10 ≤ n := by omega
      have hsplit : n / 10 * 10 + n % 10 = n := by omega
      have hdigit : n % 10 < 10 := by omega
      rw [Nat.toDigits_of_base_le (by decide) hlarge, readDigits_append, ih (n / 10) (by omega)]
      by_cases htenth : n / 10 ≤ bound
      · have hlast := readDigits_digitChar bound (n / 10) hdigit
        rw [hsplit] at hlast
        rw [if_pos htenth]
        exact hlast
      · -- the tenth is past the bound already
        have hpast : ¬ n ≤ bound := by omega
        rw [if_neg htenth, if_neg hpast]
        rfl

/-- The numeral of a number is read as the number, up to the bound. -/
theorem readNat_repr_eq (bound n : Nat) :
    readNat bound n.repr.toList = if n ≤ bound then .ok n else .error .tooLarge := by
  have hdigits := readDigits_toDigits bound n
  have hunsigned : '+' ∉ Nat.toDigits 10 n := by
    intro hmem
    have hdigit := Nat.isDigit_of_mem_toDigits (by decide) (by decide) hmem
    exact absurd hdigit (by decide)
  have hne : Nat.toDigits 10 n ≠ [] := Nat.toDigits_ne_nil
  rw [Nat.toList_repr]
  generalize Nat.toDigits 10 n = cs at hdigits hunsigned hne
  unfold readNat
  split
  · exact absurd rfl hne
  · simp at hunsigned
  · simp at hunsigned
  · exact hdigits

/-- A number up to the bound is what its numeral is read as. -/
theorem readNat_repr {bound n : Nat} (h : n ≤ bound) : readNat bound n.repr.toList = .ok n := by
  rw [readNat_repr_eq, if_pos h]

/-- A number is told by its numeral. -/
theorem repr_toList_injective {m n : Nat} (h : m.repr.toList = n.repr.toList) : m = n := by
  have hm := readNat_repr (Nat.le_max_left m n)
  have hn := readNat_repr (Nat.le_max_right m n)
  rw [h] at hm
  exact Except.ok.inj (hm.symm.trans hn)

end LayeredViews.Text
