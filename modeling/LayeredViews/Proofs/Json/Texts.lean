import LayeredViews.Proofs.Json.ReadBack
import LayeredViews.Proofs.Text.Split

/-!
# Texts in a value — how long they can be

The machine takes at most one character into a text for each that it reads, and only a quote ends the text.  With few
enough characters left before the last quote, all texts of the value that is read are short (`step_textsBelow` for one
character, `run_textsBelow` for many).
-/

namespace LayeredViews.Json

/-- Each text in the value is shorter than `k`; names of fields are not looked at. -/
inductive TextsBelow (k : Nat) : Json → Prop where
  | null : TextsBelow k .null
  | bool (value : Bool) : TextsBelow k (.bool value)
  | num (value : Number) : TextsBelow k (.num value)
  | str {value : String} (h : value.length < k) : TextsBelow k (.str value)
  | arr {items : List Json} (h : ∀ v ∈ items, TextsBelow k v) : TextsBelow k (.arr items)
  | obj {fields : List (String × Json)} (h : ∀ e ∈ fields, TextsBelow k e.2) : TextsBelow k (.obj fields)

variable {k left : Nat} {stack : List Container} {v : Json} {m m' : Machine} {c : Char}

def Container.TextsBelow (k : Nat) : Container → Prop
  | .items done => ∀ v ∈ done, v.TextsBelow k
  | .fields done _ => ∀ e ∈ done, e.2.TextsBelow k

/-- A text that is still open is short if it is ended by one of the next `left` characters. -/
def Progress.TextsBelow (k left : Nat) : Progress → Prop
  | .between _ => True
  | .word _ v => v.TextsBelow k
  | .number _ => True
  | .string chars _ => 0 < left → chars.length + left ≤ k
  | .finished v => v.TextsBelow k

namespace Machine

/-- The texts that have been read are shorter than `k`, and so are those that are ended by one of the next `left`
characters. -/
structure TextsBelow (k left : Nat) (m : Machine) : Prop where
  enough : left ≤ k
  stack : ∀ open_ ∈ m.stack, open_.TextsBelow k
  progress : m.progress.TextsBelow k left

/-- A unit makes a character, or a half of one. -/
theorem unit_cases {chars : List Char} {n : Nat} {high : Option Nat} {p : Progress} (h : unit chars n high = .ok p) :
    (∃ quoted, p = .string chars quoted) ∨ ∃ c, p = .string (c :: chars) .plain := by
  unfold unit at h
  split at h
  · split_ifs at h
    · exact .inl ⟨_, (Except.ok.inj h).symm⟩
    · exact .inr ⟨_, (Except.ok.inj h).symm⟩
  · split_ifs at h
    exact .inr ⟨_, (Except.ok.inj h).symm⟩

section

variable (hleft : left ≤ k) (hstack : ∀ open_ ∈ stack, open_.TextsBelow k)
include hleft hstack

theorem complete_textsBelow (hv : v.TextsBelow k) (h : complete stack v = .ok m) : m.TextsBelow k left := by
  rcases stack with _ | ⟨done | ⟨done, _ | name⟩, outer⟩
  · obtain rfl := Except.ok.inj h
    exact ⟨hleft, by simp, hv⟩
  · obtain rfl := Except.ok.inj h
    obtain ⟨hdone, houter⟩ := List.forall_mem_cons.mp hstack
    exact ⟨hleft, List.forall_mem_cons.mpr ⟨List.forall_mem_cons.mpr ⟨hv, hdone⟩, houter⟩, trivial⟩
  · cases h
  · obtain rfl := Except.ok.inj h
    obtain ⟨hdone, houter⟩ := List.forall_mem_cons.mp hstack
    refine ⟨hleft, List.forall_mem_cons.mpr ⟨fun e he => ?_, houter⟩, trivial⟩
    rcases Table.mem_insert he with rfl | he
    · exact hv
    · exact hdone e he

theorem push_textsBelow {opened : Container} {expected : Expected} (hopened : opened.TextsBelow k)
    (h : push stack opened expected = .ok m) : m.TextsBelow k left := by
  unfold push at h
  split at h
  · obtain rfl := Except.ok.inj h
    exact ⟨hleft, List.forall_mem_cons.mpr ⟨hopened, hstack⟩, trivial⟩
  · cases h

theorem close_textsBelow (h : close stack c = .ok m) : m.TextsBelow k left := by
  unfold close at h
  split at h
  · next done outer =>
    obtain ⟨hdone, houter⟩ := List.forall_mem_cons.mp hstack
    exact complete_textsBelow hleft houter (.arr fun v hv => hdone v (List.mem_reverse.mp hv)) h
  · next done outer =>
    obtain ⟨hdone, houter⟩ := List.forall_mem_cons.mp hstack
    exact complete_textsBelow hleft houter (.obj hdone) h
  · cases h

theorem beginText_textsBelow : TextsBelow k left ⟨stack, .string [] .plain⟩ :=
  ⟨hleft, hstack, fun _ => by simpa using hleft⟩

theorem beginValue_textsBelow (h : beginValue stack c = .ok m) : m.TextsBelow k left := by
  unfold beginValue at h
  split at h
  · exact push_textsBelow hleft hstack (by simp [Container.TextsBelow]) h
  · exact push_textsBelow hleft hstack (by simp [Container.TextsBelow]) h
  · exact Except.ok.inj h ▸ beginText_textsBelow hleft hstack
  · exact Except.ok.inj h ▸ ⟨hleft, hstack, .bool true⟩
  · exact Except.ok.inj h ▸ ⟨hleft, hstack, .bool false⟩
  · exact Except.ok.inj h ▸ ⟨hleft, hstack, .null⟩
  · split at h
    · exact Except.ok.inj h ▸ ⟨hleft, hstack, trivial⟩
    · cases h

theorem between_textsBelow {expected : Expected} (h : between stack expected c = .ok m) : m.TextsBelow k left := by
  unfold between at h
  split at h
  · exact Except.ok.inj h ▸ ⟨hleft, hstack, trivial⟩
  cases expected with
  | value => exact beginValue_textsBelow hleft hstack h
  | valueOrEnd =>
    dsimp only at h
    split_ifs at h
    · exact close_textsBelow hleft hstack h
    · exact beginValue_textsBelow hleft hstack h
  | name =>
    dsimp only at h
    split_ifs at h
    exact Except.ok.inj h ▸ beginText_textsBelow hleft hstack
  | nameOrEnd =>
    dsimp only at h
    split_ifs at h
    · exact Except.ok.inj h ▸ beginText_textsBelow hleft hstack
    · exact close_textsBelow hleft hstack h
  | colon =>
    dsimp only at h
    split_ifs at h
    exact Except.ok.inj h ▸ ⟨hleft, hstack, trivial⟩
  | next =>
    dsimp only at h
    split_ifs at h
    · rcases stack with _ | ⟨items | fields, outer⟩
      · cases h
      · exact Except.ok.inj h ▸ ⟨hleft, hstack, trivial⟩
      · exact Except.ok.inj h ▸ ⟨hleft, hstack, trivial⟩
    · exact close_textsBelow hleft hstack h

theorem completeString_textsBelow {s : String} (hs : s.length < k) (h : completeString stack s = .ok m) :
    m.TextsBelow k left := by
  unfold completeString at h
  split at h
  · next done outer =>
    obtain ⟨hdone, houter⟩ := List.forall_mem_cons.mp hstack
    exact Except.ok.inj h ▸ ⟨hleft, List.forall_mem_cons.mpr ⟨hdone, houter⟩, trivial⟩
  · exact complete_textsBelow hleft hstack (.str hs) h

/-- One character of a string adds at most one character to the text. -/
theorem inString_textsBelow {chars : List Char} {quoted : Quoted} (hchars : 0 < left → chars.length + left ≤ k)
    (hend : c = '"' → 0 < left) (h : inString stack chars quoted c = .ok m) : m.TextsBelow k (left - 1) := by
  have hleft' : left - 1 ≤ k := by omega
  have hsame : ∀ quoted', TextsBelow k (left - 1) ⟨stack, .string chars quoted'⟩ := fun _ =>
    ⟨hleft', hstack, fun hpos => by have := hchars (by omega); omega⟩
  have hmore : ∀ c', TextsBelow k (left - 1) ⟨stack, .string (c' :: chars) .plain⟩ := fun _ =>
    ⟨hleft', hstack, fun hpos => by have := hchars (by omega); rw [List.length_cons]; omega⟩
  cases quoted with
  | plain =>
    dsimp only [inString] at h
    split_ifs at h with hquote
    · have hpos := hend hquote
      have hshort := hchars hpos
      refine completeString_textsBelow hleft' hstack ?_ h
      rw [String.length_ofList, List.length_reverse]
      omega
    · exact Except.ok.inj h ▸ hsame _
    · exact Except.ok.inj h ▸ hmore _
  | escape =>
    dsimp only [inString] at h
    split_ifs at h
    · exact Except.ok.inj h ▸ hsame _
    · split at h
      · exact Except.ok.inj h ▸ hmore _
      · cases h
  | unicode digits value high =>
    dsimp only [inString] at h
    split at h
    · cases h
    next d hd =>
    split_ifs at h
    · cases hunit : unit chars (value * 16 + d) high with
      | error e =>
        rw [hunit] at h
        cases h
      | ok p =>
        rw [hunit] at h
        rcases unit_cases hunit with ⟨quoted', rfl⟩ | ⟨c', rfl⟩
        · exact Except.ok.inj h ▸ hsame _
        · exact Except.ok.inj h ▸ hmore _
    · exact Except.ok.inj h ▸ hsame _
  | lowEscape high =>
    dsimp only [inString] at h
    split_ifs at h
    exact Except.ok.inj h ▸ hsame _
  | lowLetter high =>
    dsimp only [inString] at h
    split_ifs at h
    exact Except.ok.inj h ▸ hsame _

theorem completeNumber_textsBelow {chars : List Char} (h : completeNumber stack chars = .ok m) : m.TextsBelow k left := by
  unfold completeNumber at h
  split at h
  · exact complete_textsBelow hleft hstack (.num _) h
  · cases h

end

/-- One character keeps the texts short, a quote only among those that may end one. -/
theorem step_textsBelow (hm : m.TextsBelow k left) (hend : c = '"' → 0 < left) (h : m.step c = .ok m') :
    m'.TextsBelow k (left - 1) := by
  obtain ⟨hleft, hstack, hprogress⟩ := hm
  have hleft' : left - 1 ≤ k := by omega
  unfold step at h
  split at h
  · exact between_textsBelow hleft' hstack h
  · cases h
  · next w rest v hword =>
    rw [hword] at hprogress
    split_ifs at h
    · exact complete_textsBelow hleft' hstack hprogress h
    · exact Except.ok.inj h ▸ ⟨hleft', hstack, hprogress⟩
  · next chars quoted hstring =>
    rw [hstring] at hprogress
    exact inString_textsBelow hleft hstack hprogress hend h
  · next v hfinished =>
    rw [hfinished] at hprogress
    split_ifs at h
    exact Except.ok.inj h ▸ ⟨hleft', hstack, hprogress⟩
  · split at h
    · exact Except.ok.inj h ▸ ⟨hleft', hstack, trivial⟩
    · split at h
      · cases h
      · next hnumber =>
        split_ifs at h
        exact Except.ok.inj h ▸ ⟨hleft', by simp, (completeNumber_textsBelow hleft' hstack hnumber).progress⟩
      · next hnumber =>
        exact between_textsBelow hleft' (completeNumber_textsBelow hleft' hstack hnumber).stack h

/-- Characters keep the texts short if there are no more of them than may end a text. -/
theorem run_textsBelow {cs : List Char} (hm : m.TextsBelow k (left + cs.length)) (h : m.run cs = .ok m') :
    m'.TextsBelow k left := by
  induction cs generalizing m with
  | nil => exact Except.ok.inj h ▸ hm
  | cons c cs ih =>
    rw [run] at h
    split at h
    · cases h
    · next m₁ hstep =>
      refine ih ?_ h
      have hone := step_textsBelow hm (fun _ => by rw [List.length_cons]; omega) hstep
      rwa [List.length_cons, ← Nat.add_assoc, Nat.add_sub_cancel] at hone

theorem finish_textsBelow (hm : m.TextsBelow k left) (h : m.finish = .ok v) : v.TextsBelow k := by
  obtain ⟨hleft, hstack, hprogress⟩ := hm
  unfold finish at h
  split at h
  · next hfinished =>
    rw [hfinished] at hprogress
    exact Except.ok.inj h ▸ hprogress
  · split at h
    · next hnumber => exact Except.ok.inj h ▸ (completeNumber_textsBelow hleft hstack hnumber).progress
    · cases h
    · cases h
  · cases h

/-- A character that is not plain ends the text, or begins an escape, or is refused. -/
theorem step_textsBelow_of_not_plain {chars : List Char} (hc : ¬ IsPlain c) (hleft : left ≤ k)
    (hstack : ∀ open_ ∈ stack, open_.TextsBelow k) (hchars : chars.length + left ≤ k) (hshort : chars.length < k)
    (h : step ⟨stack, .string chars .plain⟩ c = .ok m) : m.TextsBelow k left := by
  have h : inString stack chars .plain c = .ok m := h
  unfold inString at h
  dsimp only at h
  split_ifs at h with hquote hbackslash hcontrol
  · refine completeString_textsBelow hleft hstack ?_ h
    rwa [String.length_ofList, List.length_reverse]
  · exact Except.ok.inj h ▸ ⟨hleft, hstack, fun _ => hchars⟩
  · exact absurd ⟨hquote, hbackslash, Nat.not_lt.mp hcontrol⟩ hc

/-- Characters between quotes, read as they are: if one of them is not plain, each text of the value is shorter. -/
theorem textsBelow_of_not_plain {cs : List Char} (hnot : ¬ ∀ c ∈ cs, IsPlain c)
    (hstack : ∀ open_ ∈ stack, open_.TextsBelow cs.length)
    (hrun : run ⟨stack, .string [] .plain⟩ (cs ++ ['"', '\x7d']) = .ok m) (hfinish : m.finish = .ok v) :
    v.TextsBelow cs.length := by
  obtain ⟨⟨a, b⟩, hcut⟩ : ∃ cut, Text.cut? (fun c => !decide (IsPlain c)) cs = some cut := by
    refine Option.ne_none_iff_exists'.mp fun hnone => hnot fun c hc => ?_
    simpa using Text.not_of_cut?_eq_none hnone c hc
  obtain ⟨c, hc, rfl, ha⟩ := Text.cut?_eq_some hcut
  have hplain : ∀ x ∈ a, IsPlain x := fun x hx => by simpa using ha x hx
  have htext : a ++ c :: b ++ ['"', '\x7d'] = a ++ (c :: (b ++ ['"'] ++ ['\x7d'])) := by simp
  rw [htext, run_plain hplain, List.append_nil, run] at hrun
  split at hrun
  · cases hrun
  · next m₁ hfirst =>
    have hm₁ : m₁.TextsBelow (a ++ c :: b).length (0 + (b ++ ['"']).length) :=
      step_textsBelow_of_not_plain (by simpa using hc) (by simp) hstack (by simp) (by simp) hfirst
    rw [run_append] at hrun
    cases hrest : m₁.run (b ++ ['"']) with
    | error e =>
      rw [hrest] at hrun
      cases hrun
    | ok m₂ =>
      rw [hrest] at hrun
      -- the bracket behind the last quote ends no text
      have hm₂ := run_textsBelow hm₁ hrest
      have hlast : m₂.run ['\x7d'] = .ok m := hrun
      rw [run] at hlast
      split at hlast
      · cases hlast
      · next m₃ hbracket =>
        obtain rfl := Except.ok.inj hlast
        exact finish_textsBelow (step_textsBelow hm₂ (fun hquote => by cases hquote) hbracket) hfinish

end Machine

end LayeredViews.Json
