import LayeredViews.Json.Printer
import LayeredViews.Json.Reader
import LayeredViews.Proofs.Table

/-!
# Reading back — what is written for a value is read as the value

Inside a string the machine takes a plain character as it is, and what `quoteChars` writes for a text as that text
(`run_quoteChars`), whatever characters the text has.  An object of texts and truth values is therefore read from what
`compact` writes for it (`read_compact`).
-/

namespace LayeredViews

theorem Text.hexValue?_hexDigit : ∀ n < 16, hexValue? (hexDigit n) = some n := by decide

namespace Json

/-! ### Strings -/

/-- A character that stands in a JSON string for itself. -/
structure IsPlain (c : Char) : Prop where
  not_quote : c ≠ '"'
  not_backslash : c ≠ '\\'
  not_control : 0x20 ≤ c.toNat

instance : DecidablePred IsPlain := fun c =>
  decidable_of_iff (c ≠ '"' ∧ c ≠ '\\' ∧ 0x20 ≤ c.toNat)
    ⟨fun h => ⟨h.1, h.2.1, h.2.2⟩, fun h => ⟨h.not_quote, h.not_backslash, h.not_control⟩⟩

namespace Machine

variable {stack : List Container} {chars cs rest : List Char} {m m' : Machine} {c : Char}

theorem run_cons (h : m.step c = .ok m') (cs : List Char) : m.run (c :: cs) = m'.run cs := by
  rw [run, h]

theorem step_plain (h : IsPlain c) (stack : List Container) (chars : List Char) :
    step ⟨stack, .string chars .plain⟩ c = .ok ⟨stack, .string (c :: chars) .plain⟩ := by
  show inString stack chars .plain c = _
  simp [inString, h.not_quote, h.not_backslash, Nat.not_lt.mpr h.not_control]

/-- Plain characters are taken as they are. -/
theorem run_plain (h : ∀ c ∈ cs, IsPlain c) (stack : List Container) (chars rest : List Char) :
    run ⟨stack, .string chars .plain⟩ (cs ++ rest) = run ⟨stack, .string (cs.reverse ++ chars) .plain⟩ rest := by
  induction cs generalizing chars with
  | nil => rfl
  | cons c cs ih =>
    obtain ⟨hc, hcs⟩ := List.forall_mem_cons.mp h
    rw [List.cons_append, run_cons (step_plain hc stack chars), ih hcs]
    simp

theorem run_escape {letter : Char} (hletter : letter ≠ 'u') (h : escaped? letter = some c) (stack : List Container)
    (chars rest : List Char) :
    run ⟨stack, .string chars .plain⟩ ('\\' :: letter :: rest) = run ⟨stack, .string (c :: chars) .plain⟩ rest := by
  have hbackslash : step ⟨stack, .string chars .plain⟩ '\\' = .ok ⟨stack, .string chars .escape⟩ := rfl
  have hescape : step ⟨stack, .string chars .escape⟩ letter = .ok ⟨stack, .string (c :: chars) .plain⟩ := by
    show inString stack chars .escape letter = _
    simp [inString, hletter, h]
  rw [run_cons hbackslash, run_cons hescape]

/-- A control character by its number. -/
theorem run_number (hc : c.toNat < 0x20) (stack : List Container) (chars rest : List Char) :
    run ⟨stack, .string chars .plain⟩ ('\\' :: 'u' :: '0' :: '0' :: Text.hexDigit (c.toNat / 16) ::
      Text.hexDigit (c.toNat % 16) :: rest) = run ⟨stack, .string (c :: chars) .plain⟩ rest := by
  have hbackslash : step ⟨stack, .string chars .plain⟩ '\\' = .ok ⟨stack, .string chars .escape⟩ := rfl
  have hletter : step ⟨stack, .string chars .escape⟩ 'u' = .ok ⟨stack, .string chars (.unicode 4 0 none)⟩ := rfl
  have hunit : unit chars c.toNat none = .ok (.string (c :: chars) .plain) := by
    have hhigh : isHigh c.toNat = false := decide_eq_false (by omega)
    have hlow : isLow c.toNat = false := decide_eq_false (by omega)
    simp [unit, hhigh, hlow]
  have hzero : step ⟨stack, .string chars (.unicode 4 0 none)⟩ '0' = .ok ⟨stack, .string chars (.unicode 3 0 none)⟩ :=
    rfl
  have hzero' : step ⟨stack, .string chars (.unicode 3 0 none)⟩ '0' = .ok ⟨stack, .string chars (.unicode 2 0 none)⟩ :=
    rfl
  have hfirst : step ⟨stack, .string chars (.unicode 2 0 none)⟩ (Text.hexDigit (c.toNat / 16)) =
      .ok ⟨stack, .string chars (.unicode 1 (c.toNat / 16) none)⟩ := by
    show inString stack chars (.unicode 2 0 none) _ = _
    simp [inString, Text.hexValue?_hexDigit (c.toNat / 16) (by omega)]
  have hlast : step ⟨stack, .string chars (.unicode 1 (c.toNat / 16) none)⟩ (Text.hexDigit (c.toNat % 16)) =
      .ok ⟨stack, .string (c :: chars) .plain⟩ := by
    show inString stack chars (.unicode 1 (c.toNat / 16) none) _ = _
    simp [inString, Text.hexValue?_hexDigit (c.toNat % 16) (by omega), Nat.div_add_mod', hunit, Except.map]
  rw [run_cons hbackslash, run_cons hletter, run_cons hzero, run_cons hzero', run_cons hfirst, run_cons hlast]

/-- A character is written as it is, behind a backslash as a letter, or as its number. -/
theorem quoteChar_cases (c : Char) : (IsPlain c ∧ quoteChar c = [c]) ∨
    (∃ letter, letter ≠ 'u' ∧ escaped? letter = some c ∧ quoteChar c = ['\\', letter]) ∨
    (c.toNat < 0x20 ∧ quoteChar c = '\\' :: 'u' :: '0' :: '0' :: Text.hexDigit (c.toNat / 16) ::
      [Text.hexDigit (c.toNat % 16)]) := by
  by_cases hspecial : c ∈ ['"', '\\', '\n', '\r', '\t', '\x08', '\x0c']
  · refine Or.inr (Or.inl ?_)
    simp only [List.mem_cons, List.not_mem_nil, or_false] at hspecial
    rcases hspecial with rfl | rfl | rfl | rfl | rfl | rfl | rfl
    · exact ⟨'"', by decide, rfl, rfl⟩
    · exact ⟨'\\', by decide, rfl, rfl⟩
    · exact ⟨'n', by decide, rfl, rfl⟩
    · exact ⟨'r', by decide, rfl, rfl⟩
    · exact ⟨'t', by decide, rfl, rfl⟩
    · exact ⟨'b', by decide, rfl, rfl⟩
    · exact ⟨'f', by decide, rfl, rfl⟩
  · have hescape : escape? c = if c.toNat < 0x20 then
        some (("\\u00".push (Text.hexDigit (c.toNat / 16))).push (Text.hexDigit (c.toNat % 16))) else none := by
      unfold escape?
      split <;> first | rfl | simp at hspecial
    simp only [List.mem_cons, List.not_mem_nil, or_false, not_or] at hspecial
    by_cases hcontrol : c.toNat < 0x20
    · exact Or.inr (Or.inr ⟨hcontrol, by simp [quoteChar, hescape, hcontrol]⟩)
    · refine Or.inl ⟨⟨hspecial.1, hspecial.2.1, Nat.not_lt.mp hcontrol⟩, ?_⟩
      simp [quoteChar, hescape, hcontrol]

theorem run_quoteChar (c : Char) (stack : List Container) (chars rest : List Char) :
    run ⟨stack, .string chars .plain⟩ (quoteChar c ++ rest) = run ⟨stack, .string (c :: chars) .plain⟩ rest := by
  rcases quoteChar_cases c with ⟨hplain, hquote⟩ | ⟨letter, hletter, hescaped, hquote⟩ | ⟨hcontrol, hquote⟩
  · rw [hquote]
    exact run_cons (step_plain hplain stack chars) rest
  · rw [hquote]
    exact run_escape hletter hescaped stack chars rest
  · rw [hquote]
    exact run_number hcontrol stack chars rest

/-- What is written for a text is read as that text. -/
theorem run_quoteChars (cs : List Char) (stack : List Container) (chars rest : List Char) :
    run ⟨stack, .string chars .plain⟩ (quoteChars cs ++ rest) =
      run ⟨stack, .string (cs.reverse ++ chars) .plain⟩ rest := by
  induction cs generalizing chars with
  | nil => rfl
  | cons c cs ih =>
    have hquote : quoteChars (c :: cs) = quoteChar c ++ quoteChars cs := rfl
    rw [hquote, List.append_assoc, run_quoteChar, ih]
    simp

theorem step_quote (stack : List Container) (s : String) :
    step ⟨stack, .string s.toList.reverse .plain⟩ '"' = completeString stack s := by
  show completeString stack (String.ofList s.toList.reverse.reverse) = _
  rw [List.reverse_reverse, String.ofList_toList]

theorem run_closedQuote (s : String) (stack : List Container) (rest : List Char) :
    run ⟨stack, .string [] .plain⟩ (quoteChars s.toList ++ '"' :: rest) =
      (completeString stack s).bind fun m => m.run rest := by
  rw [run_quoteChars, List.append_nil, run, step_quote]
  cases completeString stack s <;> rfl

/-- The name of a field and the colon behind it. -/
theorem run_name {expected : Expected} (hexpected : expected = .name ∨ expected = .nameOrEnd)
    (done : List (String × Json)) (outer : List Container) (name : String) (rest : List Char) :
    run ⟨.fields done none :: outer, .between expected⟩ ((quote name).toList ++ ':' :: rest) =
      run ⟨.fields done (some name) :: outer, .between .value⟩ rest := by
  have hbegin : step ⟨.fields done none :: outer, .between expected⟩ '"' =
      .ok ⟨.fields done none :: outer, .string [] .plain⟩ := by
    rcases hexpected with rfl | rfl <;> rfl
  have hcolon : step ⟨.fields done (some name) :: outer, .between .colon⟩ ':' =
      .ok ⟨.fields done (some name) :: outer, .between .value⟩ := rfl
  rw [toList_quote, List.append_assoc, List.cons_append, run_cons hbegin, List.singleton_append, run_closedQuote]
  exact run_cons hcolon rest

end Machine

/-! ### Values -/

/-- What is written for the value on one line is read as the value by a machine that can still open `depth`
containers. -/
def Echoes (depth : Nat) (v : Json) : Prop :=
  ∃ cs, (∀ out, (addCompact out v).toList = out.toList ++ cs) ∧
    ∀ stack m rest, stack.length + depth < Machine.depthLimit → Machine.complete stack v = .ok m →
      Machine.run ⟨stack, .between .value⟩ (cs ++ rest) = m.run rest

theorem echoes_str (depth : Nat) (s : String) : Echoes depth (.str s) := by
  refine ⟨(quote s).toList, fun out => by simp [addCompact], fun stack m rest _ hm => ?_⟩
  have hbegin : Machine.step ⟨stack, .between .value⟩ '"' = .ok ⟨stack, .string [] .plain⟩ := rfl
  have hcomplete : Machine.completeString stack s = .ok m := by
    rcases stack with _ | ⟨done | ⟨done, _ | name⟩, outer⟩
    · exact hm
    · exact hm
    · cases hm
    · exact hm
  rw [toList_quote, List.append_assoc, List.cons_append, Machine.run_cons hbegin, List.singleton_append,
    Machine.run_closedQuote, hcomplete]
  rfl

theorem echoes_bool (depth : Nat) (b : Bool) : Echoes depth (.bool b) := by
  refine ⟨(if b then "true" else "false").toList, fun out => by simp [addCompact], fun stack m rest _ hm => ?_⟩
  cases b with
  | true =>
    have hlast : Machine.step ⟨stack, .word ['e'] (.bool true)⟩ 'e' = .ok m := hm
    exact Machine.run_cons hlast rest
  | false =>
    have hlast : Machine.step ⟨stack, .word ['e'] (.bool false)⟩ 'e' = .ok m := hm
    exact Machine.run_cons hlast rest

/-- Fields behind the bracket of their object or behind a comma are set one after the other. -/
theorem echoes_fields {depth : Nat} {fields : List (String × Json)} (hne : fields ≠ [])
    (hfields : ∀ e ∈ fields, Echoes depth e.2) :
    ∃ cs, (∀ out, (addCompactFields out fields).toList = out.toList ++ cs) ∧
      ∀ expected done outer rest, expected = Expected.name ∨ expected = Expected.nameOrEnd →
        outer.length + 1 + depth < Machine.depthLimit →
        Machine.run ⟨.fields done none :: outer, .between expected⟩ (cs ++ rest) =
          Machine.run ⟨.fields (fields.foldl (fun t e => setField e.1 e.2 t) done) none :: outer, .between .next⟩
            rest := by
  induction fields with
  | nil => exact absurd rfl hne
  | cons e fields ih =>
    obtain ⟨name, v⟩ := e
    obtain ⟨⟨cs, hwrite, hread⟩, hfields⟩ := List.forall_mem_cons.mp hfields
    -- the first field, whatever stands behind it
    have hone : ∀ expected done outer rest, expected = Expected.name ∨ expected = Expected.nameOrEnd →
        outer.length + 1 + depth < Machine.depthLimit →
        Machine.run ⟨.fields done none :: outer, .between expected⟩ ((quote name).toList ++ ':' :: (cs ++ rest)) =
          Machine.run ⟨.fields (setField name v done) none :: outer, .between .next⟩ rest := by
      intro expected done outer rest hexpected hdepth
      rw [Machine.run_name hexpected]
      exact hread _ _ rest (by rwa [List.length_cons]) rfl
    cases fields with
    | nil =>
      refine ⟨(quote name).toList ++ ':' :: cs, fun out => by simp [addCompactFields, hwrite], ?_⟩
      intro expected done outer rest hexpected hdepth
      rw [List.append_assoc, List.cons_append, hone _ _ _ _ hexpected hdepth]
      rfl
    | cons e' fields =>
      obtain ⟨cs', hwrite', hread'⟩ := ih (by simp) hfields
      refine ⟨(quote name).toList ++ ':' :: (cs ++ ',' :: cs'), fun out => ?_, ?_⟩
      · simp [addCompactFields, hwrite, hwrite']
      · intro expected done outer rest hexpected hdepth
        have hcomma : ∀ done', Machine.step ⟨.fields done' none :: outer, .between .next⟩ ',' =
            .ok ⟨.fields done' none :: outer, .between .name⟩ := fun _ => rfl
        rw [List.append_assoc, List.cons_append, List.append_assoc, hone _ _ _ _ hexpected hdepth, List.cons_append,
          Machine.run_cons (hcomma _), hread' _ _ _ _ (.inl rfl) hdepth]
        rfl

theorem echoes_obj {depth : Nat} {fields : List (String × Json)} (hordered : Table.Ordered Text.before fields)
    (hfields : ∀ e ∈ fields, Echoes depth e.2) : Echoes (depth + 1) (.obj fields) := by
  have hsame : fields.foldl (fun t e => setField e.1 e.2 t) [] = fields := by
    have hbehind : Table.Ordered Text.before ([] ++ fields) := hordered
    exact Table.Ordered.foldl_insert Text.before_order hbehind
  have hbegin : ∀ stack, stack.length + (depth + 1) < Machine.depthLimit →
      Machine.step ⟨stack, .between .value⟩ '\x7b' = .ok ⟨.fields [] none :: stack, .between .nameOrEnd⟩ := by
    intro stack hdepth
    show Machine.push stack _ _ = _
    rw [Machine.push, if_pos (by omega)]
  have hend : ∀ expected stack, expected = Expected.nameOrEnd ∨ expected = Expected.next →
      Machine.step ⟨.fields fields none :: stack, .between expected⟩ '\x7d' = Machine.complete stack (.obj fields) := by
    rintro expected stack (rfl | rfl) <;> rfl
  cases hempty : fields with
  | nil =>
    -- the object ends where its first name may stand
    subst hempty
    refine ⟨['\x7b', '\x7d'], fun out => by simp [addCompact, addCompactFields], fun stack m rest hdepth hm => ?_⟩
    exact (Machine.run_cons (hbegin stack hdepth) _).trans
      (Machine.run_cons ((hend _ stack (.inl rfl)).trans hm) rest)
  | cons e more =>
    obtain ⟨cs, hwrite, hread⟩ := echoes_fields (by simp [hempty]) hfields
    rw [← hempty]
    refine ⟨'\x7b' :: (cs ++ ['\x7d']), fun out => by simp [addCompact, hwrite], fun stack m rest hdepth hm => ?_⟩
    rw [List.cons_append, List.append_assoc, Machine.run_cons (hbegin stack hdepth),
      hread _ _ _ _ (.inr rfl) (by omega), hsame]
    exact Machine.run_cons ((hend _ stack (.inr rfl)).trans hm) rest

/-- A value that is echoed is read from what is written for it. -/
theorem read_compact {depth : Nat} {v : Json} (h : Echoes depth v) (hdepth : depth < Machine.depthLimit) :
    read v.compact = .ok v := by
  obtain ⟨cs, hwrite, hread⟩ := h
  have hrun : Machine.start.run v.compact.toList = .ok ⟨[], .finished v⟩ := by
    have hall := hread [] ⟨[], .finished v⟩ [] (by simpa using hdepth) rfl
    rw [List.append_nil] at hall
    rw [compact, hwrite]
    exact hall
  unfold read
  rw [hrun]
  rfl

end Json

end LayeredViews
