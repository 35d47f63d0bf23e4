import LayeredViews.Proofs.Text.Split
import LayeredViews.Template.Tag

/-!
# Tag forms — which bodies say what in a scope

`Tag.Says` writes every form of a tag down as it is spelled, without reading anything: words, quotes
and bars stand where they stand in the body.  `Tag.read_iff` is the one fact about the reader that
the grammar of blocks needs.
-/

namespace LayeredViews.Template

open Text (isBlank joinWith trim)

/-! ### Spellings -/

/-- Spells an identifier. -/
def Identifier (cs : List Char) : Prop :=
  cs ≠ [] ∧ ∀ c ∈ cs, c.isAlphanum = true ∨ c = '_'

/-- What a first segment is rooted in, in a scope. -/
inductive Rooted (scope : List String) : String → Root → Prop where
  | model : Rooted scope "model" .model
  | bag : Rooted scope "bag" .bag
  | loop {name : String} (inScope : name ∈ scope) (notModel : name ≠ "model")
    (notBag : name ≠ "bag") : Rooted scope name (.loop name)

/-- Spells an expression: identifiers with dots between them, of which the first is in scope. -/
inductive Expr.Spelled (scope : List String) : List Char → Expr → Prop where
  | segments {name : List Char} {path : List (List Char)} {root : Root}
    (identifiers : ∀ w ∈ name :: path, Identifier w)
    (rooted : Rooted scope (String.ofList name) root) :
    Spelled scope (joinWith '.' (name :: path))
      ⟨root, path.map String.ofList, String.ofList (joinWith '.' (name :: path))⟩

/-- Spells a text in quotes. -/
inductive Quoted : List Char → List Char → Prop where
  | quotes {text : List Char} (plain : '"' ∉ text) : Quoted ('"' :: text ++ ['"']) text

/-- Spells what a key is set to. -/
inductive SetValue.Spelled (scope : List String) : List Char → SetValue → Prop where
  | literal {cs text : List Char} (quoted : Quoted cs text) :
    Spelled scope cs (.literal (String.ofList text))
  | expr {cs : List Char} {e : Expr} (spelled : e.Spelled scope cs) : Spelled scope cs (.expr e)

/-- A body that starts with a word, and what follows the word without the blanks around it. -/
inductive Heads (word : String) : List Char → List Char → Prop where
  | alone : Heads word word.toList []
  | blank {c : Char} {more : List Char} (isBlank : isBlank c = true) :
    Heads word (word.toList ++ c :: more) (trim more)

/-- The words that start a directive. -/
def directives : List String :=
  ["render_body", "raw", "partial", "set", "if", "else", "/if", "each", "/each"]

/-- What the body of a tag asks for in a scope, by the form it has. -/
inductive Tag.Says (scope : List String) : List Char → Tag → Prop where
  | comment {cs : List Char} : Says scope ('!' :: cs) .comment
  | echo {body cs : List Char} {e : Expr} (heads : Heads (String.ofList cs) body [])
    (free : String.ofList cs ∉ directives) (spelled : e.Spelled scope cs) :
    Says scope body (.echo e true)
  | raw {body rest : List Char} {e : Expr} (heads : Heads "raw" body rest)
    (spelled : e.Spelled scope rest) : Says scope body (.echo e false)
  | renderBody {body : List Char} (heads : Heads "render_body" body []) :
    Says scope body .renderBody
  | partialView {body rest name : List Char} (heads : Heads "partial" body rest)
    (quoted : Quoted rest name) (named : ∃ c ∈ name, isBlank c = false) :
    Says scope body (.partialView (String.ofList name))
  | set {body left right : List Char} {value : SetValue}
    (heads : Heads "set" body (left ++ '=' :: right)) (first : '=' ∉ left)
    (key : Identifier (trim left)) (spelled : value.Spelled scope (trim right)) :
    Says scope body (.set (String.ofList (trim left)) value)
  | openCond {body rest : List Char} {e : Expr} (heads : Heads "if" body rest)
    (spelled : e.Spelled scope rest) : Says scope body (.openCond e)
  | otherwise {body : List Char} (heads : Heads "else" body []) : Says scope body .otherwise
  | openEach {body source binding trailing : List Char} {e : Expr}
    (heads : Heads "each" body (source ++ '|' :: (binding ++ '|' :: trailing)))
    (first : '|' ∉ source) (second : '|' ∉ binding)
    (last : ∀ c ∈ trailing, isBlank c = true) (key : Identifier (trim binding))
    (notModel : trim binding ≠ "model".toList) (notBag : trim binding ≠ "bag".toList)
    (spelled : e.Spelled scope (trim source)) :
    Says scope body (.openEach e (String.ofList (trim binding)))
  | close {body rest : List Char} (kind : BlockKind) (heads : Heads ("/" ++ kind.word) body rest) :
    Says scope body (.close kind)

/-! ### Readers -/

variable {scope : List String} {cs body rest : List Char}

theorem isIdentifier_iff : isIdentifier cs = true ↔ Identifier cs := by
  unfold isIdentifier Identifier
  cases cs <;> simp

theorem rootOf?_iff {name : String} {root : Root} :
    rootOf? scope name = some root ↔ Rooted scope name root := by
  unfold rootOf?
  constructor
  · intro h
    split at h
    · next hm =>
      obtain rfl := Option.some.inj h
      exact hm ▸ .model
    · next hm =>
      split at h
      · next hb =>
        obtain rfl := Option.some.inj h
        exact hb ▸ .bag
      · next hb =>
        split at h
        · next hc =>
          obtain rfl := Option.some.inj h
          exact .loop (by simpa using hc) hm hb
        · cases h
  · intro h
    cases h with
    | model => rfl
    | bag => rfl
    | loop inScope notModel notBag => simp [inScope, notModel, notBag]

theorem Identifier.dot_notMem (h : Identifier cs) : '.' ∉ cs := by
  intro hd
  rcases h.2 '.' hd with h | h <;> cases h

theorem Expr.read_iff {e : Expr} : Expr.read scope cs = .ok e ↔ e.Spelled scope cs := by
  unfold Expr.read
  constructor
  · intro h
    split at h
    · cases h
    dsimp only at h
    split at h
    · cases h
    next hall =>
    rcases hs : Text.pieces (· == '.') cs with _ | ⟨name, path⟩
    · exact absurd hs (Text.pieces_ne_nil _ cs)
    have hcs := Text.joinWith_pieces '.' cs
    rw [hs] at h hall hcs
    rw [List.map_cons] at h
    dsimp only at h
    split at h
    · next root hroot =>
      obtain rfl := Except.ok.inj h
      rw [← hcs]
      refine .segments (fun w hw => isIdentifier_iff.mp ?_) (rootOf?_iff.mp hroot)
      simp only [Bool.not_eq_true', Bool.not_eq_false, List.all_eq_true] at hall
      exact hall w hw
    · cases h
  · intro h
    cases h with
    | @segments name path root identifiers rooted =>
      have hpieces : Text.pieces (· == '.') (joinWith '.' (name :: path)) = name :: path :=
        Text.pieces_joinWith (by simp) fun w hw => (identifiers w hw).dot_notMem
      have hne : (joinWith '.' (name :: path)).isEmpty = false := by
        have hname := (identifiers name (by simp)).1
        cases path <;> cases name <;> simp [joinWith] at hname ⊢
      have hall : (name :: path).all isIdentifier = true :=
        List.all_eq_true.mpr fun w hw => isIdentifier_iff.mpr (identifiers w hw)
      simp only [hne, hpieces, hall, Bool.false_eq_true, if_false, Bool.not_true, List.map_cons,
        rootOf?_iff.mpr rooted]

theorem literal?_iff {text : List Char} : literal? cs = some text ↔ Quoted cs text := by
  unfold literal?
  constructor
  · intro h
    split at h
    · split at h
      · next inner hinner =>
        rw [Text.dropEnd?_iff] at hinner
        split at h
        · cases h
        · next hplain =>
          obtain rfl := Option.some.inj h
          rw [hinner]
          exact .quotes (by simpa using hplain)
      · cases h
    · cases h
  · intro h
    cases h with
    | quotes plain =>
      have hdrop : Text.dropEnd? ['"'] (text ++ ['"']) = some text := Text.dropEnd?_iff.mpr rfl
      simp [hdrop, plain]

/-- A spelled expression starts no quoted text. -/
theorem Expr.Spelled.literal?_eq_none {e : Expr} (h : e.Spelled scope cs) : literal? cs = none := by
  rw [Option.eq_none_iff_forall_ne_some]
  intro text hq
  obtain ⟨plain⟩ := literal?_iff.mp hq
  generalize hw : '"' :: text ++ ['"'] = w at h
  cases h with
  | @segments name path _ identifiers _ =>
    obtain ⟨hne, hchars⟩ := identifiers name (by simp)
    obtain ⟨c, name, rfl⟩ := List.exists_cons_of_ne_nil hne
    have hc : '"' = c := by
      cases path <;> exact (List.cons.inj hw).1
    rcases hchars c (by simp) with h | h <;> rw [← hc] at h <;> cases h

namespace Tag

theorem readPartial_iff {t : Tag} :
    readPartial rest body = .ok t ↔
      ∃ name, Quoted rest name ∧ (∃ c ∈ name, isBlank c = false) ∧
        t = .partialView (String.ofList name) := by
  unfold readPartial
  constructor
  · intro h
    split at h
    · next name hname =>
      split at h
      · cases h
      · next hblank =>
        obtain rfl := Except.ok.inj h
        refine ⟨name, literal?_iff.mp hname, ?_, rfl⟩
        by_contra hall
        refine hblank (List.isEmpty_iff.mpr (Text.trim_eq_nil_iff.mpr fun c hc => ?_))
        by_contra hc'
        exact hall ⟨c, hc, by simpa using hc'⟩
    · cases h
  · rintro ⟨name, hq, ⟨c, hc, hblank⟩, rfl⟩
    have hne : (trim name).isEmpty = false := by
      rw [Bool.eq_false_iff, ne_eq, List.isEmpty_iff, Text.trim_eq_nil_iff]
      intro hall
      rw [hall c hc] at hblank
      cases hblank
    rw [literal?_iff.mpr hq]
    simp [hne]

theorem readSet_iff {t : Tag} :
    readSet scope rest body = .ok t ↔
      ∃ left right value, rest = left ++ '=' :: right ∧ '=' ∉ left ∧ Identifier (trim left) ∧
        value.Spelled scope (trim right) ∧ t = .set (String.ofList (trim left)) value := by
  unfold readSet
  constructor
  · intro h
    split at h
    · cases h
    next left right hcut =>
    obtain ⟨hrest, hfirst⟩ := Text.cut?_beq_iff.mp hcut
    dsimp only at h
    split at h
    · cases h
    next hkey =>
    have hkey : Identifier (trim left) := isIdentifier_iff.mp (by simpa using hkey)
    split at h
    · next text htext =>
      obtain rfl := Except.ok.inj h
      exact ⟨left, right, _, hrest, hfirst, hkey, .literal (literal?_iff.mp htext), rfl⟩
    · rcases hread : Expr.read scope (trim right) with err | e <;> rw [hread] at h
      · cases h
      · obtain rfl := Except.ok.inj h
        exact ⟨left, right, _, hrest, hfirst, hkey, .expr (Expr.read_iff.mp hread), rfl⟩
  · rintro ⟨left, right, value, hrest, hfirst, hkey, hvalue, rfl⟩
    rw [Text.cut?_beq_iff.mpr ⟨hrest, hfirst⟩]
    simp only [isIdentifier_iff.mpr hkey, Bool.not_true, Bool.false_eq_true, if_false]
    cases hvalue with
    | literal quoted => rw [literal?_iff.mpr quoted]
    | expr spelled =>
      rw [spelled.literal?_eq_none, Expr.read_iff.mpr spelled]
      rfl

theorem readEach_iff {t : Tag} :
    readEach scope rest body = .ok t ↔
      ∃ source binding trailing e, rest = source ++ '|' :: (binding ++ '|' :: trailing) ∧
        '|' ∉ source ∧ '|' ∉ binding ∧ (∀ c ∈ trailing, isBlank c = true) ∧
        (Identifier (trim binding) ∧ trim binding ≠ "model".toList ∧
          trim binding ≠ "bag".toList) ∧
        Expr.Spelled scope (trim source) e ∧
        t = .openEach e (String.ofList (trim binding)) := by
  unfold readEach
  constructor
  · intro h
    split at h
    · cases h
    next source more hcut =>
    obtain ⟨hrest, hfirst⟩ := Text.cut?_beq_iff.mp hcut
    split at h
    · cases h
    next binding trailing hcut' =>
    obtain ⟨hmore, hsecond⟩ := Text.cut?_beq_iff.mp hcut'
    split at h
    · cases h
    next hlast =>
    have hlast : ∀ c ∈ trailing, isBlank c = true := by
      rw [← Text.trim_eq_nil_iff]
      simpa using hlast
    dsimp only at h
    split at h
    · cases h
    next hkey =>
    have hkey : Identifier (trim binding) ∧ trim binding ≠ "model".toList ∧
        trim binding ≠ "bag".toList := by
      rw [← isIdentifier_iff]
      simpa [and_assoc] using hkey
    rcases hread : Expr.read scope (trim source) with err | e <;> rw [hread] at h
    · cases h
    · obtain rfl := Except.ok.inj h
      exact ⟨source, binding, trailing, e, hmore ▸ hrest, hfirst, hsecond, hlast, hkey,
        Expr.read_iff.mp hread, rfl⟩
  · rintro ⟨source, binding, trailing, e, hrest, hfirst, hsecond, hlast, hkey, hsource, rfl⟩
    rw [Text.cut?_beq_iff.mpr ⟨hrest, hfirst⟩]
    dsimp only
    rw [Text.cut?_beq_iff.mpr ⟨rfl, hsecond⟩]
    have hkey' : (!isIdentifier (trim binding) || trim binding == "model".toList ||
        trim binding == "bag".toList) = false := by
      rw [isIdentifier_iff.mpr hkey.1, beq_eq_false_iff_ne.mpr hkey.2.1,
        beq_eq_false_iff_ne.mpr hkey.2.2]
      rfl
    simp only [Text.trim_eq_nil_iff.mpr hlast, List.isEmpty_nil, Bool.not_true, hkey',
      Bool.false_eq_true, if_false, Expr.read_iff.mpr hsource]
    rfl

/-! ### Heads -/

theorem heads_headOf (body : List Char) :
    Heads (String.ofList (headOf body).1) body (headOf body).2 := by
  have hword : ∀ cs : List Char, (String.ofList cs).toList = cs := fun cs => String.toList_ofList
  unfold headOf
  split
  · next head rest hcut =>
    obtain ⟨c, hc, rfl, -⟩ := Text.cut?_eq_some hcut
    have h : Heads (String.ofList head) ((String.ofList head).toList ++ c :: rest) (trim rest) :=
      .blank hc
    rwa [hword] at h
  · have h : Heads (String.ofList body) (String.ofList body).toList [] := .alone
    rwa [hword] at h

theorem headOf_of_heads {word : String} (h : Heads word body rest)
    (hword : ∀ c ∈ word.toList, isBlank c = false) : headOf body = (word.toList, rest) := by
  unfold headOf
  cases h with
  | alone => rw [Text.cut?_eq_none hword]
  | blank hc => rw [Text.cut?_append hword hc]

/-- A word that starts a body which is read by its head. -/
structure Plain (word : List Char) : Prop where
  unbroken : ∀ c ∈ word, isBlank c = false
  nonempty : word ≠ []
  noComment : word.head? ≠ some '!'

theorem plain_of_mem_directives {word : String} (h : word ∈ directives) : Plain word.toList := by
  have hall : ∀ w ∈ directives, w.toList.all (fun c => !isBlank c) = true ∧ w.toList ≠ [] ∧
      w.toList.head? ≠ some '!' := by decide
  obtain ⟨hunbroken, hne, hhead⟩ := hall word h
  exact ⟨by simpa using hunbroken, hne, hhead⟩

theorem plain_of_spelled {e : Expr} (h : e.Spelled scope cs) : Plain cs := by
  cases h with
  | @segments name path _ identifiers _ =>
    have hchar : ∀ c ∈ joinWith '.' (name :: path), c.isAlphanum = true ∨ c = '_' ∨ c = '.' := by
      intro c hc
      rcases Text.mem_joinWith hc with hdot | ⟨w, hw, hcw⟩
      · exact Or.inr (Or.inr hdot)
      · exact ((identifiers w hw).2 c hcw).imp_right Or.inl
    refine ⟨fun c hc => ?_, ?_, fun hhead => ?_⟩
    · rcases hchar c hc with h | rfl | rfl
      · exact Text.isBlank_of_isAlphanum h
      · decide
      · decide
    · have hname := (identifiers name (by simp)).1
      cases path <;> cases name <;> simp [joinWith] at hname ⊢
    · rcases hchar '!' (List.mem_of_head? hhead) with h | h | h <;> cases h

theorem read_of_heads {word : String} (h : Heads word body rest) (hplain : Plain word.toList) :
    read scope body = readHead scope word.toList rest body := by
  obtain ⟨c, cs, hcs⟩ := List.exists_cons_of_ne_nil hplain.nonempty
  have hbody : ∃ more, body = c :: more := by
    cases h with
    | alone => exact ⟨cs, hcs⟩
    | @blank d more _ => exact ⟨cs ++ d :: more, by rw [hcs]; rfl⟩
  obtain ⟨more, rfl⟩ := hbody
  have hc : c ≠ '!' := by
    have := hplain.noComment
    rw [hcs] at this
    simpa using this
  unfold read
  split
  · next heq => cases heq
  · next heq => exact absurd (List.cons.inj heq).1 hc
  · rw [headOf_of_heads h hplain.unbroken]

theorem readHead_of_free {head : List Char} (free : String.ofList head ∉ directives) :
    readHead scope head rest body =
      if rest.isEmpty then (Expr.read scope head).map fun e => .echo e true
      else .error (.unknownDirective (String.ofList head)) := by
  simp only [directives, List.mem_cons, List.not_mem_nil, or_false, not_or] at free
  unfold readHead
  split <;> simp_all

theorem form_of_readHead {head : List Char} {t : Tag}
    (hheads : Heads (String.ofList head) body rest)
    (h : readHead scope head rest body = .ok t) : Says scope body t := by
  have hexpr : ∀ {cs : List Char} {make : Expr → Tag},
      (Expr.read scope cs).map make = .ok t → ∃ e, Expr.Spelled scope cs e ∧ t = make e := by
    intro cs make h
    rcases hread : Expr.read scope cs with err | e <;> rw [hread] at h
    · cases h
    · exact ⟨e, Expr.read_iff.mp hread, (Except.ok.inj h).symm⟩
  have hempty : ∀ {make : Tag} {err : TagError},
      (if rest.isEmpty then Except.ok make else .error err) = .ok t → rest = [] ∧ t = make := by
    intro make err h
    split at h
    · next he => exact ⟨List.isEmpty_iff.mp he, (Except.ok.inj h).symm⟩
    · cases h
  unfold readHead at h
  split at h
  · next hw =>
    obtain ⟨rfl, rfl⟩ := hempty h
    exact .renderBody (hw ▸ hheads)
  · next hw =>
    obtain ⟨e, he, rfl⟩ := hexpr h
    exact .raw (hw ▸ hheads) he
  · next hw =>
    obtain ⟨name, hq, hnamed, rfl⟩ := readPartial_iff.mp h
    exact .partialView (hw ▸ hheads) hq hnamed
  · next hw =>
    obtain ⟨left, right, value, rfl, hfirst, hkey, hvalue, rfl⟩ := readSet_iff.mp h
    exact .set (hw ▸ hheads) hfirst hkey hvalue
  · next hw =>
    obtain ⟨e, he, rfl⟩ := hexpr h
    exact .openCond (hw ▸ hheads) he
  · next hw =>
    obtain ⟨rfl, rfl⟩ := hempty h
    exact .otherwise (hw ▸ hheads)
  · next hw =>
    obtain rfl := Except.ok.inj h
    exact .close .cond (hw ▸ hheads)
  · next hw =>
    obtain ⟨source, binding, trailing, e, rfl, hfirst, hsecond, hlast, hkey, he, rfl⟩ :=
      readEach_iff.mp h
    exact .openEach (hw ▸ hheads) hfirst hsecond hlast hkey.1 hkey.2.1 hkey.2.2 he
  · next hw =>
    obtain rfl := Except.ok.inj h
    exact .close .each (hw ▸ hheads)
  · split at h
    · next hrest =>
      obtain rfl := List.isEmpty_iff.mp hrest
      obtain ⟨e, he, rfl⟩ := hexpr h
      refine .echo hheads ?_ he
      simp only [directives, List.mem_cons, List.not_mem_nil, or_false, not_or]
      and_intros <;> assumption
    · cases h

/-- The reader of tags reads exactly the forms that say something, and reads what they say. -/
theorem read_iff {t : Tag} : read scope body = .ok t ↔ Says scope body t := by
  constructor
  · intro h
    unfold read at h
    split at h
    · cases h
    · obtain rfl := Except.ok.inj h
      exact .comment
    · exact form_of_readHead (heads_headOf body) h
  · intro h
    have hdirective : ∀ {word : String} {rest : List Char}, word ∈ directives →
        Heads word body rest → read scope body = readHead scope word.toList rest body :=
      fun hword hheads => read_of_heads hheads (plain_of_mem_directives hword)
    cases h with
    | comment => rfl
    | @echo _ cs e heads free spelled =>
      have hcs : (String.ofList cs).toList = cs := String.toList_ofList
      rw [read_of_heads heads (by rw [hcs]; exact plain_of_spelled spelled), hcs,
        readHead_of_free free, Expr.read_iff.mpr spelled]
      rfl
    | raw heads spelled =>
      rw [hdirective (by decide) heads]
      show (Expr.read scope _).map _ = _
      rw [Expr.read_iff.mpr spelled]
      rfl
    | renderBody heads => exact hdirective (by decide) heads
    | partialView heads quoted named =>
      rw [hdirective (by decide) heads]
      exact readPartial_iff.mpr ⟨_, quoted, named, rfl⟩
    | set heads first key spelled =>
      rw [hdirective (by decide) heads]
      exact readSet_iff.mpr ⟨_, _, _, rfl, first, key, spelled, rfl⟩
    | openCond heads spelled =>
      rw [hdirective (by decide) heads]
      show (Expr.read scope _).map _ = _
      rw [Expr.read_iff.mpr spelled]
      rfl
    | otherwise heads => exact hdirective (by decide) heads
    | openEach heads first second last key notModel notBag spelled =>
      rw [hdirective (by decide) heads]
      exact readEach_iff.mpr ⟨_, _, _, _, rfl, first, second, last, ⟨key, notModel, notBag⟩, spelled,
        rfl⟩
    | close kind heads => cases kind <;> exact hdirective (by decide) heads

end Tag

end LayeredViews.Template
