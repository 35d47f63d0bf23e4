import LayeredViews.Proofs.Ending
import LayeredViews.Proofs.Text.Split
import LayeredViews.Settings

/-!
# Extensions from the environment — what cleaning leaves of an entry

An entry loses the blanks around it and then the dots before it (`cleanExtension_iff`).  A blank behind these dots
stays, as nothing takes blanks off once the dots are gone, so that cleaning what is left changes it again.  An extension
that is read is clean exactly if cleaning leaves it as it is (`isClean_iff_of_mem`).
-/

namespace LayeredViews.Settings

open Text

variable {entry word w : List Char} {entries : List (List Char)} {e : String} {extensions : List String}

/-! ### One entry -/

/-- The entry is the word with dots before it and blanks around these. -/
def Wraps (entry word : List Char) : Prop :=
  ∃ dots, (∀ c ∈ dots, c = '.') ∧ (∀ c ∈ word.head?, c ≠ '.') ∧ Surrounded isBlank entry (dots ++ word)

/-- Dots that are not the end of the entry stand in front of a blank, with at most blanks before them. -/
def HidesBlank (entry : List Char) : Prop :=
  ∃ front dots blank after, entry = front ++ (dots ++ blank :: after) ∧ (∀ c ∈ front, isBlank c = true) ∧
    dots ≠ [] ∧ (∀ c ∈ dots, c = '.') ∧ isBlank blank = true ∧ ∃ c ∈ after, isBlank c = false

theorem cleanExtension_iff : cleanExtension entry = word ↔ Wraps entry word := by
  constructor
  · rintro rfl
    refine ⟨(trim entry).takeWhile (· == '.'), fun c hc => ?_, fun c hc => ?_, ?_⟩
    · exact beq_iff_eq.mp (List.mem_takeWhile_imp (p := (· == '.')) hc)
    · exact beq_eq_false_iff_ne.mp (first_dropWhile (· == '.') (trim entry) c hc)
    · unfold cleanExtension
      rw [List.takeWhile_append_dropWhile]
      exact surrounded_trimEnds isBlank entry
  · rintro ⟨dots, hdots, hfirst, haround⟩
    have htrim : trim entry = dots ++ word := trimEnds_iff.mpr haround
    unfold cleanExtension
    rw [htrim]
    exact dropWhile_append_of_first (fun c hc => beq_iff_eq.mpr (hdots c hc))
      fun c hc => beq_eq_false_iff_ne.mpr (hfirst c hc)

theorem isBlank_dot : isBlank '.' = false := by decide

/-- A word starts with a blank if dots have hidden it. -/
theorem Wraps.starts_blank_iff (h : Wraps entry word) : (∃ c ∈ word.head?, isBlank c = true) ↔ HidesBlank entry := by
  constructor
  · rintro ⟨blank, hhead, hblank⟩
    obtain ⟨after, rfl⟩ := List.head?_eq_some_iff.mp hhead
    obtain ⟨dots, hdots, -, haround⟩ := h
    obtain ⟨⟨front, back, rfl, hfront, -⟩, hfirst, hlast⟩ := haround
    have hne : dots ≠ [] := by
      rintro rfl
      simp [hblank] at hfirst
    refine ⟨front, dots, blank, after ++ back, by simp, hfront, hne, hdots, hblank, ?_⟩
    rcases List.eq_nil_or_concat' after with rfl | ⟨init, last, rfl⟩
    · simp [hblank] at hlast
    · exact ⟨last, by simp, hlast last (List.getLast?_eq_some_iff.mpr ⟨dots ++ blank :: init, by simp⟩)⟩
  · rintro ⟨front, dots, blank, after, rfl, hfront, hne, hdots, hblank, c, hc, hnot⟩
    -- the blanks at the end come off, and a character is left behind the blank
    obtain ⟨init, last, back, rfl, hend, hback⟩ := exists_last ⟨c, hc, hnot⟩
    have haround : Surrounded isBlank (front ++ (dots ++ blank :: (init ++ last :: back)))
        (dots ++ blank :: (init ++ [last])) := by
      refine ⟨⟨front, back, by simp, hfront, hback⟩, ?_, ?_⟩
      · obtain ⟨dot, dots', rfl⟩ := List.exists_cons_of_ne_nil hne
        rintro c ⟨⟩
        rw [hdots dot List.mem_cons_self]
        exact isBlank_dot
      · intro c hc
        have hlast : (dots ++ blank :: (init ++ [last])).getLast? = some last :=
          List.getLast?_eq_some_iff.mpr ⟨dots ++ blank :: init, by simp⟩
        rw [hlast] at hc
        exact Option.some.inj hc ▸ hend
    have hfirst : ∀ c ∈ (blank :: (init ++ [last])).head?, c ≠ '.' := by
      rintro c ⟨⟩ rfl
      simp [isBlank_dot] at hblank
    have hword : word = blank :: (init ++ [last]) :=
      (cleanExtension_iff.mpr h).symm.trans (cleanExtension_iff.mpr ⟨dots, hdots, hfirst, haround⟩)
    exact ⟨blank, by simp [hword], hblank⟩

/-- What is left of an entry does not end with a blank. -/
theorem Wraps.last_not_blank (h : Wraps entry word) : ∀ c ∈ word.getLast?, isBlank c = false := by
  obtain ⟨dots, -, -, -, -, hlast⟩ := h
  intro c hc
  refine hlast c ?_
  rw [List.getLast?_append, Option.mem_def.mp hc]
  rfl

/-- Cleaning leaves a text as it is that is clean at both ends. -/
theorem wraps_self_iff : Wraps w w ↔
    (∀ c ∈ w.head?, isBlank c = false ∧ c ≠ '.') ∧ ∀ c ∈ w.getLast?, isBlank c = false := by
  constructor
  · rintro ⟨dots, -, hdot, ⟨front, back, hw, -, -⟩, hfirst, hlast⟩
    -- nothing has come off, as the text is as long as before
    have hlength := congrArg List.length hw
    simp only [List.length_append] at hlength
    obtain rfl : dots = [] := List.eq_nil_of_length_eq_zero (by omega)
    exact ⟨fun c hc => ⟨hfirst c hc, hdot c hc⟩, hlast⟩
  · rintro ⟨hfirst, hlast⟩
    exact ⟨[], by simp, fun c hc => (hfirst c hc).2, ⟨[], [], by simp, by simp, by simp⟩,
      fun c hc => (hfirst c hc).1, hlast⟩

/-- Cleaning what is left of an entry leaves it as it is, unless a blank has come to its start. -/
theorem cleanExtension_cleanExtension_iff :
    cleanExtension (cleanExtension entry) = cleanExtension entry ↔ ¬ HidesBlank entry := by
  have hwraps : Wraps entry (cleanExtension entry) := cleanExtension_iff.mp rfl
  rw [cleanExtension_iff, wraps_self_iff, ← hwraps.starts_blank_iff]
  obtain ⟨dots, -, hdot, -⟩ := id hwraps
  constructor
  · rintro ⟨hfirst, -⟩ ⟨c, hc, hblank⟩
    simp [(hfirst c hc).1] at hblank
  · intro hnone
    refine ⟨fun c hc => ⟨?_, hdot c hc⟩, hwraps.last_not_blank⟩
    exact Bool.eq_false_iff.mpr fun hblank => hnone ⟨c, hc, hblank⟩

/-! ### All entries -/

/-- An extension that is not empty and has neither a dot at its start, nor a blank at its end, nor a comma. -/
structure IsUndotted (extension : String) : Prop where
  nonempty : extension ≠ ""
  dotless : ∀ c ∈ extension.toList.head?, c ≠ '.'
  last : ∀ c ∈ extension.toList.getLast?, isBlank c = false
  unbroken : ',' ∉ extension.toList

/-- An extension under which a file can be found as it is written. -/
structure IsClean (extension : String) : Prop extends IsUndotted extension where
  first : ∀ c ∈ extension.toList.head?, isBlank c = false

/-- The extensions are the words in the entries, one by one and in the same order, where entries without a word do not
count. -/
inductive Yields : List (List Char) → List String → Prop where
  | nil : Yields [] []
  | skip {entry : List Char} {entries : List (List Char)} {extensions : List String} (hentry : Wraps entry [])
      (h : Yields entries extensions) : Yields (entry :: entries) extensions
  | word {entry : List Char} {entries : List (List Char)} {e : String} {extensions : List String} (hne : e ≠ "")
      (hentry : Wraps entry e.toList) (h : Yields entries extensions) : Yields (entry :: entries) (e :: extensions)

/-- The extensions that cleaning makes of entries. -/
theorem yields_clean (entries : List (List Char)) :
    Yields entries (((entries.map cleanExtension).filter fun w => !w.isEmpty).map String.ofList) := by
  induction entries with
  | nil => exact .nil
  | cons entry entries ih =>
    have hwraps : Wraps entry (cleanExtension entry) := cleanExtension_iff.mp rfl
    cases hword : cleanExtension entry with
    | nil =>
      rw [hword] at hwraps
      simpa [hword] using Yields.skip hwraps ih
    | cons c word =>
      rw [hword] at hwraps
      simpa [hword] using Yields.word (e := String.ofList (c :: word)) (by simp) (by simpa using hwraps) ih

theorem mem_readExtensions {value : String} : e ∈ readExtensions value ↔
    e ≠ "" ∧ ∃ entry ∈ pieces (· == ',') value.toList, cleanExtension entry = e.toList := by
  unfold readExtensions
  simp only [List.mem_map, List.mem_filter]
  constructor
  · rintro ⟨-, ⟨⟨entry, hentry, rfl⟩, hne⟩, rfl⟩
    exact ⟨by simpa using hne, entry, hentry, by rw [String.toList_ofList]⟩
  · rintro ⟨hne, entry, hentry, hword⟩
    exact ⟨e.toList, ⟨⟨entry, hentry, hword⟩, by simpa using hne⟩, String.ofList_toList⟩

theorem isUndotted_of_mem {value : String} (h : e ∈ readExtensions value) : IsUndotted e := by
  obtain ⟨hne, entry, hentry, hword⟩ := mem_readExtensions.mp h
  have hwraps := cleanExtension_iff.mp hword
  obtain ⟨dots, -, hdot, ⟨front, back, rfl, -⟩, -⟩ := id hwraps
  refine ⟨hne, hdot, hwraps.last_not_blank, fun hcomma => ?_⟩
  simpa using not_of_mem_pieces hentry ',' (by simp [hcomma])

/-- The extensions that are read are clean exactly if cleaning leaves each of them as it is. -/
theorem isClean_iff_of_mem {value : String} (h : e ∈ readExtensions value) :
    IsClean e ↔ cleanExtension e.toList = e.toList := by
  have hundotted := isUndotted_of_mem h
  rw [cleanExtension_iff, wraps_self_iff]
  constructor
  · exact fun hclean => ⟨fun c hc => ⟨hclean.first c hc, hclean.dotless c hc⟩, hclean.last⟩
  · exact fun ⟨hfirst, _⟩ => ⟨hundotted, fun c hc => (hfirst c hc).1⟩

/-- The extensions that are read are clean exactly if no entry hides a blank behind dots. -/
theorem readExtensions_clean_iff (value : String) : (∀ e ∈ readExtensions value, IsClean e) ↔
    ∀ entry ∈ pieces (· == ',') value.toList, ¬ HidesBlank entry := by
  constructor
  · intro hclean entry hentry hhides
    obtain ⟨c, hc, hblank⟩ := (cleanExtension_iff.mp rfl : Wraps entry _).starts_blank_iff.mpr hhides
    have hne : cleanExtension entry ≠ [] := by
      intro hnil
      simp [hnil] at hc
    have hmem : String.ofList (cleanExtension entry) ∈ readExtensions value :=
      mem_readExtensions.mpr ⟨by simpa using hne, entry, hentry, by rw [String.toList_ofList]⟩
    have hfirst := (hclean _ hmem).first c (by rwa [String.toList_ofList])
    simp [hfirst] at hblank
  · intro hnone e he
    rw [isClean_iff_of_mem he]
    obtain ⟨-, entry, hentry, hword⟩ := mem_readExtensions.mp he
    rw [← hword]
    exact cleanExtension_cleanExtension_iff.mpr (hnone entry hentry)

theorem filter_map_eq_self_iff {α : Type} {f : α → α} {p : α → Bool} {l : List α} (hp : ∀ a ∈ l, p a = true) :
    (l.map f).filter p = l ↔ ∀ a ∈ l, f a = a := by
  have hmap : l.map f = l ↔ ∀ a ∈ l, f a = a := by
    simpa using List.map_inj_left (f := f) (g := id) (l := l)
  rw [← hmap]
  constructor
  · intro h
    have hlength : ((l.map f).filter p).length = (l.map f).length := by rw [h, List.length_map]
    rwa [List.filter_eq_self.mpr (List.length_filter_eq_length_iff.mp hlength)] at h
  · intro h
    rw [h, List.filter_eq_self.mpr hp]

/-- Extensions put together with commas are read back exactly if cleaning leaves each of them as it is. -/
theorem readExtensions_intercalate_iff (hextensions : ∀ e ∈ extensions, IsUndotted e) :
    readExtensions (",".intercalate extensions) = extensions ↔
      ∀ e ∈ extensions, cleanExtension e.toList = e.toList := by
  cases hempty : extensions with
  | nil => exact iff_of_true rfl (by simp)
  | cons first rest =>
    rw [← hempty]
    have hpieces : pieces (· == ',') (",".intercalate extensions).toList = extensions.map String.toList := by
      rw [String.toList_intercalate]
      refine (congrArg _ (joinWith_eq_intercalate ',' _).symm).trans (pieces_joinWith (by simp [hempty]) ?_)
      exact List.forall_mem_map.mpr fun e he => (hextensions e he).unbroken
    have hne : ∀ w ∈ extensions.map String.toList, (!w.isEmpty) = true :=
      List.forall_mem_map.mpr fun e he => by simpa using (hextensions e he).nonempty
    have hback : ∀ ws : List (List Char), ws.map String.ofList = extensions ↔ ws = extensions.map String.toList := by
      refine fun ws => ⟨?_, ?_⟩
      · rintro rfl
        simp [Function.comp_def]
      · rintro rfl
        simp [Function.comp_def]
    unfold readExtensions
    rw [hpieces, hback, filter_map_eq_self_iff hne, List.forall_mem_map]

/-! ### The environment -/

/-- The change is not refused, whatever the settings. -/
def Succeeds (change : Change Unit) : Prop :=
  ∀ s, ∃ s', ending change s = (.ok (), s')

theorem Succeeds.bind {change : Change Unit} {next : Unit → Change Unit} (h : Succeeds change)
    (hnext : Succeeds (next ())) : Succeeds (change >>= next) := by
  intro s
  obtain ⟨t, ht⟩ := h s
  rw [ending_bind_ok ht]
  exact hnext t

section

variable {env env' : String → Option String} {s s' : Settings}

theorem applyVariable_ok_iff {α : Type} {name : String} {read : String → String → Except SettingsError α}
    {set : α → Settings → Settings} : ending (applyVariable env name read set) s = (.ok (), s') ↔
      (env name = none ∧ s' = s) ∨ ∃ value a, env name = some value ∧ read name value = .ok a ∧ s' = set a s := by
  unfold ending applyVariable
  cases env name with
  | none => simp [eq_comm]
  | some value => cases hread : read name value <;> simp [hread, eq_comm]

/-- Whether a variable can be read does not depend on the settings. -/
theorem succeeds_applyVariable {α : Type} {name : String} {read : String → String → Except SettingsError α}
    {set : α → Settings → Settings} (h : ending (applyVariable env name read set) s = (.ok (), s'))
    (henv : env' name = env name) : Succeeds (applyVariable env' name read set) := by
  intro t
  rcases applyVariable_ok_iff.mp h with ⟨hnone, -⟩ | ⟨value, a, hvalue, hread, -⟩
  · exact ⟨t, applyVariable_ok_iff.mpr (.inl ⟨henv.trans hnone, rfl⟩)⟩
  · exact ⟨set a t, applyVariable_ok_iff.mpr (.inr ⟨value, a, henv.trans hvalue, hread, rfl⟩)⟩

theorem extensions_of_applyEnvironment {value : String} (henv : env "VIEWFORGE_EXTENSIONS" = some value)
    (h : ending (applyEnvironment env) s = (.ok (), s')) : s'.extensions = readExtensions value := by
  unfold applyEnvironment at h
  obtain ⟨_, _, -, h⟩ := ending_bind_eq_ok_iff.mp h
  obtain ⟨_, _, -, h⟩ := ending_bind_eq_ok_iff.mp h
  obtain ⟨_, _, -, h⟩ := ending_bind_eq_ok_iff.mp h
  obtain ⟨_, _, -, h⟩ := ending_bind_eq_ok_iff.mp h
  rcases applyVariable_ok_iff.mp h with ⟨hnone, -⟩ | ⟨value', a, hvalue, hread, rfl⟩
  · simp [henv] at hnone
  · obtain rfl := Option.some.inj (henv.symm.trans hvalue)
    exact (Except.ok.inj hread).symm

/-- Other extensions can be set in an environment that can be applied. -/
theorem succeeds_update (h : ending (applyEnvironment env) s = (.ok (), s')) (value : String) :
    Succeeds (applyEnvironment (Function.update env "VIEWFORGE_EXTENSIONS" (some value))) := by
  have hsame : ∀ name, name ≠ "VIEWFORGE_EXTENSIONS" →
      Function.update env "VIEWFORGE_EXTENSIONS" (some value) name = env name := fun name hname =>
    Function.update_of_ne hname _ _
  unfold applyEnvironment at h ⊢
  obtain ⟨_, _, hlayout, h⟩ := ending_bind_eq_ok_iff.mp h
  obtain ⟨_, _, hlimit, h⟩ := ending_bind_eq_ok_iff.mp h
  obtain ⟨_, _, hdepth, h⟩ := ending_bind_eq_ok_iff.mp h
  obtain ⟨_, _, hcache, -⟩ := ending_bind_eq_ok_iff.mp h
  refine (succeeds_applyVariable hlayout (hsame _ (by decide))).bind ?_
  refine (succeeds_applyVariable hlimit (hsame _ (by decide))).bind ?_
  refine (succeeds_applyVariable hdepth (hsame _ (by decide))).bind ?_
  refine (succeeds_applyVariable hcache (hsame _ (by decide))).bind fun t => ?_
  exact ⟨_, applyVariable_ok_iff.mpr (.inr ⟨value, _, Function.update_self _ _ _, rfl, rfl⟩)⟩

/-- The extensions of an environment are the words of its entries in their order.  They are clean, and setting them once
more leaves them as they are, exactly if no entry hides a blank behind dots. -/
theorem extensions_clean_iff {value : String} (henv : env "VIEWFORGE_EXTENSIONS" = some value)
    (hrun : ending (applyEnvironment env) s = (.ok (), s')) :
    Yields (pieces (· == ',') value.toList) s'.extensions ∧ (∀ e ∈ s'.extensions, IsUndotted e) ∧
      ((∀ e ∈ s'.extensions, IsClean e) ↔ ∀ entry ∈ pieces (· == ',') value.toList, ¬ HidesBlank entry) ∧
      (∃ again, ending (applyEnvironment (Function.update env "VIEWFORGE_EXTENSIONS"
        (some (",".intercalate s'.extensions)))) s' = (.ok (), again)) ∧
      ∀ env' t again, env' "VIEWFORGE_EXTENSIONS" = some (",".intercalate s'.extensions) →
        ending (applyEnvironment env') t = (.ok (), again) →
        (again.extensions = s'.extensions ↔ ∀ entry ∈ pieces (· == ',') value.toList, ¬ HidesBlank entry) := by
  have hextensions := extensions_of_applyEnvironment henv hrun
  have hundotted : ∀ e ∈ readExtensions value, IsUndotted e := fun e he => isUndotted_of_mem he
  refine ⟨hextensions ▸ yields_clean _, hextensions ▸ hundotted, hextensions ▸ readExtensions_clean_iff value,
    succeeds_update hrun _ s', fun env' t again henv' hagain => ?_⟩
  rw [extensions_of_applyEnvironment henv' hagain, hextensions, readExtensions_intercalate_iff hundotted,
    ← readExtensions_clean_iff]
  exact forall₂_congr fun e he => (isClean_iff_of_mem he).symm

/-- An entry whose dot stands in front of a blank. -/
theorem extensions_not_clean_dotBlank :
    let env : String → Option String := fun name => if name = "VIEWFORGE_EXTENSIONS" then some ". html" else none
    let s : Settings := { Settings.default with extensions := [" html"] }
    ending (applyEnvironment env) Settings.default = (.ok (), s) ∧ ¬ (∀ e ∈ s.extensions, IsClean e) ∧
      ∃ again,
        ending (applyEnvironment (Function.update env "VIEWFORGE_EXTENSIONS" (some " html"))) s = (.ok (), again) ∧
          again.extensions ≠ s.extensions := by
  intro env s
  have hrun : ending (applyEnvironment env) Settings.default = (.ok (), s) := by decide +kernel
  have hhides : HidesBlank ". html".toList :=
    ⟨[], ['.'], ' ', "html".toList, rfl, by simp, by simp, by simp, by decide, 'h', by decide, by decide⟩
  have hnot : ¬ ∀ entry ∈ pieces (· == ',') ". html".toList, ¬ HidesBlank entry := fun h =>
    h ". html".toList (by decide +kernel) hhides
  have hvalue : env "VIEWFORGE_EXTENSIONS" = some ". html" := rfl
  obtain ⟨-, -, hclean, ⟨again, hagain⟩, hstable⟩ := extensions_clean_iff hvalue hrun
  refine ⟨hrun, fun h => hnot (hclean.mp h), again, hagain, fun h => hnot ?_⟩
  exact (hstable _ _ _ (Function.update_self _ _ _) hagain).mp h

end

end LayeredViews.Settings
