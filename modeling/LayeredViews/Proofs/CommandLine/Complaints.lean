import LayeredViews.CommandLine.Run
import LayeredViews.Proofs.Json.Texts

/-!
# Complaints — what a reader of JSON makes of the standard error

The complaint of a render is written as a JSON value, and its message is read back whatever characters it has.  In the
other complaints the message stands between quotes as it is, and it is read back exactly if all its characters are plain
(`reports_plainField_iff`).
-/

namespace LayeredViews.CommandLine

open Json

variable {before message : String} {done : List (String × Json)} {wording : Wording}

/-- The line is a JSON object whose error field has the message as its value. -/
def Reports (line message : String) : Prop :=
  ∃ fields, Json.read line = .ok (.obj fields) ∧ Table.find? "error" fields = some (.str message)

/-- What a complaint has to tell, apart from how it is written. -/
def Complaint.message? (wording : Wording) : Complaint → Option String
  | .usage => none
  | .settings e => some ("Failed to load settings: " ++ e.message wording)
  | .model e => some ("Invalid model: " ++ wording (some e))
  | .viewNotFound name => some ("View not found: " ++ name)
  | .render e => some e.message
  | .listing e => some e.message
  | .check e => some e.message

/-! ### Messages as they are -/

/-- The fields before the error field of a line, all of them truth values. -/
structure Introduces (before : String) (done : List (String × Json)) : Prop where
  run : Machine.start.run ("\x7b" ++ before ++ "\"error\": \"").toList =
    .ok ⟨[.fields done (some "error")], .string [] .plain⟩
  bools : ∀ e ∈ done, ∃ b, e.2 = .bool b

theorem introduces_nothing : Introduces "" [] := ⟨rfl, by simp⟩

theorem introduces_success : Introduces "\"success\": false, " [("success", .bool false)] := ⟨rfl, by simp⟩

theorem introduces_valid : Introduces "\"valid\": false, " [("valid", .bool false)] := ⟨rfl, by simp⟩

theorem toList_plainField (before message : String) : (plainField before message "").toList =
    ("\x7b" ++ before ++ "\"error\": \"").toList ++ (message.toList ++ ['"', '\x7d']) := by
  simp [plainField]

theorem read_eq_ok_iff {text : String} {v : Json} :
    Json.read text = .ok v ↔ ∃ m, Machine.start.run text.toList = .ok m ∧ m.finish = .ok v := by
  unfold Json.read
  cases Machine.start.run text.toList <;> simp

/-- Between quotes as it is, a message is read back exactly if its characters are plain. -/
theorem reports_plainField_iff (h : Introduces before done) :
    Reports (plainField before message "") message ↔ ∀ c ∈ message.toList, IsPlain c := by
  have hline : Machine.start.run (plainField before message "").toList =
      Machine.run ⟨[.fields done (some "error")], .string [] .plain⟩ (message.toList ++ ['"', '\x7d']) := by
    rw [toList_plainField, Machine.run_append, h.run]
    rfl
  unfold Reports
  simp only [read_eq_ok_iff, hline]
  constructor
  · rintro ⟨fields, ⟨m, hrun, hfinish⟩, herror⟩
    by_contra hnot
    -- all texts in the object would be shorter than the message
    have hdone : (Container.fields done (some "error")).TextsBelow message.toList.length := by
      intro e he
      obtain ⟨b, hb⟩ := h.bools e he
      exact hb ▸ .bool b
    obtain - | - | - | - | - | hfields :=
      Machine.textsBelow_of_not_plain hnot (List.forall_mem_singleton.mpr hdone) hrun hfinish
    have hmessage : (Json.str message).TextsBelow message.toList.length := hfields _ (Table.mem_of_find? herror)
    cases hmessage with
    | str hshort => exact absurd (String.length_toList ▸ hshort) (Nat.lt_irrefl _)
  · intro hplain
    refine ⟨setField "error" (.str message) done, ⟨⟨[], .finished (.obj _)⟩, ?_, rfl⟩, ?_⟩
    · rw [Machine.run_plain hplain, List.append_nil]
      have hquote : Machine.step ⟨[.fields done (some "error")], .string message.toList.reverse .plain⟩ '"' =
          .ok ⟨[.fields (setField "error" (.str message) done) none], .between .next⟩ := Machine.step_quote _ message
      exact Machine.run_cons hquote ['\x7d']
    · rw [setField, Table.find?_insert, if_pos rfl]

/-! ### Messages as JSON values -/

/-- The complaint of a render is read back, whatever characters its message has. -/
theorem reports_render (e : RenderError) : Reports ((Complaint.render e).line wording) e.message := by
  let fields := setField "partialOutput" (.bool e.isPartialOutput)
    (setField "error" (.str e.message) (setField "success" (.bool false) []))
  have hobject : Json.object [("success", .bool false), ("error", .str e.message),
      ("partialOutput", .bool e.isPartialOutput)] = .obj fields := by simp [object, fields]
  have hechoes : Echoes 1 (.obj fields) := by
    refine echoes_obj ?_ fun field hfield => ?_
    · have horder := Text.before_order
      exact ((Table.ordered_nil.insert horder _ _).insert horder _ _).insert horder _ _
    · rcases Table.mem_insert hfield with rfl | hfield
      · exact echoes_bool 0 _
      · rcases Table.mem_insert hfield with rfl | hfield
        · exact echoes_str 0 _
        · rcases Table.mem_insert hfield with rfl | hfield
          · exact echoes_bool 0 _
          · cases hfield
  rw [Complaint.line, hobject]
  exact ⟨fields, read_compact hechoes (by decide), by simp [fields, setField, Table.find?_insert]⟩

/-! ### All complaints -/

/-- A complaint that tells something is read back exactly if a render makes it, or its message is plain. -/
theorem reports_line_iff {c : Complaint} (h : c.message? wording = some message) :
    Reports (c.line wording) message ↔ (∃ e, c = .render e) ∨ ∀ ch ∈ message.toList, IsPlain ch := by
  have hplain : ∀ {before done}, Introduces before done → (∀ e, c ≠ .render e) →
      c.line wording = plainField before message "" →
      (Reports (c.line wording) message ↔ (∃ e, c = .render e) ∨ ∀ ch ∈ message.toList, IsPlain ch) := by
    intro before done hbefore hnot hline
    rw [hline, reports_plainField_iff hbefore]
    exact (or_iff_right fun ⟨e, he⟩ => hnot e he).symm
  cases c with
  | usage => cases h
  | settings e =>
    obtain rfl := Option.some.inj h
    exact hplain introduces_nothing (by simp) rfl
  | model e =>
    obtain rfl := Option.some.inj h
    exact hplain introduces_success (by simp) rfl
  | viewNotFound name =>
    obtain rfl := Option.some.inj h
    exact hplain introduces_success (by simp) rfl
  | render e =>
    obtain rfl := Option.some.inj h
    exact iff_of_true (reports_render e) (.inl ⟨e, rfl⟩)
  | listing e =>
    obtain rfl := Option.some.inj h
    exact hplain introduces_nothing (by simp) rfl
  | check e =>
    obtain rfl := Option.some.inj h
    exact hplain introduces_valid (by simp) rfl

section

variable {files : FileSystem} {env : String → Option String} {now : String}

theorem renderView_complaint_ne (e : Engine) (view : String) (model : Json) :
    (renderView e view model).complaint ≠ some .usage := by
  unfold renderView
  dsimp only
  split <;> simp [Report.success, Report.failure]

theorem listViews_complaint_ne (e : Engine) (directory : Option String) :
    (listViews e directory).complaint ≠ some .usage := by
  unfold listViews
  dsimp only
  split <;> simp [Report.success, Report.failure]

theorem checkViews_complaint_ne (e : Engine) (now : String) : (checkViews e now).complaint ≠ some .usage := by
  unfold checkViews
  split <;> simp [Report.failure]

/-- Arguments that can be read do not lead to the usage. -/
theorem runInvocation_complaint_ne (i : Invocation) : (runInvocation files env now i).complaint ≠ some .usage := by
  unfold runInvocation
  split
  · simp [Report.failure]
  · dsimp only
    split
    · split
      · exact renderView_complaint_ne _ _ _
      · simp [Report.failure]
    · exact listViews_complaint_ne _ _
    · exact checkViews_complaint_ne _ _

/-- Every complaint about arguments that can be read tells a message.  A reader of JSON gets it exactly if a render
makes the complaint, or no character of the message is a quote, a backslash or a control character. -/
theorem complaints_reported_iff {arguments : List String} {i : Invocation} {c : Complaint}
    (harguments : readInvocation arguments = some i) (hrun : (run files env now arguments).complaint = some c)
    (wording : Wording) : ∃ message, c.message? wording = some message ∧
      (Reports (c.line wording) message ↔ (∃ e, c = .render e) ∨ ∀ ch ∈ message.toList, IsPlain ch) := by
  have hne : c ≠ .usage := by
    rintro rfl
    unfold run at hrun
    rw [harguments] at hrun
    exact runInvocation_complaint_ne i hrun
  obtain ⟨message, hmessage⟩ : ∃ message, c.message? wording = some message := by
    cases c with
    | usage => exact absurd rfl hne
    | settings | model | viewNotFound | render | listing | check => exact ⟨_, rfl⟩
  exact ⟨message, hmessage, reports_line_iff hmessage⟩

/-- A view whose name has a quote, in a directory that is empty. -/
theorem complaints_not_reported_quotedName :
    let arguments := ["render", "--view", "a\"b"]
    let complaint : Complaint := .viewNotFound "a\"b"
    let message := "View not found: a\"b"
    (∃ i, readInvocation arguments = some i) ∧
      (run ⟨.dir [], []⟩ (fun _ => none) "" arguments).complaint = some complaint ∧
      complaint.message? Wording.standard = some message ∧
      ¬ Reports (complaint.line Wording.standard) message := by
  intro arguments complaint message
  have harguments : ∃ i, readInvocation arguments = some i := by
    exact ⟨⟨"views", none, .render "a\"b" "{}"⟩, by decide +kernel⟩
  have hrun : (run ⟨.dir [], []⟩ (fun _ => none) "" arguments).complaint = some complaint := by
    rfl
  obtain ⟨i, hi⟩ := harguments
  obtain ⟨message', hmessage, hreports⟩ := complaints_reported_iff hi hrun Wording.standard
  obtain rfl : message' = message := (Option.some.inj hmessage).symm
  refine ⟨⟨i, hi⟩, hrun, hmessage, fun h => ?_⟩
  rcases hreports.mp h with ⟨e, he⟩ | hplain
  · exact Complaint.noConfusion he
  · exact (hplain '"' (by decide)).not_quote rfl

end

end LayeredViews.CommandLine
