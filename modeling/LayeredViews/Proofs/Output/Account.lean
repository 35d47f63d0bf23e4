import LayeredViews.Proofs.Output.Carried
import Mathlib.Data.List.Induction

/-!
# Accounts — all that was written is sent or held, once

Calls on an output are writes and discards, in any order, and a refusal of the sink ends none of them: a chunk
that it refused stays in the buffer and is offered again.  What the replies leave to account for is the text
written since the last discard that dropped something, and `Accounts` says where that text is.  Every call keeps it
(`Accounts.call`), so that it holds after every history of calls, and so it does of what finishing tells:
`history_accounts`.
-/

namespace LayeredViews.Output

/-! ### Calls -/

/-- A call on an output that is not finished yet. -/
inductive Call where
  | write (text : String)
  | discard
deriving DecidableEq, Repr

/-- What a call answers. -/
inductive Reply where
  | wrote (result : Except SinkFault Unit)
  | discarded (dropped : Bool)

/-- Makes a call. -/
def call (out : Output) : Call → Reply × Output
  | .write text => (.wrote (ending (write text) out).1, (ending (write text) out).2)
  | .discard => (.discarded out.discard.1, out.discard.2)

/-- The text to account for after a call, by what the call answered: a write that failed counts as well. -/
def accountOf (text : String) : Call × Reply → String
  | (.write more, _) => text ++ more
  | (.discard, .discarded true) => ""
  | (.discard, _) => text

/-- Calls with their replies, and the output after them. -/
structure Record where
  calls : List (Call × Reply)
  out : Output

/-- Makes one more call. -/
def Record.add (r : Record) (c : Call) : Record :=
  ⟨r.calls ++ [(c, (r.out.call c).1)], (r.out.call c).2⟩

/-- Makes calls in order on an output that has not been written to. -/
def record (sink : Sink) (limit : Nat) (calls : List Call) : Record :=
  calls.foldl Record.add ⟨[], on sink limit⟩

/-- What has been written since the last discard that dropped something. -/
def Record.text (r : Record) : String :=
  r.calls.foldl accountOf ""

theorem record_append (sink : Sink) (limit : Nat) (calls more : List Call) :
    record sink limit (calls ++ more) = more.foldl Record.add (record sink limit calls) := by
  simp [record]

theorem record_concat (sink : Sink) (limit : Nat) (calls : List Call) (c : Call) :
    record sink limit (calls ++ [c]) = (record sink limit calls).add c :=
  record_append sink limit calls [c]

theorem Record.text_add (r : Record) (c : Call) :
    (r.add c).text = accountOf r.text (c, (r.out.call c).1) := by
  simp [Record.text, Record.add]

/-! ### Where the text is -/

/-- A text is in the sink and in the buffer behind it, counted in bytes; before a chunk has been offered the sink
has seen no call, and the buffer is within its limit. -/
structure Accounts (sink : Sink) (limit : Nat) (text : String) (out : Output) : Prop where
  limit_eq : out.limit = limit
  placed : out.sink.received ++ out.buffer = sink.received ++ text
  written_eq : out.written = text.utf8ByteSize
  untouched : out.committed = false → out.sink = sink
  fits : out.committed = false → out.buffer.utf8ByteSize ≤ limit

variable {sink : Sink} {limit : Nat} {text : String} {out : Output}

theorem on_accounts (sink : Sink) (limit : Nat) : Accounts sink limit "" (on sink limit) where
  limit_eq := rfl
  placed := rfl
  written_eq := rfl
  untouched _ := rfl
  fits _ := Nat.zero_le limit

/-- Handing over a buffer that is not empty commits the output, also if the sink refuses it. -/
theorem commit_accounts (hne : out.buffer ≠ "") (hlimit : out.limit = limit)
    (hplaced : out.sink.received ++ out.buffer = sink.received ++ text)
    (hwritten : out.written = text.utf8ByteSize) :
    Accounts sink limit text (ending commit out).2 ∧ (ending commit out).2.committed = true ∧
      ((ending commit out).1 = .ok () → (ending commit out).2.buffer = "") := by
  rcases commit_cases out hne with ⟨s', hcommit, htook⟩ | ⟨-, s', hcommit, htook⟩
  · have hall : s'.received ++ "" = sink.received ++ text := by
      rw [String.append_empty, htook.received, hplaced]
    rw [hcommit]
    exact ⟨⟨hlimit, hall, hwritten, nofun, nofun⟩, rfl, fun _ => rfl⟩
  · have hall : s'.received ++ out.buffer = sink.received ++ text := by
      rw [htook.received, String.append_empty, hplaced]
    rw [hcommit]
    exact ⟨⟨hlimit, hall, hwritten, nofun, nofun⟩, rfl, nofun⟩

/-- Finishing succeeds exactly if the sink takes what is left, in one call, and its flush. -/
theorem finish_ok_iff (out : Output) :
    (∃ n, (ending finish out).1 = .ok n) ↔
      (out.buffer = "" ∨ out.sink.failsOn (out.sink.writeCalls + 1) = false) ∧ out.sink.flushFails = false := by
  rw [ending_finish]
  by_cases hb : out.buffer = ""
  · rw [commit_empty hb]
    by_cases hflush : out.sink.flushFails = true <;> simp [Sink.flush, hb, hflush]
  · rw [ending_commit hb]
    by_cases hf : out.sink.failsOn (out.sink.writeCalls + 1) = true
    · simp [hb, hf]
    · by_cases hflush : out.sink.flushFails = true <;> simp [Sink.flush, Sink.afterTaking, hb, hf, hflush]

theorem finish_refused_iff (out : Output) :
    (¬ ∃ n, (ending finish out).1 = .ok n) ↔
      out.buffer ≠ "" ∧ out.sink.failsOn (out.sink.writeCalls + 1) = true ∨ out.sink.flushFails = true := by
  rw [finish_ok_iff, not_and_or, not_or, Bool.not_eq_false, Bool.not_eq_false]

namespace Accounts

variable (h : Accounts sink limit text out)
include h

/-- A write adds its text to the account, whether the sink takes what it is offered or not. -/
theorem write (more : String) :
    Accounts sink limit (text ++ more) (ending (write more) out).2 ∧
      (out.committed = true → (ending (Output.write more) out).2.committed = true) ∧
      (more ≠ "" → (ending (Output.write more) out).1 = .ok () →
        (ending (Output.write more) out).2.buffer.utf8ByteSize ≤ limit) := by
  by_cases hmore : more = ""
  · subst hmore
    rw [write_empty, String.append_empty]
    exact ⟨h, id, fun hne => absurd rfl hne⟩
  have hplaced : out.sink.received ++ (out.buffer ++ more) = sink.received ++ (text ++ more) := by
    rw [← String.append_assoc, h.placed, String.append_assoc]
  have hwritten : out.written + more.utf8ByteSize = (text ++ more).utf8ByteSize := by
    rw [String.utf8ByteSize_append, h.written_eq]
  rw [ending_write hmore]
  by_cases hlong : out.limit < (out.buffer ++ more).utf8ByteSize
  · obtain ⟨haccounts, hcommitted, hempty⟩ :=
      commit_accounts (buffered_ne_empty hlong) h.limit_eq hplaced hwritten
    rw [if_pos hlong]
    refine ⟨haccounts, fun _ => hcommitted, fun _ hok => ?_⟩
    rw [hempty hok]
    exact Nat.zero_le limit
  · have hfits : (out.buffer ++ more).utf8ByteSize ≤ limit := by
      rw [← h.limit_eq]
      omega
    rw [if_neg hlong]
    exact ⟨⟨h.limit_eq, hplaced, hwritten, h.untouched, fun _ => hfits⟩, id, fun _ _ => hfits⟩

/-- A discard drops all of the account or changes nothing. -/
theorem discard :
    (out.committed = false → out.discard.1 = true ∧ Accounts sink limit "" out.discard.2) ∧
      (out.committed = true → out.discard = (false, out)) := by
  unfold Output.discard
  constructor
  · intro hheld
    rw [hheld]
    refine ⟨rfl, h.limit_eq, ?_, rfl, fun _ => h.untouched hheld, fun _ => Nat.zero_le limit⟩
    exact congrArg (fun s => s.received ++ "") (h.untouched hheld)
  · intro hcommitted
    rw [hcommitted]
    rfl

/-- What is left to account for after a call is accounted for, and a committed output stays committed. -/
theorem call (c : Call) :
    Accounts sink limit (accountOf text (c, (out.call c).1)) (out.call c).2 ∧
      (out.committed = true → (out.call c).2.committed = true) := by
  cases c with
  | write more =>
    obtain ⟨haccounts, hcommitted, -⟩ := h.write more
    exact ⟨haccounts, hcommitted⟩
  | discard =>
    obtain ⟨hheld, hkept⟩ := h.discard
    cases hcommitted : out.committed with
    | false =>
      obtain ⟨hdropped, haccounts⟩ := hheld hcommitted
      refine ⟨?_, nofun⟩
      simp only [Output.call, hdropped, accountOf]
      exact haccounts
    | true =>
      have hsame := hkept hcommitted
      simp only [Output.call, hsame, accountOf]
      exact ⟨h, fun _ => hcommitted⟩

/-- Finishing after all has been handed over tells the length of what the sink has. -/
theorem finish_handed (hb : out.buffer = "") (n : Nat) (hn : (ending finish out).1 = .ok n) :
    (ending Output.finish out).2.sink.received = sink.received ++ text ∧ n = text.utf8ByteSize := by
  have hall : out.sink.received = sink.received ++ text := by
    rw [← h.placed, hb, String.append_empty]
  rw [ending_finish, commit_empty hb] at hn ⊢
  dsimp only at hn ⊢
  have hflush := Sink.received_flush out.sink
  rcases hf : out.sink.flush with ⟨fault | u, after⟩ <;> rw [hf] at hn hflush
  · cases hn
  · have hlength : out.written = n := Except.ok.inj hn
    exact ⟨hflush.trans hall, by rw [← hlength, h.written_eq]⟩

/-- A finish that succeeds has sent all of the account and tells its length. -/
theorem finish (n : Nat) (hn : (ending finish out).1 = .ok n) :
    (ending Output.finish out).2.sink.received = sink.received ++ text ∧ n = text.utf8ByteSize := by
  by_cases hb : out.buffer = ""
  · exact h.finish_handed hb n hn
  obtain ⟨hcommitted, -, -⟩ := commit_accounts hb h.limit_eq h.placed h.written_eq
  rw [ending_finish] at hn ⊢
  rw [ending_commit hb] at hn hcommitted ⊢
  by_cases hf : out.sink.failsOn (out.sink.writeCalls + 1) = true
  · rw [if_pos hf] at hn
    cases hn
  · -- What was left has been handed over: the rest is finishing with nothing left.
    rw [if_neg hf] at hn hcommitted ⊢
    have hrest := hcommitted.finish_handed rfl n
    rw [ending_finish, commit_empty rfl] at hrest
    exact hrest hn

end Accounts

/-! ### Histories -/

theorem record_accounts (sink : Sink) (limit : Nat) (calls : List Call) :
    Accounts sink limit (record sink limit calls).text (record sink limit calls).out := by
  induction calls using List.reverseRecOn with
  | nil => exact on_accounts sink limit
  | append_singleton calls c ih =>
    rw [record_concat, Record.text_add]
    exact (ih.call c).1

theorem record_committed (sink : Sink) (limit : Nat) (calls more : List Call)
    (hcommitted : (record sink limit calls).out.committed = true) :
    (record sink limit (calls ++ more)).out.committed = true := by
  induction more using List.reverseRecOn with
  | nil => simpa using hcommitted
  | append_singleton more c ih =>
    rw [← List.append_assoc, record_concat]
    exact ((record_accounts sink limit (calls ++ more)).call c).2 ih

/-- After every history of writes and discards, whichever calls the sink refuses: the text written since the last
discard that dropped something is in the sink and in the buffer behind it, nothing of it lost or sent twice; an
output that has offered a chunk stays committed; a write that succeeds leaves a buffer within the limit; a discard
drops all or changes nothing; and a finish that succeeds has sent the whole text and tells its length. -/
theorem history_accounts (sink : Sink) (limit : Nat) (calls : List Call) :
    let r := record sink limit calls
    Accounts sink limit r.text r.out ∧
      (∀ more, r.out.committed = true → (record sink limit (calls ++ more)).out.committed = true) ∧
      (∀ text, text ≠ "" → (ending (write text) r.out).1 = .ok () →
        (ending (write text) r.out).2.buffer.utf8ByteSize ≤ limit) ∧
      (r.out.discard.1 = true ↔ r.out.committed = false) ∧
      (r.out.discard.1 = false → r.out.discard.2 = r.out) ∧
      ((∃ n, (ending finish r.out).1 = .ok n) ↔
        (r.out.buffer = "" ∨ r.out.sink.failsOn (r.out.sink.writeCalls + 1) = false) ∧
          r.out.sink.flushFails = false) ∧
      ∀ n, (ending finish r.out).1 = .ok n →
        (ending finish r.out).2.sink.received = sink.received ++ r.text ∧ n = r.text.utf8ByteSize := by
  intro r
  have h : Accounts sink limit r.text r.out := record_accounts sink limit calls
  obtain ⟨hheld, hkept⟩ := h.discard
  refine ⟨h, record_committed sink limit calls, fun text => (h.write text).2.2, ?_, ?_, finish_ok_iff r.out, h.finish⟩
  · constructor
    · intro hdropped
      by_contra hcommitted
      rw [hkept (Bool.not_eq_false _ ▸ hcommitted)] at hdropped
      exact absurd hdropped Bool.false_ne_true
    · exact fun hfree => (hheld hfree).1
  · intro hdropped
    by_cases hcommitted : r.out.committed = true
    · rw [hkept hcommitted]
    · rw [(hheld (Bool.eq_false_iff.mpr hcommitted)).1] at hdropped
      exact absurd hdropped (by decide)

/-- A chunk that was refused is not lost: it goes out with what is written later. -/
example :
    let r := record (.new (· == 1) false fun _ => false) 2 [.write "abc", .discard, .write "d"]
    r.text = "abcd" ∧ r.out.sink.received = "abcd" ∧ r.out.sink.writeCalls = 2 := by
  decide

end LayeredViews.Output
