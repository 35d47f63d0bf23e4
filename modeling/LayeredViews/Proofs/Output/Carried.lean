import LayeredViews.Output.Buffered
import LayeredViews.Proofs.Ending
import Mathlib.Tactic.SplitIfs

/-!
# Carried output — where a text is that has been written

A text that was written is held back as a whole as long as it fits in the buffer.  Once it does not
fit, a first part of it has been sent, and what is missing fits.  `Carries` says this of an output,
each write keeps it, and only a refusal of the sink ends it.
-/

namespace LayeredViews

/-! ### Sinks -/

namespace Sink

/-- What a sink has become by taking a text, in whatever chunks. -/
structure Took (before : Sink) (text : String) (after : Sink) : Prop where
  failsOn : after.failsOn = before.failsOn
  flushFails : after.flushFails = before.flushFails
  raisesOn : after.raisesOn = before.raisesOn
  received : after.received = before.received ++ text
  raised_of : before.raised = true → after.raised = true
  of_raised : after.raised = true → before.raised = true ∨ ∃ n, before.raisesOn n = true

/-- A sink that refuses no call. -/
structure Accepting (s : Sink) : Prop where
  writes : ∀ n, s.failsOn n = false
  flushes : s.flushFails = false

theorem Took.refl (s : Sink) : s.Took "" s :=
  ⟨rfl, rfl, rfl, String.append_empty.symm, id, Or.inl⟩

theorem Took.trans {a b c : Sink} {s t : String} (h : a.Took s b) (h' : b.Took t c) :
    a.Took (s ++ t) c where
  failsOn := h'.failsOn.trans h.failsOn
  flushFails := h'.flushFails.trans h.flushFails
  raisesOn := h'.raisesOn.trans h.raisesOn
  received := by rw [h'.received, h.received, String.append_assoc]
  raised_of ha := h'.raised_of (h.raised_of ha)
  of_raised hc := by
    rcases h'.of_raised hc with hb | ⟨n, hn⟩
    · exact h.of_raised hb
    · exact Or.inr ⟨n, h.raisesOn ▸ hn⟩

theorem Took.accepting {a b : Sink} {text : String} (h : a.Took text b) (ha : a.Accepting) :
    b.Accepting :=
  ⟨fun n => by rw [h.failsOn]; exact ha.writes n, by rw [h.flushFails]; exact ha.flushes⟩

/-- The sink after a write call that takes a chunk. -/
def afterTaking (s : Sink) (chunk : String) : Sink :=
  { s with
    calls := s.calls.push (.accepted chunk)
    writeCalls := s.writeCalls + 1
    raised := s.raised || s.raisesOn (s.writeCalls + 1) }

/-- The sink after a write call that it refuses. -/
def afterRefusing (s : Sink) : Sink :=
  { s with
    calls := s.calls.push .refused
    writeCalls := s.writeCalls + 1 }

theorem received_afterTaking (s : Sink) (chunk : String) :
    (s.afterTaking chunk).received = s.received ++ chunk := by
  simp [afterTaking, received, chunks]

theorem received_afterRefusing (s : Sink) : s.afterRefusing.received = s.received := by
  simp [afterRefusing, received, chunks]

theorem received_flush (s : Sink) : s.flush.2.received = s.received := by
  unfold flush
  split <;> simp [received, chunks]

/-- A write call takes the whole chunk or nothing of it. -/
theorem write_cases (s : Sink) (chunk : String) :
    (∃ s', s.write chunk = (.ok (), s') ∧ s.Took chunk s') ∨
      ¬ s.Accepting ∧ ∃ s', s.write chunk = (.error .closed, s') ∧ s.Took "" s' := by
  by_cases hf : s.failsOn (s.writeCalls + 1) = true
  · refine Or.inr ⟨fun ha => ?_, _, if_pos hf, ⟨rfl, rfl, rfl, ?_, id, Or.inl⟩⟩
    · rw [ha.writes] at hf
      exact absurd hf (by simp)
    · simp [received, chunks]
  · refine Or.inl ⟨_, if_neg hf, ⟨rfl, rfl, rfl, ?_, fun h => ?_, fun h => ?_⟩⟩
    · simp [received, chunks]
    · simp [h]
    · rcases Bool.or_eq_true_iff.mp h with h | h
      · exact Or.inl h
      · exact Or.inr ⟨_, h⟩

theorem flush_cases (s : Sink) :
    (∃ s', s.flush = (.ok (), s') ∧ s.Took "" s') ∨
      ¬ s.Accepting ∧ ∃ s', s.flush = (.error .flushRefused, s') ∧ s.Took "" s' := by
  by_cases hf : s.flushFails = true
  · refine Or.inr ⟨fun ha => ?_, _, if_pos hf, ⟨rfl, rfl, rfl, ?_, id, Or.inl⟩⟩
    · rw [ha.flushes] at hf
      exact absurd hf (by simp)
    · simp [received, chunks]
  · refine Or.inl ⟨_, if_neg hf, ⟨rfl, rfl, rfl, ?_, id, Or.inl⟩⟩
    simp [received, chunks]

end Sink

/-! ### Outputs -/

namespace Output

/-- An output that holds back all that was written on it. -/
def holding (sink : Sink) (limit : Nat) (text : String) : Output :=
  ⟨sink, limit, text, false, text.utf8ByteSize⟩

/-- An output with more in its buffer. -/
def buffered (out : Output) (more : String) : Output :=
  { out with
    buffer := out.buffer ++ more
    written := out.written + more.utf8ByteSize }

theorem holding_buffered (sink : Sink) (limit : Nat) (text more : String) :
    (holding sink limit text).buffered more = holding sink limit (text ++ more) := by
  unfold holding buffered
  rw [String.utf8ByteSize_append]

/-- What is over the limit is not nothing. -/
theorem buffered_ne_empty {out : Output} {more : String}
    (h : out.limit < (out.buffer ++ more).utf8ByteSize) : (out.buffered more).buffer ≠ "" := by
  intro hempty
  have hsize : (out.buffer ++ more).utf8ByteSize = 0 := congrArg String.utf8ByteSize hempty
  omega

/-- What an output on a sink has become by being written a text. -/
inductive Carries (sink : Sink) (limit : Nat) : String → Output → Prop where
  | held {text : String} (fits : text.utf8ByteSize ≤ limit) :
    Carries sink limit text (holding sink limit text)
  | begun {sent rest : String} {after : Sink} (nonempty : sent ≠ "") (took : sink.Took sent after)
    (fits : rest.utf8ByteSize ≤ limit) (exceeds : limit < (sent ++ rest).utf8ByteSize) :
    Carries sink limit (sent ++ rest) ⟨after, limit, rest, true, (sent ++ rest).utf8ByteSize⟩

variable {sink : Sink} {limit : Nat} {text : String} {out : Output}

theorem on_carries (sink : Sink) (limit : Nat) : Carries sink limit "" (on sink limit) :=
  .held (Nat.zero_le limit)

namespace Carries

theorem limit_eq (h : Carries sink limit text out) : out.limit = limit := by
  cases h <;> rfl

theorem written_eq (h : Carries sink limit text out) : out.written = text.utf8ByteSize := by
  cases h <;> rfl

theorem buffer_fits (h : Carries sink limit text out) : out.buffer.utf8ByteSize ≤ limit := by
  cases h <;> assumption

theorem committed_iff (h : Carries sink limit text out) :
    out.committed = true ↔ limit < text.utf8ByteSize := by
  cases h with
  | held fits => simpa [holding] using fits
  | begun _ _ _ exceeds => simpa using exceeds

theorem took (h : Carries sink limit text out) :
    ∃ sent, sink.Took sent out.sink ∧ sent ++ out.buffer = text := by
  cases h with
  | held _ => exact ⟨"", .refl sink, String.empty_append⟩
  | begun _ took _ _ => exact ⟨_, took, rfl⟩

theorem eq_holding (h : Carries sink limit text out) (hfits : text.utf8ByteSize ≤ limit) :
    out = holding sink limit text := by
  cases h with
  | held _ => rfl
  | begun _ _ _ exceeds => omega

theorem sent (h : Carries sink limit text out) (hex : limit < text.utf8ByteSize) :
    ∃ sent, sent ≠ "" ∧ sink.Took sent out.sink ∧ sent ++ out.buffer = text := by
  cases h with
  | held fits => omega
  | begun nonempty took _ _ => exact ⟨_, nonempty, took, rfl⟩

end Carries

theorem Carries.of_sent {sent : String} {after : Sink} (hne : sent ≠ "")
    (ht : sink.Took sent after) (htext : sent ++ out.buffer = text) (hsink : out.sink = after)
    (hlimit : out.limit = limit) (hcommitted : out.committed = true)
    (hwritten : out.written = text.utf8ByteSize) (hfits : out.buffer.utf8ByteSize ≤ limit)
    (hex : limit < text.utf8ByteSize) : Carries sink limit text out := by
  obtain ⟨outSink, outLimit, rest, begun, written⟩ := out
  dsimp only at htext hsink hlimit hcommitted hwritten hfits
  subst htext hsink hlimit hcommitted hwritten
  exact .begun hne ht hfits hex

theorem ending_commit {out : Output} (hne : out.buffer ≠ "") :
    ending commit out =
      if out.sink.failsOn (out.sink.writeCalls + 1) then
        (.error .closed, { out with sink := out.sink.afterRefusing, committed := true })
      else
        (.ok (), { out with
                    sink := out.sink.afterTaking out.buffer
                    committed := true
                    buffer := "" }) := by
  have he : out.buffer.isEmpty = false := by
    rw [Bool.eq_false_iff, ne_eq, String.isEmpty_iff]
    exact hne
  unfold ending commit Sink.write
  rw [he]
  by_cases hfails : out.sink.failsOn (out.sink.writeCalls + 1) = true
  · rw [if_pos hfails, if_pos hfails]
    rfl
  · rw [if_neg hfails, if_neg hfails]
    rfl

/-- Handing over a buffer that is not empty either sends it or leaves it where it is. -/
theorem commit_cases (out : Output) (hne : out.buffer ≠ "") :
    (∃ s', ending commit out = (.ok (), { out with sink := s', committed := true, buffer := "" }) ∧
        out.sink.Took out.buffer s') ∨
      ¬ out.sink.Accepting ∧
        ∃ s', ending commit out = (.error .closed, { out with sink := s', committed := true }) ∧
          out.sink.Took "" s' := by
  have he : out.buffer.isEmpty = false := by
    rw [Bool.eq_false_iff, ne_eq, String.isEmpty_iff]
    exact hne
  rcases out.sink.write_cases out.buffer with ⟨s', hw, ht⟩ | ⟨hn, s', hw, ht⟩
  · exact Or.inl ⟨s', by simp [ending, commit, he, hw], ht⟩
  · exact Or.inr ⟨hn, s', by simp [ending, commit, he, hw], ht⟩

theorem commit_empty (he : out.buffer = "") : ending commit out = (.ok (), out) := by
  simp [ending, commit, he]

theorem write_empty (out : Output) : ending (write "") out = (.ok (), out) := rfl

/-- A text that is not empty is added to the buffer, which is handed over if it is too long then. -/
theorem ending_write {more : String} (hne : more ≠ "") (out : Output) :
    ending (write more) out =
      if out.limit < (out.buffer ++ more).utf8ByteSize then ending commit (out.buffered more)
      else (.ok (), out.buffered more) := by
  have he : more.isEmpty = false := by
    rw [Bool.eq_false_iff, ne_eq, String.isEmpty_iff]
    exact hne
  simp only [ending, write, he, Bool.false_eq_true, if_false]
  split_ifs <;> rfl

/-- A write keeps what is carried, unless the sink refuses a chunk. -/
theorem Carries.write (h : Carries sink limit text out) (more : String) :
    (∃ out', ending (write more) out = (.ok (), out') ∧ Carries sink limit (text ++ more) out') ∨
      ¬ sink.Accepting ∧ ∃ out', ending (Output.write more) out = (.error .closed, out') := by
  by_cases hne : more = ""
  · subst hne
    exact Or.inl ⟨out, write_empty out, by rwa [String.append_empty]⟩
  obtain ⟨sent, ht, htext⟩ := h.took
  have hall : sent ++ (out.buffer ++ more) = text ++ more := by rw [← String.append_assoc, htext]
  have hsize : (text ++ more).utf8ByteSize = out.written + more.utf8ByteSize := by
    rw [String.utf8ByteSize_append, h.written_eq]
  rw [ending_write hne]
  split_ifs with hex
  · rcases commit_cases (out.buffered more) (buffered_ne_empty hex) with ⟨s', hc, hs'⟩ | ⟨hn, s', hc, -⟩
    · refine Or.inl ⟨_, hc, ?_⟩
      have hlen : (sent ++ (out.buffer ++ more)).utf8ByteSize = (text ++ more).utf8ByteSize := by
        rw [hall]
      rw [String.utf8ByteSize_append] at hlen
      have hex' : limit < (text ++ more).utf8ByteSize := by
        rw [h.limit_eq] at hex
        omega
      have hsent : sent ++ (out.buffer ++ more) ≠ "" := by
        rw [hall]
        intro h0
        simp [h0] at hex'
      exact .of_sent hsent (ht.trans hs') (by rw [String.append_empty, hall]) rfl h.limit_eq rfl
        hsize.symm (Nat.zero_le _) hex'
    · exact Or.inr ⟨fun ha => hn (ht.accepting ha), _, hc⟩
  · refine Or.inl ⟨_, rfl, ?_⟩
    have hfits : (out.buffer ++ more).utf8ByteSize ≤ limit := by
      rw [← h.limit_eq]
      exact Nat.le_of_not_lt hex
    cases h with
    | held _ =>
      rw [holding_buffered]
      exact .held hfits
    | @begun first _ _ nonempty took _ exceeds =>
      refine .of_sent nonempty took String.append_assoc.symm rfl rfl rfl hsize.symm hfits ?_
      rw [String.utf8ByteSize_append]
      omega

theorem ending_finish (out : Output) :
    ending finish out =
      match ending commit out with
      | (.ok _, out') =>
        match out'.sink.flush with
        | (.ok _, sink) => (.ok out'.written, { out' with sink })
        | (.error e, sink) => (.error e, { out' with sink })
      | (.error e, out') => (.error e, out') := by
  refine (ending_bind commit _ out).trans ?_
  rcases ending commit out with ⟨_ | _, out'⟩
  · rfl
  · rcases hf : out'.sink.flush with ⟨_ | _, sink⟩ <;> simp [ending, hf]

/-- Finishing sends what is missing, unless the sink refuses a call. -/
theorem Carries.finish (h : Carries sink limit text out) :
    (∃ out', ending finish out = (.ok text.utf8ByteSize, out') ∧ sink.Took text out'.sink) ∨
      ¬ sink.Accepting ∧ ∃ e out', ending finish out = (.error e, out') := by
  obtain ⟨sent, ht, htext⟩ := h.took
  have hcommit : (∃ out₁, ending commit out = (.ok (), out₁) ∧ sink.Took text out₁.sink ∧
        out₁.written = text.utf8ByteSize) ∨
      ¬ sink.Accepting ∧ ∃ e out₁, ending commit out = (.error e, out₁) := by
    by_cases hb : out.buffer = ""
    · rw [hb, String.append_empty] at htext
      exact Or.inl ⟨out, commit_empty hb, htext ▸ ht, h.written_eq⟩
    · rcases commit_cases out hb with ⟨s', hc, hs'⟩ | ⟨hn, s', hc, -⟩
      · exact Or.inl ⟨_, hc, htext ▸ ht.trans hs', h.written_eq⟩
      · exact Or.inr ⟨fun ha => hn (ht.accepting ha), _, _, hc⟩
  rw [ending_finish]
  rcases hcommit with ⟨out₁, hc, ht₁, hw⟩ | ⟨hn, e, out₁, hc⟩
  · rw [hc]
    dsimp only
    rcases out₁.sink.flush_cases with ⟨s', hf, hs'⟩ | ⟨hn, s', hf, -⟩
    · rw [hf, hw]
      exact Or.inl ⟨_, rfl, String.append_empty (s := text) ▸ ht₁.trans hs'⟩
    · rw [hf]
      exact Or.inr ⟨fun ha => hn (ht₁.accepting ha), _, _, rfl⟩
  · rw [hc]
    exact Or.inr ⟨hn, e, out₁, rfl⟩

end Output

end LayeredViews
