import LayeredViews.Text.Position
import Mathlib.Data.List.Induction
import Mathlib.Tactic.ByContra

/-!
# Positions found — the index gives the line and column of every offset

`Position.behind` is the position behind a text by counting: line feeds for the line, characters since the
last one for the column.  The starts that an index holds up to the end of a first part of its text are those
of that part, which are one more than its line feeds, and so halving finds its last line (`search_spec`,
`LineIndex.line?_reached`) and the slice from there on is what there is of that line.  So the index does not
fail on that offset and gives the position by counting (`LineIndex.position?_behind`).  A line is found for
every other offset too (`LineIndex.line?_ok`), but no slice.
-/

namespace LayeredViews.Text

/-- The line and column behind a text, both from one. -/
def Position.behind (before : List Char) : Position :=
  ⟨before.count '\n' + 1, (before.reverse.takeWhile (· != '\n')).length + 1⟩

/-- The position just after a character. -/
def Position.after (p : Position) (c : Char) : Position :=
  if c = '\n' then ⟨p.line + 1, 1⟩ else ⟨p.line, p.column + 1⟩

theorem Position.behind_concat (before : List Char) (c : Char) :
    Position.behind (before ++ [c]) = (Position.behind before).after c := by
  unfold behind Position.after
  by_cases hc : c = '\n' <;> simp [hc]

/-! ### Order -/

/-- Is on an earlier line, or further to the left on the same line. -/
def Position.Before (p q : Position) : Prop :=
  p.line < q.line ∨ p.line = q.line ∧ p.column < q.column

theorem Position.Before.trans {p q r : Position} (h : p.Before q) (h' : q.Before r) : p.Before r := by
  unfold Before at *
  omega

theorem Position.Before.ne {p q : Position} (h : p.Before q) : p ≠ q := by
  rintro rfl
  unfold Before at h
  omega

theorem Position.before_after (p : Position) (c : Char) : p.Before (p.after c) := by
  unfold Position.after
  split
  · exact Or.inl (Nat.lt_succ_self p.line)
  · exact Or.inr ⟨rfl, Nat.lt_succ_self p.column⟩

/-- More text leads to a later position. -/
theorem Position.behind_before (before : List Char) {more : List Char} (h : more ≠ []) :
    (behind before).Before (behind (before ++ more)) := by
  induction more generalizing before with
  | nil => exact absurd rfl h
  | cons c more ih =>
    have hfirst := before_after (behind before) c
    rw [← behind_concat] at hfirst
    rw [List.append_cons]
    by_cases hmore : more = []
    · simpa [hmore] using hfirst
    · exact hfirst.trans (ih (before ++ [c]) hmore)

theorem eq_nil_of_utf8Length {cs : List Char} (h : utf8Length cs = 0) : cs = [] := by
  cases cs with
  | nil => rfl
  | cons c cs =>
    have hsize := c.utf8Size_pos
    simp only [utf8Length] at h
    omega

/-! ### Slices -/

/-- A first part with bytes in it begins with the first character. -/
theorem front_cons {c : Char} {cs front rest : List Char} {n : Nat} (h : c :: cs = front ++ rest)
    (hn : utf8Length front = n + 1) :
    ∃ more, front = c :: more ∧ cs = more ++ rest ∧ c.utf8Size + utf8Length more = n + 1 := by
  cases front with
  | nil => cases hn
  | cons c' more =>
    obtain ⟨rfl, hcs⟩ := List.cons_eq_cons.mp h
    exact ⟨more, rfl, hcs, hn⟩

theorem splitBytes?_eq_some_iff {read cs front rest : List Char} {n : Nat} :
    splitBytes? read n cs = some (front, rest) ↔
      ∃ more, cs = more ++ rest ∧ utf8Length more = n ∧ front = read.reverse ++ more := by
  fun_induction splitBytes? read n cs with
  | case1 read cs =>
    rw [Option.some_inj, Prod.mk.injEq]
    constructor
    · rintro ⟨rfl, rfl⟩
      exact ⟨[], rfl, rfl, (List.append_nil _).symm⟩
    · rintro ⟨more, hcs, hlength, rfl⟩
      rw [hcs, eq_nil_of_utf8Length hlength, List.append_nil, List.nil_append]
      exact ⟨rfl, rfl⟩
  | case2 read n =>
    refine ⟨nofun, ?_⟩
    rintro ⟨more, hcs, hlength, -⟩
    obtain ⟨rfl, -⟩ := List.append_eq_nil_iff.mp hcs.symm
    cases hlength
  | case3 read n c cs hsize ih =>
    rw [ih]
    constructor
    · rintro ⟨more, hcs, hlength, hfront⟩
      exact ⟨c :: more, by rw [hcs, List.cons_append], by rw [utf8Length]; omega,
        by simpa using hfront⟩
    · rintro ⟨more, hcs, hlength, hfront⟩
      obtain ⟨more', rfl, hmore, hlength⟩ := front_cons hcs hlength
      exact ⟨more', hmore, by omega, by simpa using hfront⟩
  | case4 read n c cs hsize =>
    refine ⟨nofun, ?_⟩
    rintro ⟨more, hcs, hlength, -⟩
    obtain ⟨more', -, -, hlength⟩ := front_cons hcs hlength
    omega

/-- The slices of a text are its middle parts. -/
theorem slice?_eq_some_iff {start stop : Nat} {text cs : List Char} :
    slice? start stop text = some cs ↔ ∃ lead rest,
      text = lead ++ cs ++ rest ∧ utf8Length lead = start ∧ utf8Length (lead ++ cs) = stop := by
  unfold slice?
  constructor
  · intro h
    split at h
    · obtain ⟨⟨lead, tail⟩, hlead, h⟩ := Option.bind_eq_some_iff.mp h
      obtain ⟨⟨middle, rest⟩, hmiddle, h⟩ := Option.bind_eq_some_iff.mp h
      obtain rfl : middle = cs := Option.some.inj h
      obtain ⟨_, rfl, hstart, rfl⟩ := splitBytes?_eq_some_iff.mp hlead
      obtain ⟨_, rfl, hlength, rfl⟩ := splitBytes?_eq_some_iff.mp hmiddle
      refine ⟨_, rest, (List.append_assoc ..).symm, hstart, ?_⟩
      rw [utf8Length_append]
      omega
    · cases h
  · rintro ⟨lead, rest, rfl, rfl, rfl⟩
    have hlead : splitBytes? [] (utf8Length lead) (lead ++ cs ++ rest) = some (lead, cs ++ rest) :=
      splitBytes?_eq_some_iff.mpr ⟨lead, List.append_assoc .., rfl, rfl⟩
    have hmiddle : splitBytes? [] (utf8Length cs) (cs ++ rest) = some (cs, rest) :=
      splitBytes?_eq_some_iff.mpr ⟨cs, rfl, rfl, rfl⟩
    rw [utf8Length_append, if_pos (Nat.le_add_right _ _), Nat.add_sub_cancel_left]
    exact Option.bind_eq_some_iff.mpr ⟨_, hlead, Option.bind_eq_some_iff.mpr ⟨_, hmiddle, rfl⟩⟩

/-! ### Line starts -/

/-- The characters of a text since its last line feed. -/
def lastLine (cs : List Char) : List Char := (cs.reverse.takeWhile (· != '\n')).reverse

theorem lastLine_concat (cs : List Char) (c : Char) :
    lastLine (cs ++ [c]) = if c = '\n' then [] else lastLine cs ++ [c] := by
  by_cases hc : c = '\n' <;> simp [lastLine, hc]

theorem startsFrom_cons (offset : Nat) (c : Char) (cs : List Char) :
    startsFrom offset (c :: cs) = (if c = '\n' then [offset + c.utf8Size] else []) ++
      startsFrom (offset + c.utf8Size) cs := by
  by_cases hc : c = '\n'
  · subst hc
    rfl
  · simp [startsFrom, hc]

theorem mem_startsFrom_cons {offset start : Nat} {c : Char} {cs : List Char}
    (h : start ∈ startsFrom offset (c :: cs)) :
    start = offset + c.utf8Size ∨ start ∈ startsFrom (offset + c.utf8Size) cs := by
  rw [startsFrom_cons] at h
  refine (List.mem_append.mp h).imp_left fun h => ?_
  split at h
  · exact List.mem_singleton.mp h
  · cases h

theorem startsFrom_append (offset : Nat) (a b : List Char) :
    startsFrom offset (a ++ b) = startsFrom offset a ++ startsFrom (offset + utf8Length a) b := by
  induction a generalizing offset with
  | nil => rfl
  | cons c a ih =>
    rw [List.cons_append, startsFrom_cons, startsFrom_cons, ih, utf8Length, List.append_assoc,
      Nat.add_assoc]

theorem length_startsFrom (offset : Nat) (cs : List Char) :
    (startsFrom offset cs).length = cs.count '\n' := by
  induction cs generalizing offset with
  | nil => rfl
  | cons c cs ih => by_cases hc : c = '\n' <;> simp [startsFrom, hc, ih]

theorem mem_startsFrom_bounds {offset start : Nat} {cs : List Char} (h : start ∈ startsFrom offset cs) :
    offset < start ∧ start ≤ offset + utf8Length cs := by
  induction cs generalizing offset with
  | nil => cases h
  | cons c cs ih =>
    have hsize := c.utf8Size_pos
    rw [utf8Length]
    rcases mem_startsFrom_cons h with rfl | h
    · omega
    · have := ih h
      omega

theorem startsFrom_ascending (offset : Nat) (cs : List Char) :
    (startsFrom offset cs).Pairwise (· < ·) := by
  induction cs generalizing offset with
  | nil => exact .nil
  | cons c cs ih =>
    rw [startsFrom]
    split
    · exact List.pairwise_cons.mpr ⟨fun start h => (mem_startsFrom_bounds h).1, ih _⟩
    · exact ih _

theorem lineStarts_append (a b : List Char) :
    lineStarts (a ++ b) = lineStarts a ++ startsFrom (utf8Length a) b := by
  rw [lineStarts, lineStarts, startsFrom_append, Nat.zero_add, List.cons_append]

theorem length_lineStarts (cs : List Char) : (lineStarts cs).length = cs.count '\n' + 1 := by
  rw [lineStarts, List.length_cons, length_startsFrom]

theorem lineStarts_ascending (cs : List Char) : (lineStarts cs).Pairwise (· < ·) :=
  List.pairwise_cons.mpr ⟨fun _ h => (mem_startsFrom_bounds h).1, startsFrom_ascending 0 cs⟩

theorem le_of_mem_lineStarts {cs : List Char} {start : Nat} (h : start ∈ lineStarts cs) :
    start ≤ utf8Length cs := by
  rcases List.mem_cons.mp h with rfl | h
  · exact Nat.zero_le _
  · have := (mem_startsFrom_bounds h).2
    omega

/-- An offset lies behind some first part of a text, and in front of all line starts behind that part. -/
theorem exists_reached {base offset : Nat} (h : base ≤ offset) (cs : List Char) : ∃ a b, cs = a ++ b ∧
    base + utf8Length a ≤ offset ∧ ∀ start ∈ startsFrom (base + utf8Length a) b, offset < start := by
  induction cs generalizing base with
  | nil => exact ⟨[], [], rfl, h, nofun⟩
  | cons c cs ih =>
    by_cases hnext : base + c.utf8Size ≤ offset
    · obtain ⟨a, b, rfl, hle, hbehind⟩ := ih hnext
      rw [Nat.add_assoc] at hle hbehind
      exact ⟨c :: a, b, rfl, hle, hbehind⟩
    · refine ⟨[], c :: cs, rfl, h, fun start hstart => ?_⟩
      rcases mem_startsFrom_cons hstart with rfl | hstart
      · exact Nat.lt_of_not_le hnext
      · exact Nat.lt_trans (Nat.lt_of_not_le hnext) (mem_startsFrom_bounds hstart).1

/-- The last line of a text starts behind what is in front of it. -/
theorem lineStarts_lastLine (cs : List Char) : ∃ lead, cs = lead ++ lastLine cs ∧
    (lineStarts cs)[cs.count '\n']? = some (utf8Length lead) := by
  induction cs using List.reverseRecOn with
  | nil => exact ⟨[], rfl, rfl⟩
  | append_singleton cs c ih =>
    rw [lastLine_concat, lineStarts_append]
    by_cases hc : c = '\n'
    · refine ⟨cs ++ [c], by simp [hc], ?_⟩
      have hsize : '\n'.utf8Size = 1 := rfl
      simp [hc, startsFrom, length_lineStarts, utf8Length, hsize]
    · obtain ⟨lead, hlead, hstart⟩ := ih
      refine ⟨lead, ?_, ?_⟩
      · rw [if_neg hc, ← List.append_assoc, ← hlead]
      · simpa [hc, startsFrom] using hstart

namespace LineIndex

/-! ### The search -/

theorem text_ofText (text : List Char) : (ofText text).text = text := rfl

theorem starts_ofText (text : List Char) : (ofText text).starts = (lineStarts text).toArray := rfl

theorem starts_ascending (text : List Char) : (ofText text).starts.toList.Pairwise (· < ·) :=
  lineStarts_ascending text

/-- Halving finds how many starts there are up to an offset, by hitting the last of them or by missing the
one behind it. -/
theorem search_spec {starts : Array Nat} {offset count : Nat}
    (hascending : starts.toList.Pairwise (· < ·))
    (hcount : ∀ i (h : i < starts.size), starts[i] ≤ offset ↔ i < count) {lo hi : Nat}
    {h : hi ≤ starts.size} (hlo : lo ≤ count) (hhi : count ≤ hi) :
    search starts offset lo hi h = .miss count ∨
      ∃ i, count = i + 1 ∧ search starts offset lo hi h = .hit i := by
  fun_induction search starts offset lo hi h with
  | case1 lo hi h hlt mid hmid heq ih =>
    have hless : starts[mid] < offset := Nat.compare_eq_lt.mp heq
    exact ih ((hcount mid (by omega)).mp (Nat.le_of_lt hless)) hhi
  | case2 lo hi h hlt mid hmid heq =>
    have hhit : starts[mid] = offset := Nat.compare_eq_eq.mp heq
    have hlast : mid < count := (hcount mid (by omega)).mp (Nat.le_of_eq hhit)
    refine Or.inr ⟨mid, ?_, rfl⟩
    by_contra hmore
    -- the next start would be up to the offset too, and behind the one that is at it
    have hnext := (hcount (mid + 1) (by omega)).mpr (by omega)
    have hless := List.pairwise_iff_getElem.mp hascending mid (mid + 1) (by simp; omega)
      (by simp; omega) (Nat.lt_succ_self mid)
    simp only [Array.getElem_toList] at hless
    omega
  | case3 lo hi h hlt mid hmid heq ih =>
    have hgreater : offset < starts[mid] := Nat.compare_eq_gt.mp heq
    refine ih hlo (Nat.le_of_not_lt fun hmore => ?_)
    exact Nat.not_le.mpr hgreater ((hcount mid (by omega)).mpr hmore)
  | case4 lo hi h hlt =>
    obtain rfl : lo = count := by omega
    exact Or.inl rfl

section Reached

variable {a b : List Char} {offset : Nat}

/-- The starts up to an offset are those of the first part that the offset is behind. -/
theorem starts_le_iff (hle : utf8Length a ≤ offset)
    (hbehind : ∀ start ∈ startsFrom (utf8Length a) b, offset < start) (i : Nat)
    (h : i < (ofText (a ++ b)).starts.size) :
    (ofText (a ++ b)).starts[i] ≤ offset ↔ i < a.count '\n' + 1 := by
  simp only [starts_ofText, lineStarts_append, List.getElem_toArray, ← length_lineStarts]
  by_cases hi : i < (lineStarts a).length
  · rw [List.getElem_append_left hi]
    exact iff_of_true (Nat.le_trans (le_of_mem_lineStarts (List.getElem_mem hi)) hle) hi
  · rw [List.getElem_append_right (Nat.le_of_not_lt hi)]
    exact iff_of_false (Nat.not_le.mpr (hbehind _ (List.getElem_mem _))) hi

/-- The line found is the one that the first part ends on. -/
theorem line?_reached (hle : utf8Length a ≤ offset)
    (hbehind : ∀ start ∈ startsFrom (utf8Length a) b, offset < start) :
    (ofText (a ++ b)).line? offset = .ok (a.count '\n') := by
  have hsize : a.count '\n' + 1 ≤ (ofText (a ++ b)).starts.size := by
    simp [starts_ofText, length_lineStarts]
  unfold line?
  rcases search_spec (starts_ascending (a ++ b)) (starts_le_iff hle hbehind) (Nat.zero_le _) hsize with
    hmiss | ⟨i, hi, hhit⟩
  · rw [hmiss]
  · rw [hhit, Nat.succ.inj hi]

end Reached

theorem line?_behind (a b : List Char) :
    (ofText (a ++ b)).line? (utf8Length a) = .ok (a.count '\n') :=
  line?_reached (Nat.le_refl _) fun _ h => (mem_startsFrom_bounds h).1

theorem getElem?_starts (a b : List Char) :
    (ofText (a ++ b)).starts[a.count '\n']? = (lineStarts a)[a.count '\n']? := by
  rw [starts_ofText, List.getElem?_toArray, lineStarts_append, List.getElem?_append_left]
  rw [length_lineStarts]
  exact Nat.lt_succ_self _

/-- The search finds a line for every offset. -/
theorem line?_ok (text : List Char) (offset : Nat) : ∃ line start,
    (ofText text).line? offset = .ok line ∧ (ofText text).starts[line]? = some start := by
  obtain ⟨a, b, rfl, hle, hbehind⟩ := exists_reached (Nat.zero_le offset) text
  rw [Nat.zero_add] at hle hbehind
  obtain ⟨lead, -, hstart⟩ := lineStarts_lastLine a
  exact ⟨_, _, line?_reached hle hbehind, (getElem?_starts a b).trans hstart⟩

/-! ### Positions -/

/-- The line that a first part ends on starts at or before the end of that part, and the slice in between is what there
is of it. -/
theorem slice?_behind (a b : List Char) : ∃ start, (ofText (a ++ b)).starts[a.count '\n']? = some start ∧
    start ≤ utf8Length a ∧ slice? start (utf8Length a) (a ++ b) = some (lastLine a) := by
  obtain ⟨lead, ha, hstart⟩ := lineStarts_lastLine a
  refine ⟨utf8Length lead, (getElem?_starts a b).trans hstart, ?_, ?_⟩
  · rw [ha, utf8Length_append]
    exact Nat.le_add_right _ _
  · exact slice?_eq_some_iff.mpr ⟨lead, b, by rw [← ha], rfl, by rw [← ha]⟩

theorem position?_eq_ok_iff {index : LineIndex} {offset : Nat} {pos : Position} :
    index.position? offset = .ok pos ↔ ∃ line start before, index.line? offset = .ok line ∧
      index.starts[line]? = some start ∧ slice? start offset index.text = some before ∧
        ⟨line + 1, before.length + 1⟩ = pos := by
  unfold position?
  cases index.line? offset with
  | error fault => simp [bind, Except.bind]
  | ok line =>
    cases hstart : index.starts[line]? with
    | none => simp [hstart, bind, Except.bind]
    | some start => cases hslice : slice? start offset index.text <;> simp [hstart, hslice, bind, Except.bind]

/-- The index does not fail on the end of a first part of its text, and gives the position behind that part. -/
theorem position?_behind (a b : List Char) :
    (ofText (a ++ b)).position? (utf8Length a) = .ok (.behind a) := by
  obtain ⟨start, hstart, -, hslice⟩ := slice?_behind a b
  refine position?_eq_ok_iff.mpr ⟨_, start, lastLine a, line?_behind a b, hstart, hslice, ?_⟩
  rw [lastLine, List.length_reverse, Position.behind]

theorem position_behind (a b : List Char) :
    (ofText (a ++ b)).position (utf8Length a) = .behind a := by
  rw [position, position?_behind]
  rfl

/-- Where the index does not fail, the offset is the end of a first part. -/
theorem append_of_position? {text : List Char} {offset : Nat} {pos : Position}
    (h : (ofText text).position? offset = .ok pos) :
    ∃ a b, text = a ++ b ∧ utf8Length a = offset := by
  obtain ⟨line, start, before, -, -, hslice, -⟩ := position?_eq_ok_iff.mp h
  obtain ⟨lead, rest, htext, -, hoffset⟩ := slice?_eq_some_iff.mp hslice
  exact ⟨lead ++ before, rest, htext, hoffset⟩

/-- Where it fails, there is no slice up to the offset. -/
theorem eq_badSlice_of_position? {text : List Char} {offset : Nat} {fault : IndexFault}
    (h : (ofText text).position? offset = .error fault) : fault = .badSlice := by
  obtain ⟨line, start, hline, hstart⟩ := line?_ok text offset
  cases hslice : slice? start offset text with
  | none => simpa [position?, bind, Except.bind, hline, hstart, text_ofText, hslice] using h.symm
  | some before =>
    rw [position?_eq_ok_iff.mpr ⟨line, start, before, hline, hstart, hslice, rfl⟩] at h
    cases h

end LineIndex

end LayeredViews.Text
