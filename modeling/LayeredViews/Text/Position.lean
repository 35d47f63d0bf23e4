/-!
# Positions — lines and columns of a text

Lines and columns count from one; only a line feed starts a line, and columns count characters.
A `LineIndex` holds a text and the byte offsets at which its lines start.  `LineIndex.position?` finds
the line of an offset by halving, and counts the characters of the slice from the start of that line up
to the offset.  Each of its steps can fail (`IndexFault`): an offset may be in front of every line, and
a slice may start behind its end, go past the text or cut a character.
-/

namespace LayeredViews.Text

/-- A place in a text: line and column, both from one. -/
structure Position where
  line : Nat
  column : Nat
deriving DecidableEq, Repr

/-- Where a text starts. -/
def Position.start : Position := ⟨1, 1⟩

/-- Byte length of a text in UTF-8. -/
def utf8Length : List Char → Nat
  | [] => 0
  | c :: cs => c.utf8Size + utf8Length cs

@[simp] theorem utf8Length_append (a b : List Char) :
    utf8Length (a ++ b) = utf8Length a + utf8Length b := by
  induction a with
  | nil => simp [utf8Length]
  | cons c a ih => simp [utf8Length, ih, Nat.add_assoc]

/-! ### Slices -/

/-- The characters read (newest first) with those in the next `n` bytes, and the text behind these bytes, if
they are some first characters of it. -/
def splitBytes? (read : List Char) : Nat → List Char → Option (List Char × List Char)
  | 0, cs => some (read.reverse, cs)
  | _ + 1, [] => none
  | n + 1, c :: cs =>
    if c.utf8Size ≤ n + 1 then splitBytes? (c :: read) (n + 1 - c.utf8Size) cs else none

/-- The characters of a text from byte `start` up to byte `stop`.  There is no such slice when it ends before
it starts, goes past the text, or starts or ends inside of a character. -/
def slice? (start stop : Nat) (text : List Char) : Option (List Char) :=
  if start ≤ stop then do
    let (_, rest) ← splitBytes? [] start text
    let (middle, _) ← splitBytes? [] (stop - start) rest
    return middle
  else none

/-! ### Line starts -/

/-- The byte offsets behind the line feeds of a text that itself starts at `offset`. -/
def startsFrom (offset : Nat) : List Char → List Nat
  | [] => []
  | c :: cs =>
    if c = '\n' then (offset + 1) :: startsFrom (offset + 1) cs
    else startsFrom (offset + c.utf8Size) cs

/-- The byte offsets at which the lines of a text start. -/
def lineStarts (text : List Char) : List Nat := 0 :: startsFrom 0 text

/-- Where a search in ascending numbers ends: at a number equal to the one sought, or at the place
where that one would have to go. -/
inductive Found where
  | hit (i : Nat)
  | miss (i : Nat)
deriving DecidableEq, Repr

/-- How the index of a text can fail on an offset. -/
inductive IndexFault where
  /-- The search misses in front of the first start, where there is no line. -/
  | underflow
  /-- There is no start of the line found. -/
  | noLine
  /-- There is no slice from the start of the line up to the offset. -/
  | badSlice
deriving DecidableEq, Repr

/-- A text, and the byte offsets at which its lines start. -/
structure LineIndex where
  text : List Char
  starts : Array Nat

namespace LineIndex

def ofText (text : List Char) : LineIndex :=
  ⟨text, (lineStarts text).toArray⟩

/-- Searches the numbers from `lo` up to `hi` by halving. -/
def search (starts : Array Nat) (offset lo hi : Nat) (h : hi ≤ starts.size) : Found :=
  if hlt : lo < hi then
    let mid := (lo + hi) / 2
    have hmid : mid < hi := by omega
    match compare starts[mid] offset with
    | .lt => search starts offset (mid + 1) hi h
    | .eq => .hit mid
    | .gt => search starts offset lo mid (by omega)
  else .miss lo
termination_by hi - lo

/-- The number of an offset's line, from zero: that of the start that is hit, or the one before the start
that is missed. -/
def line? (index : LineIndex) (offset : Nat) : Except IndexFault Nat :=
  match search index.starts offset 0 index.starts.size (Nat.le_refl _) with
  | .hit i => .ok i
  | .miss 0 => .error .underflow
  | .miss (i + 1) => .ok i

/-- The line and column of a byte offset. -/
def position? (index : LineIndex) (offset : Nat) : Except IndexFault Position := do
  let line ← index.line? offset
  match index.starts[line]? with
  | none => .error .noLine
  | some start =>
    match slice? start offset index.text with
    | none => .error .badSlice
    | some before => .ok ⟨line + 1, before.length + 1⟩

/-- The line and column of a byte offset at which a character starts, or of the end.  A scan asks for no
other offset; on those the index fails, and the start of the text stands in. -/
def position (index : LineIndex) (offset : Nat) : Position :=
  (index.position? offset).toOption.getD .start

end LineIndex

end LayeredViews.Text
