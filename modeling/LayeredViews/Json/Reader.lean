import LayeredViews.Json.Basic

/-!
# Reading JSON — a machine that takes one character at a time

The machine holds the containers that are still open, innermost first, and what it is in the middle
of.  `read` feeds it a whole text.  The grammar is the strict one: no trailing commas or text, no
raw control characters and no lone surrogates in strings, and fewer than 128 open containers.
-/

namespace LayeredViews.Json

/-- Why a text is not JSON. -/
inductive ReadError where
  | unexpected (c : Char)
  | unexpectedEnd
  | number
  | string
  | tooDeep
deriving DecidableEq, Repr

def ReadError.message : ReadError → String
  | .unexpected c => "unexpected character '" ++ c.toString ++ "'"
  | .unexpectedEnd => "unexpected end of text"
  | .number => "invalid number"
  | .string => "invalid string"
  | .tooDeep => "too many open brackets"

/-! ### The machine -/

/-- An open container with what it holds so far. -/
inductive Container where
  /-- Items, newest first. -/
  | items (done : List Json)
  /-- Fields, and the name whose value is still to come. -/
  | fields (done : List (String × Json)) (name : Option String)

/-- What may come next between values, names and marks. -/
inductive Expected where
  | value
  | valueOrEnd
  | name
  | nameOrEnd
  | colon
  | next

/-- What the last characters of a string were. -/
inductive Quoted where
  | plain
  | escape
  /-- In `left` more hexadecimal digits; `high` is a high surrogate that came before. -/
  | unicode (left value : Nat) (high : Option Nat)
  /-- After a high surrogate: a backslash, then a `u`. -/
  | lowEscape (high : Nat)
  | lowLetter (high : Nat)

/-- What the machine is in the middle of.  Characters read are kept newest first. -/
inductive Progress where
  | between (expected : Expected)
  | word (rest : List Char) (value : Json)
  | number (chars : List Char)
  | string (chars : List Char) (quoted : Quoted)
  | finished (value : Json)

structure Machine where
  stack : List Container
  progress : Progress

namespace Machine

def start : Machine := ⟨[], .between .value⟩

/-- So many containers are never open at once. -/
def depthLimit : Nat := 128

/-- Hands a finished value to the innermost open container. -/
def complete (stack : List Container) (v : Json) : Except ReadError Machine :=
  match stack with
  | [] => .ok ⟨[], .finished v⟩
  | .items done :: outer => .ok ⟨.items (v :: done) :: outer, .between .next⟩
  | .fields done (some name) :: outer =>
    .ok ⟨.fields (setField name v done) none :: outer, .between .next⟩
  | .fields _ none :: _ => .error .unexpectedEnd

/-- Opens a container. -/
def push (stack : List Container) (c : Container) (expected : Expected) :
    Except ReadError Machine :=
  if stack.length + 1 < depthLimit then .ok ⟨c :: stack, .between expected⟩ else .error .tooDeep

/-- Closes the innermost container by a bracket. -/
def close (stack : List Container) (c : Char) : Except ReadError Machine :=
  match stack, c with
  | .items done :: outer, ']' => complete outer (.arr done.reverse)
  | .fields done none :: outer, '}' => complete outer (.obj done)
  | _, _ => .error (.unexpected c)

/-- A character of a numeral. -/
def isNumeral (c : Char) : Bool :=
  (Text.digit? c).isSome || c == '+' || c == '-' || c == '.' || c == 'e' || c == 'E'

def isSpace (c : Char) : Bool :=
  c == ' ' || c == '\t' || c == '\n' || c == '\r'

/-- The first character of a value. -/
def beginValue (stack : List Container) (c : Char) : Except ReadError Machine :=
  match c with
  | '[' => push stack (.items []) .valueOrEnd
  | '{' => push stack (.fields [] none) .nameOrEnd
  | '"' => .ok ⟨stack, .string [] .plain⟩
  | 't' => .ok ⟨stack, .word ['r', 'u', 'e'] (.bool true)⟩
  | 'f' => .ok ⟨stack, .word ['a', 'l', 's', 'e'] (.bool false)⟩
  | 'n' => .ok ⟨stack, .word ['u', 'l', 'l'] .null⟩
  | c => if isNumeral c then .ok ⟨stack, .number [c]⟩ else .error (.unexpected c)

/-- A mark or the first character of a value or name. -/
def between (stack : List Container) (expected : Expected) (c : Char) : Except ReadError Machine :=
  if isSpace c then .ok ⟨stack, .between expected⟩
  else
    match expected with
    | .value => beginValue stack c
    | .valueOrEnd => if c = ']' then close stack c else beginValue stack c
    | .name => if c = '"' then .ok ⟨stack, .string [] .plain⟩ else .error (.unexpected c)
    | .nameOrEnd =>
      if c = '"' then .ok ⟨stack, .string [] .plain⟩ else close stack c
    | .colon => if c = ':' then .ok ⟨stack, .between .value⟩ else .error (.unexpected c)
    | .next =>
      if c = ',' then
        match stack with
        | .items _ :: _ => .ok ⟨stack, .between .value⟩
        | .fields _ _ :: _ => .ok ⟨stack, .between .name⟩
        | [] => .error (.unexpected c)
      else close stack c

/-! ### Strings -/

/-- A string is over: it is the name of a field if the innermost object waits for one. -/
def completeString (stack : List Container) (s : String) : Except ReadError Machine :=
  match stack with
  | .fields done none :: outer => .ok ⟨.fields done (some s) :: outer, .between .colon⟩
  | _ => complete stack (.str s)

/-- The character that a backslash and a letter stand for. -/
def escaped? (c : Char) : Option Char :=
  match c with
  | '"' => some '"'
  | '\\' => some '\\'
  | '/' => some '/'
  | 'b' => some '\x08'
  | 'f' => some '\x0c'
  | 'n' => some '\n'
  | 'r' => some '\r'
  | 't' => some '\t'
  | _ => none

def isHigh (n : Nat) : Bool := decide (0xD800 ≤ n ∧ n < 0xDC00)

def isLow (n : Nat) : Bool := decide (0xDC00 ≤ n ∧ n < 0xE000)

/-- Takes up a unit of four hexadecimal digits: a character, a half of one, or a fault. -/
def unit (chars : List Char) (n : Nat) (high : Option Nat) : Except ReadError Progress :=
  match high with
  | none =>
    if isHigh n then .ok (.string chars (.lowEscape n))
    else if isLow n then .error .string
    else .ok (.string (Char.ofNat n :: chars) .plain)
  | some h =>
    if isLow n then
      .ok (.string (Char.ofNat (0x10000 + (h - 0xD800) * 0x400 + (n - 0xDC00)) :: chars) .plain)
    else .error .string

/-- One character of a string. -/
def inString (stack : List Container) (chars : List Char) (quoted : Quoted) (c : Char) :
    Except ReadError Machine :=
  match quoted with
  | .plain =>
    if c = '"' then completeString stack (String.ofList chars.reverse)
    else if c = '\\' then .ok ⟨stack, .string chars .escape⟩
    else if c.toNat < 0x20 then .error .string
    else .ok ⟨stack, .string (c :: chars) .plain⟩
  | .escape =>
    if c = 'u' then .ok ⟨stack, .string chars (.unicode 4 0 none)⟩
    else
      match escaped? c with
      | some e => .ok ⟨stack, .string (e :: chars) .plain⟩
      | none => .error .string
  | .unicode left value high =>
    match Text.hexValue? c with
    | none => .error .string
    | some d =>
      if left ≤ 1 then (unit chars (value * 16 + d) high).map fun p => ⟨stack, p⟩
      else .ok ⟨stack, .string chars (.unicode (left - 1) (value * 16 + d) high)⟩
  | .lowEscape high =>
    if c = '\\' then .ok ⟨stack, .string chars (.lowLetter high)⟩ else .error .string
  | .lowLetter high =>
    if c = 'u' then .ok ⟨stack, .string chars (.unicode 4 0 (some high))⟩ else .error .string

/-! ### One character -/

/-- A numeral is over. -/
def completeNumber (stack : List Container) (chars : List Char) : Except ReadError Machine :=
  match Number.ofChars? chars.reverse with
  | some n => complete stack (.num n)
  | none => .error .number

/-- Takes one character. -/
def step (m : Machine) (c : Char) : Except ReadError Machine :=
  match m.progress with
  | .between expected => between m.stack expected c
  | .word [] _ => .error (.unexpected c)
  | .word (w :: rest) v =>
    if c = w then
      if rest.isEmpty then complete m.stack v else .ok ⟨m.stack, .word rest v⟩
    else .error (.unexpected c)
  | .string chars quoted => inString m.stack chars quoted c
  | .finished v => if isSpace c then .ok ⟨m.stack, .finished v⟩ else .error (.unexpected c)
  | .number chars =>
    if isNumeral c then .ok ⟨m.stack, .number (c :: chars)⟩
    else
      match completeNumber m.stack chars with
      | .error e => .error e
      | .ok ⟨_, .finished v⟩ =>
        if isSpace c then .ok ⟨[], .finished v⟩ else .error (.unexpected c)
      | .ok m' => between m'.stack .next c

/-- Takes the characters of a text in order. -/
def run (m : Machine) : List Char → Except ReadError Machine
  | [] => .ok m
  | c :: cs =>
    match m.step c with
    | .error e => .error e
    | .ok m' => run m' cs

/-- The value read, if the text may end here. -/
def finish (m : Machine) : Except ReadError Json :=
  match m.progress with
  | .finished v => .ok v
  | .number chars =>
    match completeNumber m.stack chars with
    | .ok ⟨_, .finished v⟩ => .ok v
    | .ok _ => .error .unexpectedEnd
    | .error e => .error e
  | _ => .error .unexpectedEnd

theorem run_append (m : Machine) (a b : List Char) :
    m.run (a ++ b) = (m.run a).bind fun m' => m'.run b := by
  induction a generalizing m with
  | nil => rfl
  | cons c a ih =>
    simp only [List.cons_append, run]
    cases m.step c with
    | error e => rfl
    | ok m' => exact ih m'

end Machine

/-- Reads a whole text as one JSON value. -/
def read (text : String) : Except ReadError Json :=
  match Machine.start.run text.toList with
  | .error e => .error e
  | .ok m => m.finish

end LayeredViews.Json
