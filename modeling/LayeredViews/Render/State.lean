import LayeredViews.Output.Buffered
import LayeredViews.Render.Compose

/-!
# Render state — what pages share while they run

One state goes through all pages of a render, whether it ends well or not: the view bag, the output,
the cancel flag, and the bench on which further views are compiled.  `Render` is a computation on it
that an execution error ends.
-/

namespace LayeredViews

/-! ### The bag -/

/-- Values that the pages of one render share under names. -/
abbrev Bag := Table String Json

namespace Bag

def empty : Bag := []

def set (bag : Bag) (key : String) (value : Json) : Bag :=
  Table.insert Text.before key value bag

def get? (bag : Bag) (key : String) : Option Json :=
  Table.find? key bag

/-- The value at a path, whose first name is a key; the empty path leads nowhere. -/
def lookup (bag : Bag) : List String → Option Json
  | [] => none
  | key :: path => (bag.get? key).bind fun v => v.lookup path

end Bag

/-! ### The state -/

/-- How far a render has come. -/
inductive Phase where
  | resolving
  | composing
  | executing
  | completed
  | failed
deriving DecidableEq, Repr

def Phase.name : Phase → String
  | .resolving => "resolving"
  | .composing => "composing"
  | .executing => "executing"
  | .completed => "completed"
  | .failed => "failed"

structure State where
  phase : Phase
  bag : Bag
  out : Output
  /-- The cancel flag, without what the sink may have done to it. -/
  flag : Bool
  /-- How many lookups there have been. -/
  lookups : Nat
  bench : Bench

/-- A computation on the render state that may end early. -/
abbrev Render := EStateM ExecError State

namespace State

/-- Whether the render has been cancelled, by its caller, by a lookup or by the sink. -/
def cancelRequested (s : State) : Bool := s.flag || s.out.sink.raised

def note (s : State) (e : Event) : State := { s with bench := s.bench.note e }

/-- Notes a lookup, which may raise the cancel flag; `raises` is told how many came before. -/
def noteLookup (raises : Nat → Address → Bool) (s : State) (a : Address) : State :=
  { s.note (.lookup a) with
    flag := s.flag || raises s.lookups a
    lookups := s.lookups + 1 }

/-- Runs a search and notes its lookups. -/
def search {α : Type} (raises : Nat → Address → Bool) (x : Search α) :
    EStateM ContentError State α := fun s =>
  match x.run .empty with
  | .ok a asked => .ok a (asked.toList.foldl (noteLookup raises) s)
  | .error e asked => .error e (asked.toList.foldl (noteLookup raises) s)

/-- Compiles on the bench of the state. -/
def compose {α : Type} (x : Compose α) : EStateM ComposeError State α := fun s =>
  match x.run s.bench with
  | .ok a bench => .ok a { s with bench }
  | .error e bench => .error e { s with bench }

/-- Writes on the output of the state. -/
def write {α : Type} (x : Output.Write α) : EStateM SinkFault State α := fun s =>
  match x.run s.out with
  | .ok a out => .ok a { s with out }
  | .error e out => .error e { s with out }

end State

namespace Render

/-- Writes a text. -/
def writeText (text : String) : Render Unit :=
  (State.write (Output.write text)).adaptExcept .sink

/-- Notes that a page starts. -/
def noteStart (template : String) (depth : Nat) : Render Unit :=
  modify fun s => s.note (.started template depth)

/-- Ends the run if it heeds the cancel flag and that is raised. -/
def checkCancelled (heedsFlag : Bool) : Render Unit := fun s =>
  if heedsFlag && s.cancelRequested then .error .cancelled (s.note .refused) else .ok () s

end Render

end LayeredViews
