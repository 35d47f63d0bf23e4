import LayeredViews.Json.Number
import LayeredViews.Table
import LayeredViews.Text.Order

/-!
# JSON values — the data a page is rendered against

An object keeps its fields sorted by name and each name once.  `Json.lookup` walks a path of names
through nested objects, where a numeral also picks an item of an array, and `Json.truthy` is the
test of a condition.
-/

namespace LayeredViews

inductive Json where
  | null
  | bool (value : Bool)
  | num (value : Json.Number)
  | str (value : String)
  | arr (items : List Json)
  | obj (fields : List (String × Json))
deriving Inhabited

namespace Json

/-! ### Construction -/

/-- Sets a field of an object. -/
def setField (name : String) (value : Json) (fields : List (String × Json)) :
    List (String × Json) :=
  Table.insert Text.before name value fields

/-- An object from its fields in any order; the last of two fields with one name counts. -/
def object (fields : List (String × Json)) : Json :=
  .obj (fields.foldl (fun t e => setField e.1 e.2 t) [])

def nat (n : Nat) : Json := .num (.int n)

/-- The object without fields. -/
def empty : Json := .obj []

/-! ### Looking up -/

/-- The part of a value that one name of a path leads to. -/
def step? (value : Json) (name : String) : Option Json :=
  match value with
  | .obj fields => Table.find? name fields
  | .arr items =>
    match Text.readNat Text.sizeMax name.toList with
    | .ok i => items[i]?
    | .error _ => none
  | _ => none

/-- The part of a value that a path leads to. -/
def lookup (value : Json) : List String → Option Json
  | [] => some value
  | name :: path => (value.step? name).bind fun v => v.lookup path

/-- Counts as true in a condition. -/
def truthy : Json → Bool
  | .null => false
  | .bool b => b
  | .num n => !n.isZero
  | .str s => !s.isEmpty
  | .arr items => !items.isEmpty
  | .obj fields => !fields.isEmpty

@[simp] theorem lookup_nil (v : Json) : v.lookup [] = some v := rfl

@[simp] theorem lookup_cons (v : Json) (name : String) (path : List String) :
    v.lookup (name :: path) = (v.step? name).bind fun w => w.lookup path := rfl

theorem lookup_append (v : Json) (p q : List String) :
    v.lookup (p ++ q) = (v.lookup p).bind fun w => w.lookup q := by
  induction p generalizing v with
  | nil => rfl
  | cons name p ih =>
    rw [List.cons_append, lookup_cons, lookup_cons]
    cases v.step? name with
    | none => rfl
    | some w => exact ih w

/-! ### Shapes -/

def str? : Json → Option String
  | .str s => some s
  | _ => none

def bool? : Json → Option Bool
  | .bool b => some b
  | _ => none

/-- A non-negative integer up to `Text.sizeMax`. -/
def size? : Json → Option Nat
  | .num (.int i) => if 0 ≤ i ∧ i ≤ Text.sizeMax then some i.toNat else none
  | _ => none

def arr? : Json → Option (List Json)
  | .arr items => some items
  | _ => none

/-- The value of a field of an object. -/
def field? (name : String) : Json → Option Json
  | .obj fields => Table.find? name fields
  | _ => none

end Json

end LayeredViews
