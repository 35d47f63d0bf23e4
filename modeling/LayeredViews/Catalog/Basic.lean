import LayeredViews.History
import LayeredViews.View.Basic

/-!
# Catalogs — whoever knows the views

A catalog answers two questions: which view stands at an address under one of some extensions,
tried in order, and which views there are.  `Search` is a computation that may ask the first
question; it keeps the addresses it asked for, in order, also when it fails.
-/

namespace LayeredViews

/-- A source of views. -/
structure Catalog where
  locate : List String → Address → Except ContentError (Option View)
  list : List String → Except ContentError (List View)

/-- A computation that looks up addresses; its state is the history of those looked up. -/
abbrev Search := EStateM ContentError (History Address)

namespace Search

/-- Asks a catalog, and remembers the address. -/
def lookUp (catalog : Catalog) (extensions : List String) (a : Address) : Search (Option View) :=
  fun asked =>
    match catalog.locate extensions a with
    | .ok found => .ok found (asked.push a)
    | .error e => .error e (asked.push a)

end Search

namespace Catalog

/-- A catalog that fails at the addresses and in the listing that `faults` names. -/
def withFaults (catalog : Catalog) (atAddress : Address → Option ContentError)
    (atListing : Option ContentError) : Catalog where
  locate extensions a :=
    match atAddress a with
    | some e => .error e
    | none => catalog.locate extensions a
  list extensions :=
    match atListing with
    | some e => .error e
    | none => catalog.list extensions

end Catalog

end LayeredViews
