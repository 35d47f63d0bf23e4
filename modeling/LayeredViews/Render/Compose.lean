import LayeredViews.Digest.Sha256
import LayeredViews.History
import LayeredViews.Layering
import LayeredViews.PageCache
import LayeredViews.Render.Error
import LayeredViews.Template.Parser

/-!
# Composing — a layering compiled into layers

The members are read and compiled from the outermost layout to the leaf, and the first one that
fails ends it.  A cached page is used if the digest of the source just read is the one it was
compiled from.
-/

namespace LayeredViews

open Template (Page)

/-- What a render does, as its journal tells it. -/
inductive Event where
  /-- A catalog was asked for an address. -/
  | lookup (a : Address)
  /-- The contents of a view were read. -/
  | read (template : String)
  /-- A source was compiled. -/
  | compiled (template : String)
  /-- A page started, at a depth of partial views. -/
  | started (template : String) (depth : Nat)
  /-- A page or a partial view was refused because the render is cancelled. -/
  | refused
deriving DecidableEq, Repr

/-- The addresses that a journal says were looked up. -/
def lookupsOf (journal : List Event) : List Address :=
  journal.filterMap fun
    | .lookup a => some a
    | _ => none

/-- The templates that a journal says were compiled. -/
def compiledOf (journal : List Event) : List String :=
  journal.filterMap fun
    | .compiled template => some template
    | _ => none

inductive Role where
  | ancestor
  | leaf
deriving DecidableEq, Repr

/-- A compiled member of a layering. -/
structure Layer where
  template : String
  role : Role
  page : Page
deriving DecidableEq, Repr

/-- What compiling works on: the cache, if there is one, and the journal. -/
structure Bench where
  cache : Option (PageCache Page)
  journal : History Event

namespace Bench

def empty : Bench := ⟨none, .empty⟩

/-- A bench with a cache if one is wanted. -/
def fresh (cached : Bool) : Bench := ⟨if cached then some .empty else none, .empty⟩

def note (b : Bench) (e : Event) : Bench := { b with journal := b.journal.push e }

/-- Puts a page compiled from `source` into the cache, if there is one. -/
def store (b : Bench) (template source : String) (page : Page) : Bench :=
  { b with cache := b.cache.map fun c => c.insert template (Digest.ofText source) page }

/-- How many pages are cached. -/
def cachedPages (b : Bench) : Nat :=
  match b.cache with
  | none => 0
  | some c => c.size

end Bench

namespace Bench

/-- Reads the source of a view. -/
def readSource (view : View) : EStateM ContentError Bench String := fun b =>
  match view.source with
  | .ok source => .ok source (b.note (.read view.fullName))
  | .error e => .error e (b.note (.read view.fullName))

/-- Compiles a source under the full name of its view. -/
def compileSource (view : View) (source : String) : EStateM Failure Bench Page := fun b =>
  match Template.parse source with
  | .ok page => .ok page (b.note (.compiled view.fullName))
  | .error ds => .error ⟨view.fullName, .compilation, ds⟩ (b.note (.compiled view.fullName))

/-- The failure of a view compiled on its own, if it has one. -/
def failureOf? (view : View) : EStateM ContentError Bench (Option Failure) := do
  let source ← readSource view
  fun b =>
    match compileSource view source b with
    | .ok _ b' => .ok none b'
    | .error f b' => .ok (some f) b'

/-- The failures of some views, each compiled on its own and none of them cached. -/
def failuresOf : List View → EStateM ContentError Bench (List Failure)
  | [] => pure []
  | view :: views => do
    let found ← failureOf? view
    let others ← failuresOf views
    return found.toList ++ others

end Bench

/-- A computation on a bench that may fail. -/
abbrev Compose := EStateM ComposeError Bench

namespace Compose

/-- Asks the cache for the page compiled from `source`; an entry of another source goes. -/
def fetch (template source : String) : Compose (Option Page) := fun b =>
  match b.cache with
  | none => .ok none b
  | some c =>
    match c.get template (Digest.ofText source) with
    | (page?, c') => .ok page? { b with cache := some c' }

/-- Keeps a page in the cache. -/
def keep (template source : String) (page : Page) : Compose Unit := fun b =>
  .ok () (b.store template source page)

/-- The compiled page of a view. -/
def pageOf (view : View) : Compose Page := do
  let source ← (Bench.readSource view).adaptExcept .content
  match ← fetch view.fullName source with
  | some page => return page
  | none =>
    let page ← (Bench.compileSource view source).adaptExcept .failure
    keep view.fullName source page
    return page

/-- Compiles views in order, the last one as the leaf. -/
def layersOf : List View → Compose (List Layer)
  | [] => pure []
  | [view] => do return [⟨view.fullName, .leaf, ← pageOf view⟩]
  | view :: views => do
    let page ← pageOf view
    return ⟨view.fullName, .ancestor, page⟩ :: (← layersOf views)

/-- Compiles the members of a layering. -/
def layers (l : Layering) : Compose (List Layer) :=
  layersOf l.members

end Compose

end LayeredViews
