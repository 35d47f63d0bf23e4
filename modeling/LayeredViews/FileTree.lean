import LayeredViews.Table
import LayeredViews.Text.Order
import LayeredViews.View.Basic

/-!
# File trees — files, directories and links below one root

A directory holds its entries sorted by name, and a link holds its target as it was given.  A place
is the list of names that leads to an entry through no link.
-/

namespace LayeredViews

inductive FileTree where
  | file (contents : Contents)
  | dir (entries : List (String × FileTree))
  | link (target : String)

/-- The names that lead from the root of a tree to an entry, through no link. -/
abbrev Place := List String

namespace FileTree

def empty : FileTree := .dir []

/-- The entry at a place. -/
def get? (t : FileTree) : Place → Option FileTree
  | [] => some t
  | name :: rest =>
    match t with
    | .dir entries => (Table.find? name entries).bind fun sub => sub.get? rest
    | _ => none

/-- Sets or removes the entry at a place whose directory is there. -/
def alter (new : Option FileTree) : Place → FileTree → FileTree
  | [name], .dir entries =>
    match new with
    | some entry => .dir (Table.insert Text.before name entry entries)
    | none => .dir (Table.erase name entries)
  | name :: rest, .dir entries =>
    match Table.find? name entries with
    | some sub => .dir (Table.insert Text.before name (sub.alter new rest) entries)
    | none => .dir entries
  | _, t => t

@[simp] theorem get?_nil (t : FileTree) : t.get? [] = some t := by
  cases t <;> rfl

theorem get?_dir_cons (entries : List (String × FileTree)) (name : String) (rest : Place) :
    (dir entries).get? (name :: rest) = (Table.find? name entries).bind fun sub => sub.get? rest :=
  rfl

end FileTree

end LayeredViews
