import LayeredViews.Proofs.Table
import LayeredViews.Proofs.Template.Substitution
import LayeredViews.Proofs.Text.Decimal
import LayeredViews.Render.Page

/-!
# Values — what paths and expressions lead to

A path that is put together from two leads where the second one does from the end of the first.  The numeral of an
index, which would be a field's name in an object, leads from an array to its item there (`Json.lookup_numeral`), so that
a loop runs over what its expression leads to by the indices in turn (`Render.loopItems_indexed`).  The bag has under
each key the value that has been set last.
-/

namespace LayeredViews

open Template (Expr)

/-! ### Items of arrays -/

namespace Json

theorem step?_numeral (items : List Json) (i : Nat) :
    (arr items).step? i.repr = if i ≤ Text.sizeMax then items[i]? else none := by
  rw [step?, Text.readNat_repr_eq]
  by_cases hi : i ≤ Text.sizeMax
  · rw [if_pos hi, if_pos hi]
  · rw [if_neg hi, if_neg hi]

variable {v : Json} {path : List String} {items : List Json}

/-- From an array a numeral leads to the item of its index, if that is a size at all. -/
theorem lookup_numeral (h : v.lookup path = some (.arr items)) (i : Nat) :
    v.lookup (path ++ [i.repr]) = if i ≤ Text.sizeMax then items[i]? else none := by
  rw [lookup_append, h, Option.bind_some, lookup_cons, step?_numeral]
  exact Option.bind_fun_some _

/-- An array has its items under their indices and nothing under other numerals; it has no more of them than a size
can count. -/
theorem lookup_index (h : v.lookup path = some (.arr items)) (hlength : items.length ≤ Text.sizeMax) (i : Nat) :
    v.lookup (path ++ [i.repr]) = items[i]? := by
  rw [lookup_numeral h]
  by_cases hi : i ≤ Text.sizeMax
  · rw [if_pos hi]
  · rw [if_neg hi, List.getElem?_eq_none (by omega)]

end Json

/-! ### The bag -/

namespace Bag

/-- What the bag holds after some keys have been set in order. -/
def ofSets (sets : List (String × Json)) : Bag :=
  sets.foldl (fun bag e => bag.set e.1 e.2) empty

theorem get?_ofSets (sets : List (String × Json)) (key : String) :
    (ofSets sets).get? key = sets.reverse.lookup key :=
  Table.find?_foldl_insert Text.before sets key

theorem lookup_append {bag : Bag} {path : List String} {v : Json} (h : bag.lookup path = some v)
    (q : List String) : bag.lookup (path ++ q) = v.lookup q := by
  cases path with
  | nil => cases h
  | cons key path =>
    obtain ⟨w, hkey, hw⟩ := Option.bind_eq_some_iff.mp h
    rw [List.cons_append, lookup, hkey, Option.bind_some, Json.lookup_append, hw, Option.bind_some]

end Bag

/-! ### Expressions -/

namespace Render

variable {model : Json} {locals : Locals} {bag : Bag} {e : Expr}

/-- An expression goes on from its value, whatever it is rooted in. -/
theorem valueOf_extend {v : Json} (h : valueOf model locals bag e = some v) (path : List String) :
    valueOf model locals bag (e.extend path) = v.lookup path := by
  obtain ⟨root, names, text⟩ := e
  cases root with
  | model =>
    have hvalue : model.lookup names = some v := h
    have hextended : model.lookup (names ++ path) = v.lookup path := by
      rw [Json.lookup_append, hvalue, Option.bind_some]
    exact hextended
  | bag => exact Bag.lookup_append h path
  | loop name =>
    obtain ⟨item, hitem, hvalue⟩ := Option.bind_eq_some_iff.mp h
    have hextended : (Table.find? name locals).bind (fun w => w.lookup (names ++ path)) = v.lookup path := by
      rw [hitem, Option.bind_some, Json.lookup_append, hvalue, Option.bind_some]
    exact hextended

theorem loopItems_eq_ok_iff {items : List Json} :
    loopItems model locals bag e = .ok items ↔ valueOf model locals bag e = some (.arr items) := by
  unfold loopItems requiredValue
  cases valueOf model locals bag e with
  | none => by_cases hroot : e.root = .bag <;> simp [hroot, itemsOf, bind, Except.bind]
  | some v => cases v <;> simp [itemsOf, bind, Except.bind]

/-- A loop runs over the items that its expression leads to by the indices. -/
theorem loopItems_indexed {items : List Json} (h : loopItems model locals bag e = .ok items)
    (hlength : items.length ≤ Text.sizeMax) (i : Nat) :
    valueOf model locals bag (e.item i) = items[i]? := by
  have harray : (Json.arr items).lookup [] = some (.arr items) := Json.lookup_nil _
  rw [Expr.item, valueOf_extend (loopItems_eq_ok_iff.mp h)]
  exact Json.lookup_index harray hlength i

/-- Paths compose, and numerals index arrays as loops go through them.  A path put together from two leads from a
value where the second leads from what the first leads to.  Where a path leads to an array, one more numeral leads to
the item of that index, and to nothing behind the last item; the one bound is that of a size, which the length of an
array is within.  A loop goes through the same items.  In the bag a path leads from the value that its first name has
been set to last. -/
theorem values_along_paths (v : Json) :
    (∀ p q, v.lookup (p ++ q) = (v.lookup p).bind fun w => w.lookup q) ∧
      (∀ p items, v.lookup p = some (.arr items) → ∀ i : Nat,
        v.lookup (p ++ [i.repr]) = (if i ≤ Text.sizeMax then items[i]? else none) ∧
          (items.length ≤ Text.sizeMax → v.lookup (p ++ [i.repr]) = items[i]?)) ∧
      (∀ locals bag e items, loopItems v locals bag e = .ok items → items.length ≤ Text.sizeMax →
        ∀ i, valueOf v locals bag (e.item i) = items[i]?) ∧
      ∀ sets key q, (Bag.ofSets sets).lookup (key :: q) = (sets.reverse.lookup key).bind fun w => w.lookup q := by
  refine ⟨Json.lookup_append v, fun p items harray i => ⟨Json.lookup_numeral harray i, fun hlength => ?_⟩,
    fun locals bag e items hitems hlength i => loopItems_indexed hitems hlength i, fun sets key q => ?_⟩
  · exact Json.lookup_index harray hlength i
  · rw [Bag.lookup, Bag.get?_ofSets]

/-- A user with two tags, and with a field that has a numeral for its name. -/
def taggedUser : Json :=
  .obj [("user", .obj [("1", .str "one"), ("tags", .arr [.str "x", .str "y"])])]

theorem values_along_paths_of_tags :
    let tags : Expr := ⟨.model, ["user", "tags"], "model.user.tags"⟩
    let items : List Json := [.str "x", .str "y"]
    taggedUser.lookup tags.path = some (.arr items) ∧
      items.length ≤ Text.sizeMax ∧
      loopItems taggedUser [] .empty tags = .ok items ∧
      taggedUser.lookup ["user", "1"] = some (.str "one") ∧
      taggedUser.lookup ["user", "tags", "1"] = some (.str "y") ∧
      taggedUser.lookup ["user", "tags", "2"] = none ∧
      valueOf taggedUser [] .empty (tags.item 1) = some (.str "y") ∧
      (Bag.ofSets [("a", .null), ("b", .null), ("a", taggedUser)]).lookup ["a", "user", "1"] = some (.str "one") := by
  intro tags items
  obtain ⟨happend, hindex, hloop, hbag⟩ := values_along_paths taggedUser
  have hitems : taggedUser.lookup tags.path = some (.arr items) := rfl
  have hlength : items.length ≤ Text.sizeMax := by decide
  refine ⟨hitems, hlength, rfl, happend ["user"] ["1"], ?_, ?_, ?_, ?_⟩
  · exact (hindex tags.path items hitems 1).2 hlength
  · exact (hindex tags.path items hitems 2).2 hlength
  · exact hloop [] .empty tags items rfl hlength 1
  · exact hbag [("a", .null), ("b", .null), ("a", taggedUser)] "a" ["user", "1"]

end Render

end LayeredViews
