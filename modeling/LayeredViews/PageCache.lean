import LayeredViews.Table
import LayeredViews.Text.Order

/-!
# Page caches — compiled pages tagged with the digest of their source

There is at most one entry a template.  Asking with another digest than the entry's drops the
entry.
-/

namespace LayeredViews

/-- A compiled page with the digest of the source it was compiled from. -/
structure CacheEntry (α : Type) where
  digest : String
  page : α
deriving Repr

structure PageCache (α : Type) where
  entries : Table String (CacheEntry α)

namespace PageCache

variable {α : Type}

def empty : PageCache α := ⟨[]⟩

/-- The entry of a template, whatever its digest. -/
def entry? (cache : PageCache α) (template : String) : Option (CacheEntry α) :=
  Table.find? template cache.entries

/-- Drops the entry of a template. -/
def invalidate (cache : PageCache α) (template : String) : PageCache α :=
  ⟨Table.erase template cache.entries⟩

/-- The page of a template if it has this digest; an entry with another one is dropped. -/
def get (cache : PageCache α) (template digest : String) : Option α × PageCache α :=
  match cache.entry? template with
  | none => (none, cache)
  | some e => if e.digest = digest then (some e.page, cache) else (none, cache.invalidate template)

/-- Sets the entry of a template. -/
def insert (cache : PageCache α) (template digest : String) (page : α) : PageCache α :=
  ⟨Table.insert Text.before template ⟨digest, page⟩ cache.entries⟩

def clear (_ : PageCache α) : PageCache α := empty

def size (cache : PageCache α) : Nat := cache.entries.length

/-! ### Entries -/

@[simp] theorem entry?_empty (template : String) : entry? (empty : PageCache α) template = none := rfl

@[simp] theorem entry?_clear (cache : PageCache α) (template : String) : entry? cache.clear template = none := rfl

theorem entry?_invalidate (cache : PageCache α) (template other : String) :
    entry? (cache.invalidate template) other = if template = other then none else cache.entry? other :=
  Table.find?_erase template other cache.entries

theorem entry?_insert (cache : PageCache α) (template digest : String) (page : α) (other : String) :
    entry? (cache.insert template digest page) other =
      if template = other then some ⟨digest, page⟩ else cache.entry? other := by
  unfold insert entry?
  rw [Table.find?_insert]

/-- A cache has a page for a digest if its entry has both. -/
theorem get_eq_some_iff {cache : PageCache α} {template digest : String} {page : α} :
    (cache.get template digest).1 = some page ↔ cache.entry? template = some ⟨digest, page⟩ := by
  unfold get
  rcases cache.entry? template with _ | ⟨recorded, kept⟩
  · simp
  · by_cases h : recorded = digest <;> simp [h]

/-- Only the entry of the template asked for may go, and it goes if its digest is another one. -/
theorem entry?_get (cache : PageCache α) (template digest other : String) :
    entry? (cache.get template digest).2 other =
      if template = other then Option.filter (·.digest = digest) <| cache.entry? other
      else cache.entry? other := by
  unfold get
  by_cases hsame : template = other
  · subst hsame
    rcases he : cache.entry? template with _ | ⟨recorded, kept⟩
    · simp [he]
    · by_cases h : recorded = digest <;> simp [h, he, entry?_invalidate, Option.filter]
  · rcases cache.entry? template with _ | ⟨recorded, kept⟩
    · simp [hsame]
    · by_cases h : recorded = digest <;> simp [h, hsame, entry?_invalidate]

end PageCache

end LayeredViews
