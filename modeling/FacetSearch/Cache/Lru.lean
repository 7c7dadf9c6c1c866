import FacetSearch.Digest.Sha1

set_option autoImplicit false

/-! # Least recently used entries

A store of bounded size that several resolvers share. Entries stand in the order of their last use, the
latest first; writing and successful reading put an entry in front, and writing to a full store drops
the entry at the end. A store of capacity zero still holds one entry. -/

namespace FacetSearch

/-- Entries in the order of their last use, the latest first. -/
structure Lru (α : Type) where
  capacity : Nat
  entries : List (String × α)
deriving Repr

namespace Lru

variable {α : Type}

/-- The number of entries that are kept by default. -/
def defaultCapacity : Nat := 4096

def empty (capacity : Nat) : Lru α := ⟨capacity, []⟩

def size (c : Lru α) : Nat := c.entries.length

/-- The entries other than the one under `key`. -/
def others (c : Lru α) (key : String) : List (String × α) :=
  c.entries.filter fun entry => entry.1 != key

/-- The value under `key`, whose entry moves to the front. -/
def read (c : Lru α) (key : String) : Option α × Lru α :=
  match c.entries.lookup key with
  | none => (none, c)
  | some value => (some value, { c with entries := (key, value) :: c.others key })

/-- Put a value under `key` at the front, and drop what no longer fits. -/
def write (c : Lru α) (key : String) (value : α) : Lru α :=
  { c with entries := ((key, value) :: c.others key).take (max c.capacity 1) }

/-- A key for the shared store: a namespace and the digest of a name. -/
def key (space raw : String) : String := space ++ ":" ++ Sha1.hexDigest raw

end Lru

end FacetSearch
