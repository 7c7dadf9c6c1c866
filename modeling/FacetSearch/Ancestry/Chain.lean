import FacetSearch.Entity.Basic

set_option autoImplicit false

/-! # Ancestor chains

One path from an entity toward the root of its hierarchy. Concepts may have several parents and their
chains are kept with the entity first; places and projects have one parent that counts and their chains
are kept with the root first. -/

namespace FacetSearch

inductive HierarchyKind where
  /-- Taxonomies, where every parent counts. -/
  | concept
  /-- Containment of places, where the first parent counts. -/
  | spatial
  /-- Nesting of projects, where the first parent counts. -/
  | project
deriving DecidableEq, Repr

namespace HierarchyKind

def name : HierarchyKind → String
  | concept => "concept"
  | spatial => "spatial"
  | project => "project"

/-- Every parent counts. -/
def isDag : HierarchyKind → Bool
  | concept => true
  | _ => false

end HierarchyKind

structure Chain where
  kind : HierarchyKind
  entities : List Entity
deriving DecidableEq, Repr

namespace Chain

def size (c : Chain) : Nat := c.entities.length

def identifiers (c : Chain) : List String := c.entities.map (·.identifier)

/-- The entity first, then its ancestors from the nearest on. -/
def nearestFirst (c : Chain) : List Entity :=
  if c.kind.isDag then c.entities else c.entities.reverse

/-- The most general ancestor first. -/
def mostGeneralFirst (c : Chain) : List Entity := c.nearestFirst.reverse

end Chain

end FacetSearch
