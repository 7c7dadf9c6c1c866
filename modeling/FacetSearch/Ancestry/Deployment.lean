import FacetSearch.Ancestry.Lookup

set_option autoImplicit false

/-! # A catalogue and a cache that can fail

A backing held in memory: a catalogue that may be down, a cache whose reads and writes may fail, and
the names that the catalogue was asked for, the failing ones included. -/

namespace FacetSearch

structure Deployment where
  catalogue : Catalogue
  cache : Lru String
  down : Bool := false
  readsFail : Bool := false
  writesFail : Bool := false
  /-- The names asked for, the latest first. -/
  asked : List String := []

namespace Deployment

def find (name : String) (d : Deployment) : Except StoreError (Option Entity) × Deployment :=
  let answer := if d.down then .error (.unavailable "backend offline")
    else .ok (d.catalogue.find? name)
  (answer, { d with asked := name :: d.asked })

def fetch (key : String) (d : Deployment) : Option String × Deployment :=
  if d.readsFail then (none, d)
  else
    let (text, cache) := d.cache.read key
    (text, { d with cache := cache })

def keep (key text : String) (d : Deployment) : Deployment :=
  if d.writesFail then d else { d with cache := d.cache.write key text }

def backing : Backing Deployment := { find, fetch, keep }

end Deployment

end FacetSearch
