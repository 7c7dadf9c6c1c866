import FacetSearch.Ancestry.Chain
import FacetSearch.Cache.Lru
import FacetSearch.Entity.Catalogue

set_option autoImplicit false

/-! # Looking entities up

A resolver stands between names and the catalogue. It remembers every answer, a miss included, and
reads through a cache that other resolvers share; what the cache fails to give is asked of the
catalogue. The catalogue and the cache are a `Backing`: three operations on a state that the resolver
knows nothing about, so they may change, lose entries or fail between any two steps.

Only an answer of the catalogue is ever remembered as a miss. Its failure ends the call and leaves what
was learned before it. -/

namespace FacetSearch

/-! ## What stands behind a resolver -/

/-- A catalogue and a shared cache, over a state `σ`. -/
structure Backing (σ : Type) where
  /-- Ask the catalogue for a name. -/
  find : String → σ → Except StoreError (Option Entity) × σ
  /-- Read the cache; a failure counts as a miss. -/
  fetch : String → σ → Option String × σ
  /-- Write to the cache, which may fail unnoticed. -/
  keep : String → String → σ → σ

structure ResolverSettings where
  /-- The most hops that are walked from an entity toward its root. -/
  maxDepth : Nat := 30
  /-- The most chains that are collected for one concept. -/
  maxChains : Nat := 256
  /-- The parent name that ends every hierarchy. -/
  rootName : String := "root"
  /-- The namespace of keys in the shared cache. -/
  cacheSpace : String := "entity"
  cacheCapacity : Nat := Lru.defaultCapacity
deriving DecidableEq, Repr

/-! ## What a resolver remembers -/

/-- Chains by the identifier of the entity they start from, one table for each kind. -/
structure ChainMemo where
  concept : Std.ExtTreeMap String (List Chain) := ∅
  spatial : Std.ExtTreeMap String (List Chain) := ∅
  project : Std.ExtTreeMap String (List Chain) := ∅

namespace ChainMemo

def table (m : ChainMemo) : HierarchyKind → Std.ExtTreeMap String (List Chain)
  | .concept => m.concept
  | .spatial => m.spatial
  | .project => m.project

def get? (m : ChainMemo) (kind : HierarchyKind) (identifier : String) : Option (List Chain) :=
  (m.table kind)[identifier]?

def insert (m : ChainMemo) (kind : HierarchyKind) (identifier : String) (chains : List Chain) :
    ChainMemo :=
  match kind with
  | .concept => { m with concept := m.concept.insert identifier chains }
  | .spatial => { m with spatial := m.spatial.insert identifier chains }
  | .project => { m with project := m.project.insert identifier chains }

end ChainMemo

/-- What one resolver has learned. -/
structure Memo where
  /-- The answer for each name that was asked for; `none` for a miss. -/
  entities : Std.ExtTreeMap String (Option Entity) := ∅
  chains : ChainMemo := {}

/-- Remember the answer for a name, and for the identifier of the entity found. -/
def Memo.remember (m : Memo) (name : String) (answer : Option Entity) : Memo :=
  let held := match answer with
    | some e => if e.identifier = name then m.entities else m.entities.insert e.identifier answer
    | none => m.entities
  { m with entities := held.insert name answer }

/-! ## Lookups -/

/-- A resolver's memory and the state behind it. -/
structure Session (σ : Type) where
  memo : Memo := {}
  world : σ

/-- Steps of a resolver, which only a failing catalogue breaks off. -/
abbrev Lookups (σ : Type) := ExceptT StoreError (StateM (Session σ))

variable {σ : Type}

/-- A name that is never asked for: a blank one or the root. -/
def ResolverSettings.isRoot (s : ResolverSettings) (name : String) : Bool := name = s.rootName

/-- Run an operation on the state behind the resolver. -/
def onWorld {α : Type} (f : σ → α × σ) : Lookups σ α := do
  let s ← get
  let (result, world) := f s.world
  set { s with world := world }
  return result

def remember (name : String) (answer : Option Entity) : Lookups σ Unit :=
  modify fun s => { s with memo := s.memo.remember name answer }

/-- Ask the catalogue for a name that neither memory nor cache knows. -/
def consult (b : Backing σ) (key name : String) : Lookups σ (Option Entity) := do
  let answer ← onWorld (b.find name)
  match answer with
  | .error e => throw e
  | .ok found =>
    remember name found
    if let some e := found then
      onWorld fun world => ((), b.keep key e.snapshot world)
    return found

/-- The entity behind a name, if there is one. White space around the name does not count. -/
def resolve? (b : Backing σ) (s : ResolverSettings) (raw : String) : Lookups σ (Option Entity) := do
  let name := Text.trim raw
  if name.isEmpty || s.isRoot name then return none
  match (← get).memo.entities[name]? with
  | some answer => return answer
  | none =>
    let key := Lru.key s.cacheSpace name
    let cached ← onWorld (b.fetch key)
    match cached.bind Entity.ofSnapshot? with
    | some e =>
      remember name (some e)
      return some e
    | none => consult b key name

/-! ## Errors -/

/-- Why an entity could not be had. -/
inductive LookupError where
  | notFound (name : String)
  | store (error : StoreError)
deriving DecidableEq, Repr

def LookupError.message : LookupError → String
  | notFound name => s!"Identifier not found: {name}"
  | store error => error.message

end FacetSearch
