import FacetSearch.Ancestry.Walk

set_option autoImplicit false

/-! # Inherited metadata

The metadata of an entity, or else of its nearest ancestor that has any. Chains that are remembered are
read level by level; otherwise the ancestors are searched breadth first, so that none is looked up that
lies farther away than the hit. -/

namespace FacetSearch

variable {σ : Type}

/-- Metadata and the identifier of the entity that has it. -/
structure Inherited where
  source : String
  metadata : Metadata
deriving DecidableEq, Repr

/-- The metadata of an entity itself. -/
def Entity.inherited? (kind : MetadataKind) (e : Entity) : Option Inherited :=
  (e.metadata.get kind).map fun metadata => { source := e.identifier, metadata }

/-- The nearest metadata above the entity in its chains, the chains in order on each level. -/
def nearestInChains (kind : MetadataKind) (chains : List Chain) : Option Inherited :=
  let ordered := chains.map (·.nearestFirst)
  let longest := ordered.foldl (fun n chain => max n chain.length) 0
  ((List.range longest).drop 1).findSome? fun level =>
    ordered.findSome? fun chain => chain[level]?.bind (Entity.inherited? kind)

/-- The entities of one level: those seen so far and those to search next. -/
structure Frontier where
  seen : List String
  next : List Entity

/-- Look the parents of a level up in order, until one has the metadata. -/
def searchParents (b : Backing σ) (s : ResolverSettings) (kind : MetadataKind) :
    List String → Frontier → Lookups σ (Inherited ⊕ Frontier)
  | [], f => return .inr f
  | name :: rest, f => do
    match ← resolve? b s name with
    | none => searchParents b s kind rest f
    | some parent =>
      if f.seen.contains parent.identifier then searchParents b s kind rest f
      else
        match parent.inherited? kind with
        | some hit => return .inl hit
        | none =>
          let f : Frontier := { seen := parent.identifier :: f.seen, next := f.next ++ [parent] }
          searchParents b s kind rest f

/-- Search level after level, at most `levels` of them. -/
def searchLevels (b : Backing σ) (s : ResolverSettings) (hierarchy : HierarchyKind)
    (kind : MetadataKind) : Nat → List String → List Entity → Lookups σ (Option Inherited)
  | 0, _, _ => return none
  | levels + 1, seen, frontier => do
    if frontier.isEmpty then return none
    let names := frontier.flatMap (parentNames s hierarchy)
    match ← searchParents b s kind names { seen, next := [] } with
    | .inl hit => return some hit
    | .inr f => searchLevels b s hierarchy kind levels f.seen f.next

/-- The metadata nearest to the entity behind a name; `none` outside when there is no entity, `none`
    inside when no ancestor within reach has any. -/
def nearestMetadata (b : Backing σ) (s : ResolverSettings) (name : String)
    (hierarchy : HierarchyKind) (kind : MetadataKind) :
    Lookups σ (Option (Option Inherited)) := do
  let some e ← resolve? b s name | return none
  match e.inherited? kind with
  | some hit => return some (some hit)
  | none =>
    match ← knownChains hierarchy e.identifier with
    | some chains => return some (nearestInChains kind chains)
    | none => return some (← searchLevels b s hierarchy kind s.maxDepth [e.identifier] [e])

end FacetSearch
