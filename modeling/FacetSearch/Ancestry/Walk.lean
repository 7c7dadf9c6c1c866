import FacetSearch.Ancestry.Lookup

set_option autoImplicit false

/-! # Walks toward the root

The chains of an entity. A concept has one for each path through its parents, nearest parent list
first; a path ends at a parent that is unknown, at the depth limit or before a cycle. The other kinds
follow the first parent only. Chains that no limit and no cycle cut short are remembered for every
concept on the way, and the answer of a whole call for its entity; a failure of the catalogue keeps
those that were finished before it. -/

namespace FacetSearch

variable {σ : Type}

/-- The names of the parents that count. -/
def parentNames (s : ResolverSettings) (kind : HierarchyKind) (e : Entity) : List String :=
  let names := e.parents.filter fun name => !s.isRoot name
  if kind.isDag then names else names.take 1

/-- The chains that an earlier call found. -/
def knownChains (kind : HierarchyKind) (identifier : String) : Lookups σ (Option (List Chain)) :=
  return (← get).memo.chains.get? kind identifier

def rememberChains (kind : HierarchyKind) (identifier : String) (chains : List Chain) :
    Lookups σ Unit :=
  modify fun s => { s with memo := { s.memo with
    chains := s.memo.chains.insert kind identifier chains } }

/-! ## Concepts -/

/-- Paths from a concept, each with the concept first. -/
structure Walk where
  paths : List (List Entity)
  /-- Neither the depth limit nor a cycle cut the walk; the limit on chains does not count. -/
  complete : Bool

/-- Put an entity in front of paths, of which `room` are kept. -/
def extendPaths (e : Entity) (room : Nat) (paths : List (List Entity)) : List (List Entity) :=
  (paths.take room).map (e :: ·)

/-- The paths above a parent, from memory or by walking on. A complete walk is remembered. -/
def pathsAbove (walk : Entity → Lookups σ Walk) (parent : Entity) : Lookups σ Walk := do
  match ← knownChains .concept parent.identifier with
  | some chains => return { paths := chains.map (·.entities), complete := true }
  | none =>
    let found ← walk parent
    if found.complete then
      rememberChains .concept parent.identifier (found.paths.map (⟨.concept, ·⟩))
    return found

/-- The paths of `e` through the parents that are left, after those in `done`. Parents that are
    unknown are skipped, and so are those on the trail, which make the walk incomplete. -/
def pathsThrough (b : Backing σ) (s : ResolverSettings) (e : Entity) (trail : List String)
    (walk : Entity → Lookups σ Walk) : List String → Walk → Lookups σ Walk
  | [], done => return done
  | name :: rest, done => do
    match ← resolve? b s name with
    | none => pathsThrough b s e trail walk rest done
    | some parent =>
      if trail.contains parent.identifier then
        pathsThrough b s e trail walk rest { done with complete := false }
      else
        let above ← pathsAbove walk parent
        let room := s.maxChains - done.paths.length
        let now : Walk :=
          { paths := done.paths ++ extendPaths e room above.paths
            complete := done.complete && above.complete }
        if room < above.paths.length then return now
        else pathsThrough b s e trail walk rest now

/-- The paths from a concept with at most `levels` hops; `trail` holds the concepts below it. -/
def conceptWalk (b : Backing σ) (s : ResolverSettings) :
    Nat → List String → Entity → Lookups σ Walk
  | 0, _, e => return { paths := [[e]], complete := false }
  | levels + 1, trail, e => do
    let here := trail ++ [e.identifier]
    let found ← pathsThrough b s e here (conceptWalk b s levels here)
      (parentNames s .concept e) { paths := [], complete := true }
    return if found.paths.isEmpty then { found with paths := [[e]] } else found

/-! ## Places and projects -/

/-- The path along first parents, with at most `hops` of them; `seen` holds the entities below. -/
def climb (b : Backing σ) (s : ResolverSettings) (kind : HierarchyKind) :
    Nat → List String → Entity → Lookups σ (List Entity)
  | hops, seen, e => do
    match (parentNames s kind e).head?, hops with
    | none, _ | _, 0 => return [e]
    | some name, hops + 1 =>
      match ← resolve? b s name with
      | none => return [e]
      | some parent =>
        let seen := e.identifier :: seen
        if seen.contains parent.identifier then return [e]
        else return e :: (← climb b s kind hops seen parent)

/-! ## Chains of an entity -/

/-- The chains from an entity, none of them remembered. -/
def walkChains (b : Backing σ) (s : ResolverSettings) (kind : HierarchyKind) (e : Entity) :
    Lookups σ (List Chain) := do
  match kind with
  | .concept => return (← conceptWalk b s s.maxDepth [] e).paths.map (⟨kind, ·⟩)
  | .spatial | .project =>
    return [⟨kind, (← climb b s kind (s.maxDepth - 1) [] e).reverse⟩]

/-- The chains from the entity behind a name, or nothing when there is none. -/
def ancestorChains (b : Backing σ) (s : ResolverSettings) (name : String) (kind : HierarchyKind) :
    Lookups σ (Option (List Chain)) := do
  let some e ← resolve? b s name | return none
  match ← knownChains kind e.identifier with
  | some chains => return some chains
  | none =>
    let chains ← walkChains b s kind e
    rememberChains kind e.identifier chains
    return some chains

end FacetSearch
