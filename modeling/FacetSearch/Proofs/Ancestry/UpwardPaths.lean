import FacetSearch.Ancestry.Walk
import Mathlib

set_option autoImplicit false

/-! # Paths upward

What the chains of a concept are meant to be, told without walking. The parents of an entity stand at
positions in its list, and a position counts when its name is not the root's and has an answer. An
upward path takes such positions one after the other; it is maximal when no position counts at its end.

`waysUp` lists the maximal paths of an entity with the positions they take: each once, in the order of
the positions (`mem_waysUp`, `pairwise_waysUp`). It is right when its levels are as many as the hops of
the longest path, and then more levels change nothing (`waysUp_eq`). -/

namespace FacetSearch

/-! ## Parents -/

/-- The entity behind the parent name at a position, when it counts. -/
def parent? (s : ResolverSettings) (answer : String → Option Entity) (e : Entity)
    (position : Nat) : Option Entity :=
  e.parents[position]?.bind fun name => if s.isRoot name then none else answer name

/-- The second entity is a parent of the first. -/
def IsParent (s : ResolverSettings) (answer : String → Option Entity) (e parent : Entity) : Prop :=
  ∃ position, parent? s answer e position = some parent

/-! ## Upward paths -/

/-- A path from an entity, nearest first, with the positions of the parents it takes. -/
inductive UpwardPath (s : ResolverSettings) (answer : String → Option Entity) :
    Entity → List Nat → List Entity → Prop where
  | stay (e : Entity) : UpwardPath s answer e [] [e]
  | climb {e parent : Entity} {position : Nat} {route : List Nat} {path : List Entity}
      (hparent : parent? s answer e position = some parent)
      (hrest : UpwardPath s answer parent route path) :
      UpwardPath s answer e (position :: route) (e :: path)

/-- An upward path that cannot go on. -/
structure MaximalPath (s : ResolverSettings) (answer : String → Option Entity) (e : Entity)
    (route : List Nat) (path : List Entity) : Prop where
  upward : UpwardPath s answer e route path
  stops : ∀ top ∈ path.getLast?, ∀ position, parent? s answer top position = none

/-- Every upward path of the entity has at most so many hops. -/
def LongestPath (s : ResolverSettings) (answer : String → Option Entity) (e : Entity)
    (hops : Nat) : Prop :=
  ∀ route path, UpwardPath s answer e route path → route.length ≤ hops

section

variable {s : ResolverSettings} {answer : String → Option Entity} {e parent : Entity}

theorem lt_length_of_parent? {position : Nat} (h : parent? s answer e position = some parent) :
    position < e.parents.length := by
  obtain ⟨name, hname, -⟩ := Option.bind_eq_some_iff.1 h
  exact (List.getElem?_eq_some_iff.1 hname).1

theorem isParent_of_mem_parentNames {name : String} (hname : name ∈ parentNames s .concept e)
    (h : answer name = some parent) : IsParent s answer e parent := by
  obtain ⟨hmem, hroot⟩ := List.mem_filter.1 hname
  obtain ⟨position, hposition⟩ := List.mem_iff_getElem?.1 hmem
  rw [Bool.not_eq_true'] at hroot
  refine ⟨position, ?_⟩
  simp [parent?, hposition, hroot, h]

theorem maximalPath_nil_iff {path : List Entity} :
    MaximalPath s answer e [] path ↔ path = [e] ∧ ∀ position, parent? s answer e position = none := by
  constructor
  · rintro ⟨hupward, hstops⟩
    cases hupward with
    | stay => exact ⟨rfl, hstops e rfl⟩
  · rintro ⟨rfl, hnone⟩
    refine ⟨.stay e, fun top htop => ?_⟩
    obtain rfl := Option.some.inj htop
    exact hnone

theorem UpwardPath.ne_nil {route : List Nat} {path : List Entity}
    (h : UpwardPath s answer e route path) : path ≠ [] := by
  cases h <;> simp

theorem maximalPath_cons_iff {position : Nat} {route : List Nat} {path : List Entity} :
    MaximalPath s answer e (position :: route) path ↔
      ∃ parent rest, parent? s answer e position = some parent ∧
        MaximalPath s answer parent route rest ∧ path = e :: rest := by
  constructor
  · rintro ⟨hupward, hstops⟩
    cases hupward with
    | @climb _ parent _ _ rest hparent hrest =>
        obtain ⟨first, others, rfl⟩ := List.exists_cons_of_ne_nil hrest.ne_nil
        rw [List.getLast?_cons_cons] at hstops
        exact ⟨parent, _, hparent, ⟨hrest, hstops⟩, rfl⟩
  · rintro ⟨parent, rest, hparent, ⟨hrest, hstops⟩, rfl⟩
    refine ⟨.climb hparent hrest, ?_⟩
    obtain ⟨first, others, rfl⟩ := List.exists_cons_of_ne_nil hrest.ne_nil
    rwa [List.getLast?_cons_cons]

/-! ## The longest path -/

theorem LongestPath.mono {hops hops' : Nat} (h : LongestPath s answer e hops) (hle : hops ≤ hops') :
    LongestPath s answer e hops' := fun route path hpath => (h route path hpath).trans hle

theorem LongestPath.exists_succ {hops : Nat} (h : LongestPath s answer e hops)
    (hparent : IsParent s answer e parent) : ∃ fewer, hops = fewer + 1 := by
  obtain ⟨position, hposition⟩ := hparent
  exact Nat.exists_eq_add_of_le' (h _ _ (.climb hposition (.stay parent)))

theorem LongestPath.of_parent {hops : Nat} (h : LongestPath s answer e (hops + 1))
    (hparent : IsParent s answer e parent) : LongestPath s answer parent hops := by
  obtain ⟨position, hposition⟩ := hparent
  exact fun route path hpath => Nat.le_of_succ_le_succ (h _ _ (.climb hposition hpath))

theorem LongestPath.parent?_eq_none (h : LongestPath s answer e 0) (position : Nat) :
    parent? s answer e position = none := by
  cases hparent : parent? s answer e position with
  | none => rfl
  | some parent =>
      obtain ⟨fewer, habsurd⟩ := h.exists_succ ⟨position, hparent⟩
      exact absurd habsurd (by simp)

theorem LongestPath.above {hops : Nat} {a : Entity} (h : LongestPath s answer e hops)
    (ha : Relation.ReflTransGen (IsParent s answer) e a) : LongestPath s answer a hops := by
  induction ha with
  | refl => exact h
  | tail _ hparent ih =>
      obtain ⟨fewer, rfl⟩ := ih.exists_succ hparent
      exact (ih.of_parent hparent).mono (Nat.le_succ fewer)

theorem longestPath_zero_iff :
    LongestPath s answer e 0 ↔ ∀ position < e.parents.length, parent? s answer e position = none := by
  refine ⟨fun h position _ => h.parent?_eq_none position, fun h route path hpath => ?_⟩
  cases hpath with
  | stay => exact Nat.le_refl 0
  | climb hparent _ =>
      exact absurd ((h _ (lt_length_of_parent? hparent)).symm.trans hparent) (by simp)

theorem longestPath_succ_iff {hops : Nat} :
    LongestPath s answer e (hops + 1) ↔ ∀ position < e.parents.length,
      ∀ parent ∈ parent? s answer e position, LongestPath s answer parent hops := by
  constructor
  · exact fun h position _ parent hparent => h.of_parent ⟨position, hparent⟩
  · intro h route path hpath
    cases hpath with
    | stay => exact Nat.zero_le _
    | climb hparent hrest =>
        exact Nat.succ_le_succ (h _ (lt_length_of_parent? hparent) _ hparent _ _ hrest)

/-- Whether the hops suffice can be found out by walking them. -/
instance decidableLongestPath (s : ResolverSettings) (answer : String → Option Entity) :
    (hops : Nat) → (e : Entity) → Decidable (LongestPath s answer e hops)
  | 0, _ => decidable_of_iff' _ longestPath_zero_iff
  | hops + 1, _ =>
    have := decidableLongestPath s answer hops
    decidable_of_iff' _ longestPath_succ_iff

/-- When the upward paths have a longest one, none comes back to where it began. -/
theorem LongestPath.not_above {hops : Nat} (h : LongestPath s answer e hops)
    (hparent : IsParent s answer e parent) :
    ¬ Relation.ReflTransGen (IsParent s answer) parent e := by
  intro hback
  induction hops with
  | zero =>
      obtain ⟨position, hposition⟩ := hparent
      exact absurd ((h.parent?_eq_none position).symm.trans hposition) (by simp)
  | succ hops ih =>
      -- going once round the cycle leaves fewer hops for the same entity
      exact ih ((h.of_parent hparent).above hback)

/-! ## All ways up -/

/-- The ways from an entity through the parent at a position, when those of its parents are known. -/
def waysThrough (s : ResolverSettings) (answer : String → Option Entity)
    (above : Entity → List (List Nat × List Entity)) (e : Entity) (position : Nat) :
    List (List Nat × List Entity) :=
  match parent? s answer e position with
  | none => []
  | some parent => (above parent).map fun way => (position :: way.1, e :: way.2)

/-- The maximal paths of an entity with their positions, as far as the levels reach. -/
def waysUp (s : ResolverSettings) (answer : String → Option Entity) :
    Nat → Entity → List (List Nat × List Entity)
  | 0, e => [([], [e])]
  | levels + 1, e =>
    let found := (List.range e.parents.length).flatMap (waysThrough s answer (waysUp s answer levels) e)
    if found.isEmpty then [([], [e])] else found

theorem mem_waysThrough {above : Entity → List (List Nat × List Entity)} {position : Nat}
    {way : List Nat × List Entity} :
    way ∈ waysThrough s answer above e position ↔
      ∃ parent rest, parent? s answer e position = some parent ∧ rest ∈ above parent ∧
        way = (position :: rest.1, e :: rest.2) := by
  unfold waysThrough
  cases parent? s answer e position with
  | none => simp
  | some parent => simp [eq_comm]

theorem waysUp_ne_nil (s : ResolverSettings) (answer : String → Option Entity) (levels : Nat)
    (e : Entity) : waysUp s answer levels e ≠ [] := by
  cases levels with
  | zero => simp [waysUp]
  | succ levels =>
      rw [waysUp]
      split
      · simp
      · next h => simpa using h

/-- Without a parent that counts there is one way up, which stays. -/
theorem waysUp_of_top (h : ∀ position, parent? s answer e position = none) (levels : Nat) :
    waysUp s answer levels e = [([], [e])] := by
  cases levels <;> simp [waysUp, waysThrough, h]

/-- With one, each way up begins at such a position. -/
theorem waysUp_of_parent (h : IsParent s answer e parent) (levels : Nat) :
    waysUp s answer (levels + 1) e
      = (List.range e.parents.length).flatMap (waysThrough s answer (waysUp s answer levels) e) := by
  obtain ⟨position, hposition⟩ := h
  rw [waysUp]
  refine if_neg ?_
  rw [List.isEmpty_iff, List.flatMap_eq_nil_iff]
  intro hnil
  have hempty := hnil position (List.mem_range.2 (lt_length_of_parent? hposition))
  rw [waysThrough, hposition] at hempty
  exact waysUp_ne_nil s answer levels parent (List.map_eq_nil_iff.1 hempty)

theorem eq_none_or_isParent (s : ResolverSettings) (answer : String → Option Entity) (e : Entity) :
    (∀ position, parent? s answer e position = none) ∨ ∃ parent, IsParent s answer e parent := by
  by_cases h : ∃ position, (parent? s answer e position).isSome = true
  · obtain ⟨position, hposition⟩ := h
    obtain ⟨parent, hparent⟩ := Option.isSome_iff_exists.1 hposition
    exact .inr ⟨parent, position, hparent⟩
  · left
    intro position
    rw [← Option.not_isSome_iff_eq_none]
    exact fun hposition => h ⟨position, hposition⟩

/-- The way up from an entity without parents. -/
theorem mem_waysUp_of_top (h : ∀ position, parent? s answer e position = none) (levels : Nat)
    {route : List Nat} {path : List Entity} :
    (route, path) ∈ waysUp s answer levels e ↔ MaximalPath s answer e route path := by
  rw [waysUp_of_top h, List.mem_singleton, Prod.mk.injEq]
  cases route with
  | nil => rw [maximalPath_nil_iff]; simp [h]
  | cons position route => rw [maximalPath_cons_iff]; simp [h]

/-- **The ways up are the maximal paths.** -/
theorem mem_waysUp {levels : Nat} (h : LongestPath s answer e levels) {route : List Nat}
    {path : List Entity} :
    (route, path) ∈ waysUp s answer levels e ↔ MaximalPath s answer e route path := by
  induction levels generalizing e route path with
  | zero => exact mem_waysUp_of_top h.parent?_eq_none 0
  | succ levels ih =>
      rcases eq_none_or_isParent s answer e with hnone | ⟨parent, position, hposition⟩
      · exact mem_waysUp_of_top hnone _
      · have habove : ∀ {position parent}, parent? s answer e position = some parent →
            LongestPath s answer parent levels := fun hposition => h.of_parent ⟨_, hposition⟩
        rw [waysUp_of_parent ⟨position, hposition⟩, List.mem_flatMap]
        simp only [mem_waysThrough, Prod.mk.injEq]
        cases route with
        | nil =>
            -- neither side has a path that stays
            rw [maximalPath_nil_iff]
            constructor
            · rintro ⟨-, -, -, -, -, -, ⟨⟩, -⟩
            · rintro ⟨-, hnone⟩
              exact absurd ((hnone position).symm.trans hposition) (by simp)
        | cons position route =>
            rw [maximalPath_cons_iff]
            constructor
            · rintro ⟨position', -, parent, rest, hparent, hrest, hroute, rfl⟩
              obtain ⟨rfl, rfl⟩ := List.cons.inj hroute
              exact ⟨parent, rest.2, hparent, (ih (habove hparent)).1 hrest, rfl⟩
            · rintro ⟨parent, rest, hparent, hrest, rfl⟩
              exact ⟨position, List.mem_range.2 (lt_length_of_parent? hparent), parent,
                (route, rest), hparent, (ih (habove hparent)).2 hrest, rfl, rfl⟩

/-- **The ways up are listed in the order of their positions**, each once. -/
theorem pairwise_waysUp (s : ResolverSettings) (answer : String → Option Entity) (levels : Nat)
    (e : Entity) : (waysUp s answer levels e).Pairwise fun way way' => way.1 < way'.1 := by
  induction levels generalizing e with
  | zero => simp [waysUp]
  | succ levels ih =>
      rw [waysUp]
      split
      · simp
      · rw [List.pairwise_flatMap]
        constructor
        · intro position _
          unfold waysThrough
          split
          · exact .nil
          · next parent _ =>
            rw [List.pairwise_map]
            exact (ih parent).imp fun h => List.Lex.cons h
        · refine List.pairwise_lt_range.imp ?_
          intro position position' hlt way hway way' hway'
          obtain ⟨-, rest, -, -, rfl⟩ := mem_waysThrough.1 hway
          obtain ⟨-, rest', -, -, rfl⟩ := mem_waysThrough.1 hway'
          exact List.Lex.rel hlt

/-- More levels than the longest path has hops change nothing. -/
theorem waysUp_eq {levels levels' : Nat} (h : LongestPath s answer e levels)
    (h' : LongestPath s answer e levels') :
    waysUp s answer levels e = waysUp s answer levels' e := by
  induction levels generalizing e levels' with
  | zero => rw [waysUp_of_top h.parent?_eq_none, waysUp_of_top h.parent?_eq_none]
  | succ levels ih =>
      cases levels' with
      | zero => rw [waysUp_of_top h'.parent?_eq_none, waysUp_of_top h'.parent?_eq_none]
      | succ levels' =>
          have hsame : waysThrough s answer (waysUp s answer levels) e
              = waysThrough s answer (waysUp s answer levels') e := by
            funext position
            unfold waysThrough
            split
            · rfl
            · next parent hposition =>
              rw [ih (h.of_parent ⟨position, hposition⟩) (h'.of_parent ⟨position, hposition⟩)]
          rw [waysUp, waysUp, hsame]

/-- The ways up are as many as the routes of maximal paths. -/
theorem encard_routes {levels : Nat} (h : LongestPath s answer e levels) :
    {route | ∃ path, MaximalPath s answer e route path}.encard = (waysUp s answer levels e).length := by
  have hnodup : ((waysUp s answer levels e).map (·.1)).Nodup := by
    refine (List.pairwise_map.2 (pairwise_waysUp s answer levels e)).imp ?_
    intro route route' hlt heq
    exact absurd (heq ▸ hlt) (List.lt_irrefl _)
  have hset : {route | ∃ path, MaximalPath s answer e route path}
      = ((waysUp s answer levels e).map (·.1)).toFinset := by
    ext route
    simp only [Set.mem_ofPred_eq, List.coe_toFinset, List.mem_map, Prod.exists,
      exists_and_right, exists_eq_right]
    exact exists_congr fun path => (mem_waysUp h).symm
  rw [hset, Set.encard_coe_eq_coe_finsetCard, List.toFinset_card_of_nodup hnodup, List.length_map]

end

end FacetSearch
