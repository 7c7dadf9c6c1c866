import FacetSearch.Proofs.Ancestry.Memory

set_option autoImplicit false

/-! # Resolvers without a cache

A catalogue that answers every lookup, with nothing in between, is what every resolver is measured by
(`Backing.uncached`). A resolver that has a cache, or a catalogue that falters, mirrors one over it:
from the same memory both come to the same result and the same memory, unless the catalogue fails
(`Mirrors`). It is so for resolving a name, and from there for every call, since a call has no other
dealings with what stands behind the resolver. -/

namespace FacetSearch

variable {σ : Type}

/-- A catalogue that answers every lookup, and a cache that never holds anything. -/
def Backing.uncached (find : String → Option Entity) : Backing Unit where
  find name _ := (.ok (find name), ())
  fetch _ _ := (none, ())
  keep _ _ _ := ()

theorem steady_uncached (find : String → Option Entity) (space : String) (used : String → Prop) :
    Steady (.uncached find) space used (fun name => .ok (find name)) fun _ => True where
  find _ _ := ⟨rfl, trivial⟩
  fetch _ _ := trivial
  fetched _ _ he := absurd he (by simp [Backing.uncached])
  keep _ _ _ := trivial

/-! ## Mirrored steps -/

section

variable {α β : Type} (used : String → Prop) (find : String → Option Entity) (sound broken : σ → Prop)

/-- What two runs came to: the same, of which `post` holds, or the first broke off. -/
inductive Alike (post : α → Prop) :
    Except StoreError α × Session σ → Except StoreError α × Session Unit → Prop where
  | same {a : α} {memo : Memo} {world : σ} (hmemo : memo.Recalls used fun name => .ok (find name))
      (hworld : sound world) (ha : post a) : Alike post (.ok a, ⟨memo, world⟩) (.ok a, ⟨memo, ()⟩)
  | broke {error : StoreError} {memo : Memo} {world : σ}
      {plain : Except StoreError α × Session Unit} (hworld : broken world) :
      Alike post (.error error, ⟨memo, world⟩) plain

/-- From the same memory, the steps come to what the plain ones come to. -/
structure Mirrors (l : Lookups σ α) (plain : Lookups Unit α) (post : α → Prop) : Prop where
  alike : ∀ memo world, memo.Recalls used (fun name => .ok (find name)) → sound world →
    Alike used find sound broken post ((l.run).run ⟨memo, world⟩) ((plain.run).run ⟨memo, ()⟩)

end

section Steps

variable {α β : Type} {used : String → Prop} {find : String → Option Entity} {sound broken : σ → Prop}

theorem mirrors_pure {post : α → Prop} {a : α} (h : post a) :
    Mirrors used find sound broken (pure a) (pure a) post :=
  ⟨fun _ _ hmemo hworld => .same hmemo hworld h⟩

theorem mirrors_bind {l : Lookups σ α} {plain : Lookups Unit α} {f : α → Lookups σ β}
    {plain' : α → Lookups Unit β} {middle : α → Prop} {post : β → Prop}
    (hl : Mirrors used find sound broken l plain middle)
    (hf : ∀ a, middle a → Mirrors used find sound broken (f a) (plain' a) post) :
    Mirrors used find sound broken (l >>= f) (plain >>= plain') post := by
  refine ⟨fun memo world hmemo hworld => ?_⟩
  have hrun := hl.alike memo world hmemo hworld
  rw [run_bind_lookups, run_bind_lookups]
  generalize (l.run).run ⟨memo, world⟩ = result at hrun ⊢
  generalize (plain.run).run ⟨memo, ()⟩ = result' at hrun ⊢
  cases hrun with
  | same hmemo hworld ha => exact (hf _ ha).alike _ _ hmemo hworld
  | broke hworld => exact .broke hworld

theorem mirrors_knownChains (kind : HierarchyKind) (identifier : String) :
    Mirrors used find sound broken (knownChains kind identifier) (knownChains kind identifier)
      fun _ => True :=
  ⟨fun _ _ hmemo hworld => .same hmemo hworld trivial⟩

theorem mirrors_rememberChains (kind : HierarchyKind) (identifier : String) (chains : List Chain) :
    Mirrors used find sound broken (rememberChains kind identifier chains)
      (rememberChains kind identifier chains) fun _ => True :=
  ⟨fun _ _ hmemo hworld => .same hmemo hworld trivial⟩

end Steps

/-! ## Mirrored calls -/

/-- The names of the entity's parents are in use. -/
def ParentsUsed (used : String → Prop) (e : Entity) : Prop :=
  ∀ parent ∈ e.parents, used (Text.trim parent)

theorem ParentsUsed.of_mem_parentNames {used : String → Prop} {e : Entity} (h : ParentsUsed used e)
    {s : ResolverSettings} {kind : HierarchyKind} {name : String} (hname : name ∈ parentNames s kind e) :
    used (Text.trim name) :=
  h name (mem_parents_of_mem_parentNames hname)

/-- Resolving the names in use is mirrored, and gives entities whose parents are in use. -/
structure Mirroring (b : Backing σ) (s : ResolverSettings) (used : String → Prop)
    (find : String → Option Entity) (sound broken : σ → Prop) : Prop where
  resolve : ∀ {raw}, used (Text.trim raw) →
    Mirrors used find sound broken (resolve? b s raw) (resolve? (.uncached find) s raw)
      fun found => ∀ e, found = some e → ParentsUsed used e

theorem Faltering.mirroring {b : Backing σ} {s : ResolverSettings} {used : String → Prop}
    {find : String → Option Entity} {sound broken : σ → Prop}
    (h : Faltering b s.cacheSpace used (fun name => .ok (find name)) sound broken)
    (hparents : ∀ name e, used name → find name = some e → ParentsUsed used e) :
    Mirroring b s used find sound broken := by
  constructor
  intro raw hraw
  refine ⟨fun memo world hmemo hworld => ?_⟩
  obtain ⟨hrecalls, hanswer⟩ := hmemo.look (s := s) hraw
  obtain ⟨_, -, hplain⟩ := (steady_uncached find s.cacheSpace used).resolve?_eq hraw
    (x := ⟨memo, ()⟩) trivial
  rcases h.resolve?_cases hraw (x := ⟨memo, world⟩) hworld with
    ⟨world', hworld', hrun⟩ | ⟨error, world', hworld', hrun⟩
  · rw [hrun, hplain]
    generalize memo.look s (fun name => .ok (find name)) raw = looked at hrecalls hanswer
    obtain ⟨_ | found, m⟩ := looked
    · exact absurd hanswer (by simp)
    · refine .same hrecalls hworld' fun e he => ?_
      obtain ⟨asked, hasked, hfound⟩ := (he ▸ hanswer).said.found
      exact hparents asked e hasked (Except.ok.inj hfound)
  · rw [hrun]
    exact .broke hworld'

namespace Mirroring

variable {b : Backing σ} {s : ResolverSettings} {used : String → Prop}
  {find : String → Option Entity} {sound broken : σ → Prop}

/-! ### Metadata -/

theorem searchParents (h : Mirroring b s used find sound broken) {kind : MetadataKind}
    {names : List String} (hnames : ∀ name ∈ names, used (Text.trim name)) {f : Frontier}
    (hf : ∀ e ∈ f.next, ParentsUsed used e) :
    Mirrors used find sound broken (searchParents b s kind names f)
      (searchParents (.uncached find) s kind names f)
      fun found => ∀ f', found = .inr f' → ∀ e ∈ f'.next, ParentsUsed used e := by
  induction names generalizing f with
  | nil =>
      refine mirrors_pure fun f' hf' => ?_
      obtain rfl := Sum.inr.inj hf'
      exact hf
  | cons name rest ih =>
      have hrest : ∀ name ∈ rest, used (Text.trim name) :=
        fun n hn => hnames n (List.mem_cons_of_mem _ hn)
      unfold FacetSearch.searchParents
      refine mirrors_bind (h.resolve (hnames name (List.mem_cons_self ..))) fun found hfound => ?_
      cases found with
      | none => exact ih hrest hf
      | some parent =>
          dsimp only
          split
          · exact ih hrest hf
          · cases parent.inherited? kind with
            | some hit => exact mirrors_pure fun f' hf' => absurd hf' (by simp)
            | none =>
                refine ih hrest fun e he => ?_
                rcases List.mem_append.1 he with he | he
                · exact hf e he
                · obtain rfl := List.mem_singleton.1 he
                  exact hfound e rfl

theorem searchLevels (h : Mirroring b s used find sound broken) {hierarchy : HierarchyKind}
    {kind : MetadataKind} {levels : Nat} {seen : List String} {frontier : List Entity}
    (hfrontier : ∀ e ∈ frontier, ParentsUsed used e) :
    Mirrors used find sound broken (searchLevels b s hierarchy kind levels seen frontier)
      (searchLevels (.uncached find) s hierarchy kind levels seen frontier) fun _ => True := by
  induction levels generalizing seen frontier with
  | zero => exact mirrors_pure trivial
  | succ levels ih =>
      have hnames : ∀ name ∈ frontier.flatMap (parentNames s hierarchy), used (Text.trim name) := by
        intro name hname
        obtain ⟨e, he, hname⟩ := List.mem_flatMap.1 hname
        exact (hfrontier e he).of_mem_parentNames hname
      unfold FacetSearch.searchLevels
      split
      · exact mirrors_pure trivial
      · refine mirrors_bind (h.searchParents hnames (by simp)) fun found hfound => ?_
        cases found with
        | inl hit => exact mirrors_pure trivial
        | inr f => exact ih (hfound f rfl)

theorem nearestMetadata (h : Mirroring b s used find sound broken) {raw : String}
    (hraw : used (Text.trim raw)) (hierarchy : HierarchyKind) (kind : MetadataKind) :
    Mirrors used find sound broken (nearestMetadata b s raw hierarchy kind)
      (nearestMetadata (.uncached find) s raw hierarchy kind) fun _ => True := by
  unfold FacetSearch.nearestMetadata
  refine mirrors_bind (h.resolve hraw) fun found hfound => ?_
  cases found with
  | none => exact mirrors_pure trivial
  | some e =>
      dsimp only
      cases e.inherited? kind with
      | some hit => exact mirrors_pure trivial
      | none =>
          refine mirrors_bind (mirrors_knownChains hierarchy e.identifier) fun chains _ => ?_
          cases chains with
          | some chains => exact mirrors_pure trivial
          | none =>
              refine mirrors_bind (h.searchLevels ?_) fun _ _ => mirrors_pure trivial
              intro e' he'
              obtain rfl := List.mem_singleton.1 he'
              exact hfound e' rfl

/-! ### Concepts -/

theorem pathsAbove {walk : Entity → Lookups σ Walk} {plain : Entity → Lookups Unit Walk}
    {parent : Entity}
    (hwalk : Mirrors used find sound broken (walk parent) (plain parent) fun _ => True) :
    Mirrors used find sound broken (pathsAbove walk parent) (pathsAbove plain parent)
      fun _ => True := by
  unfold FacetSearch.pathsAbove
  refine mirrors_bind (mirrors_knownChains .concept parent.identifier) fun chains _ => ?_
  cases chains with
  | some chains => exact mirrors_pure trivial
  | none =>
      refine mirrors_bind hwalk fun found _ => ?_
      by_cases hcomplete : found.complete = true
      · simp only [hcomplete, if_true]
        exact mirrors_bind (mirrors_rememberChains ..) fun _ _ => mirrors_pure trivial
      · simp only [hcomplete]
        exact mirrors_pure trivial

theorem pathsThrough (h : Mirroring b s used find sound broken) {e : Entity} {trail : List String}
    {walk : Entity → Lookups σ Walk} {plain : Entity → Lookups Unit Walk} {names : List String}
    {done : Walk} (hnames : ∀ name ∈ names, used (Text.trim name))
    (hwalk : ∀ parent, ParentsUsed used parent →
      Mirrors used find sound broken (walk parent) (plain parent) fun _ => True) :
    Mirrors used find sound broken (pathsThrough b s e trail walk names done)
      (pathsThrough (.uncached find) s e trail plain names done) fun _ => True := by
  induction names generalizing done with
  | nil => exact mirrors_pure trivial
  | cons name rest ih =>
      have hrest : ∀ name ∈ rest, used (Text.trim name) :=
        fun n hn => hnames n (List.mem_cons_of_mem _ hn)
      unfold FacetSearch.pathsThrough
      refine mirrors_bind (h.resolve (hnames name (List.mem_cons_self ..))) fun found hfound => ?_
      cases found with
      | none => exact ih hrest
      | some parent =>
          dsimp only
          split
          · exact ih hrest
          · refine mirrors_bind (pathsAbove (hwalk parent (hfound parent rfl))) fun above _ => ?_
            split
            · exact mirrors_pure trivial
            · exact ih hrest

theorem conceptWalk (h : Mirroring b s used find sound broken) {levels : Nat} {trail : List String}
    {e : Entity} (he : ParentsUsed used e) :
    Mirrors used find sound broken (conceptWalk b s levels trail e)
      (conceptWalk (.uncached find) s levels trail e) fun _ => True := by
  induction levels generalizing trail e with
  | zero => exact mirrors_pure trivial
  | succ levels ih =>
      unfold FacetSearch.conceptWalk
      refine mirrors_bind (h.pathsThrough (fun name => he.of_mem_parentNames) fun parent => ih)
        fun found _ => mirrors_pure trivial

/-! ### Places and projects -/

theorem climb (h : Mirroring b s used find sound broken) {kind : HierarchyKind} {hops : Nat}
    {seen : List String} {e : Entity} (he : ParentsUsed used e) :
    Mirrors used find sound broken (climb b s kind hops seen e)
      (climb (.uncached find) s kind hops seen e) fun _ => True := by
  induction hops generalizing seen e with
  | zero =>
      unfold FacetSearch.climb
      cases (parentNames s kind e).head? <;> exact mirrors_pure trivial
  | succ hops ih =>
      unfold FacetSearch.climb
      cases hname : (parentNames s kind e).head? with
      | none => exact mirrors_pure trivial
      | some name =>
          refine mirrors_bind (h.resolve (he.of_mem_parentNames (List.mem_of_mem_head? hname)))
            fun found hfound => ?_
          cases found with
          | none => exact mirrors_pure trivial
          | some parent =>
              dsimp only
              split
              · exact mirrors_pure trivial
              · exact mirrors_bind (ih (hfound parent rfl)) fun _ _ => mirrors_pure trivial

/-! ### Chains -/

theorem ancestorChains (h : Mirroring b s used find sound broken) {raw : String}
    (hraw : used (Text.trim raw)) (kind : HierarchyKind) :
    Mirrors used find sound broken (ancestorChains b s raw kind)
      (ancestorChains (.uncached find) s raw kind) fun _ => True := by
  unfold FacetSearch.ancestorChains
  refine mirrors_bind (h.resolve hraw) fun found hfound => ?_
  cases found with
  | none => exact mirrors_pure trivial
  | some e =>
      refine mirrors_bind (mirrors_knownChains kind e.identifier) fun chains _ => ?_
      cases chains with
      | some chains => exact mirrors_pure trivial
      | none =>
          have hwalk : Mirrors used find sound broken (walkChains b s kind e)
              (walkChains (.uncached find) s kind e) fun _ => True := by
            cases kind with
            | concept => exact mirrors_bind (h.conceptWalk (hfound e rfl)) fun _ _ => mirrors_pure trivial
            | spatial | project =>
                exact mirrors_bind (h.climb (hfound e rfl)) fun _ _ => mirrors_pure trivial
          refine mirrors_bind hwalk fun chains _ => ?_
          exact mirrors_bind (mirrors_rememberChains ..) fun _ _ => mirrors_pure trivial

/-! ### Calls -/

/-- **A call is mirrored**: it has the same reply and leaves the same memory as without a cache. -/
theorem call (h : Mirroring b s used find sound broken) {call : ResolverCall}
    (hcall : used (Text.trim call.name)) :
    Mirrors used find sound broken (call.run b s) (call.run (.uncached find) s) fun _ => True := by
  cases call with
  | resolve name => exact mirrors_bind (h.resolve hcall) fun _ _ => mirrors_pure trivial
  | chains name kind =>
      exact mirrors_bind (h.ancestorChains hcall kind) fun _ _ => mirrors_pure trivial
  | nearest name hierarchy kind =>
      exact mirrors_bind (h.nearestMetadata hcall hierarchy kind) fun _ _ => mirrors_pure trivial

end Mirroring

end FacetSearch
