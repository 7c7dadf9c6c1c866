import FacetSearch.Proofs.Ancestry.NearestAncestor
import FacetSearch.Proofs.Ancestry.ShownLevels

set_option autoImplicit false

/-! # Metadata from listed chains

After the chains of an entity were listed, its metadata is read from them and not searched for. Both give
the same, unless a limit kept the nearest metadata out of the chains (`nearestMetadata_of_listed`). Cycles
and the limit on the depth of concepts have no such effect. What remains is the limit on chains, and the
limit on the depth of places and projects, which counts the nodes of a chain and so is one hop short of
the search (`nearestMetadata_listed_differs`). -/

namespace FacetSearch

variable {σ : Type}

/-! ## Chains of an entity -/

/-- A limit may have cut the chains so many hops up: the one on chains when as many were listed, and the
    one on the depth of places and projects when it is as many hops. -/
def CutShort (s : ResolverSettings) (hierarchy : HierarchyKind) (chains : List Chain) (hops : Nat) :
    Prop :=
  match hierarchy with
  | .concept => s.maxChains ≤ chains.length
  | .spatial | .project => hops = s.maxDepth

/-- The nearest metadata of an entity is so many hops up, within the limit on depth, but none of the
    chains has any there, and a limit may have cut them. -/
structure Missed (s : ResolverSettings) (answer : String → Option Entity) (hierarchy : HierarchyKind)
    (kind : MetadataKind) (n : Entity) (chains : List Chain) (hops : Nat) (hit : Inherited) : Prop where
  nearest : ∃ route, route.length = hops ∧ NearestRoute s answer hierarchy kind n route hit
  reach : hops ≤ s.maxDepth
  unlisted : ∀ chain ∈ chains, ∀ e ∈ chain.nearestFirst[hops]?, e.inherited? kind = none
  cut : CutShort s hierarchy chains hops

/-- Neither the entity nor anything within the limit on depth above it has metadata. -/
def Silent (s : ResolverSettings) (answer : String → Option Entity) (hierarchy : HierarchyKind)
    (kind : MetadataKind) (n : Entity) : Prop :=
  ∀ level ≤ s.maxDepth, hitAfter s answer hierarchy kind level n = none

/-- Up to the nearest metadata, the chains of an entity have on each level what is above the entity,
    unless a limit cut them; and they have none when there is none within the limit on depth. -/
structure ChainsTell (s : ResolverSettings) (answer : String → Option Entity) (hierarchy : HierarchyKind)
    (kind : MetadataKind) (n : Entity) (chains : List Chain) : Prop where
  shows : ∀ level ≤ s.maxDepth, (∀ fewer < level, hitAfter s answer hierarchy kind fewer n = none) →
    hitAlong kind (chains.map (·.nearestFirst)) level = hitAfter s answer hierarchy kind level n ∨
      (hitAlong kind (chains.map (·.nearestFirst)) level = none ∧ CutShort s hierarchy chains level)
  bare : Silent s answer hierarchy kind n → Bare kind (chains.map (·.nearestFirst))

section

variable {s : ResolverSettings} {answer : String → Option Entity} {hierarchy : HierarchyKind}
  {kind : MetadataKind} {n : Entity} {chains : List Chain} {hit : Inherited} {hops : Nat}

theorem nearestInChains_of_bare (h : Bare kind (chains.map (·.nearestFirst))) :
    nearestInChains kind chains = none := by
  refine List.findSome?_eq_none_iff.2 fun level _ => List.findSome?_eq_none_iff.2 fun path hpath => ?_
  cases ha : path[level]? with
  | none => rfl
  | some a => exact h path hpath a (List.mem_of_getElem? ha)

/-- The first level of the chains that has metadata counts, if it is not that of the entity itself. -/
theorem nearestInChains_of_first (hpos : 0 < hops)
    (hhit : hitAlong kind (chains.map (·.nearestFirst)) hops = some hit)
    (hfirst : ∀ fewer < hops, hitAlong kind (chains.map (·.nearestFirst)) fewer = none) :
    nearestInChains kind chains = some hit := by
  obtain ⟨longest, hlongest⟩ : ∃ longest, ∀ path ∈ chains.map (·.nearestFirst), path.length ≤ longest :=
    ⟨(chains.map (·.nearestFirst)).foldl (fun n path => max n path.length) 0,
      (foldl_max_le_iff.1 (Nat.le_refl _)).2⟩
  have hbound : ∀ path ∈ chains.map (·.nearestFirst), path.length ≤ (longest + hops) + 1 :=
    fun path hpath => (hlongest path hpath).trans (by omega)
  obtain ⟨fewer, rfl⟩ := Nat.exists_eq_add_of_lt hpos
  rw [Nat.zero_add] at hhit hfirst
  rw [nearestInChains_eq hbound]
  cases hfound : (List.range (longest + (0 + fewer + 1))).findSome? fun k =>
      hitAlong kind (chains.map (·.nearestFirst)) (k + 1) with
  | none =>
      have hnone := List.findSome?_eq_none_iff.1 hfound fewer (List.mem_range.2 (by omega))
      exact absurd (hnone.symm.trans hhit) (by simp)
  | some hit' =>
      obtain ⟨k, -, hk, hbefore⟩ := exists_first_of_findSome?_range hfound
      rcases lt_trichotomy k fewer with hlt | rfl | hgt
      · exact absurd (hk.symm.trans (hfirst (k + 1) (Nat.succ_lt_succ hlt))) (by simp)
      · exact hk.symm.trans hhit
      · exact absurd ((hbefore fewer hgt).symm.trans hhit) (by simp)

/-- **What is read from the chains is the nearest metadata above the entity**, or the chains miss it. -/
theorem ChainsTell.nearestInChains_eq (h : ChainsTell s answer hierarchy kind n chains)
    (hown : n.inherited? kind = none) :
    nearestInChains kind chains = nearestAbove s answer hierarchy kind n ∨
      ∃ hops hit, nearestAbove s answer hierarchy kind n = some hit ∧
        Missed s answer hierarchy kind n chains hops hit := by
  have hor : (n.inherited? kind).or (nearestAbove s answer hierarchy kind n)
      = nearestAbove s answer hierarchy kind n := by rw [hown, Option.none_or]
  cases hnearest : nearestAbove s answer hierarchy kind n with
  | none =>
      refine .inl (nearestInChains_of_bare (h.bare fun level hle => ?_))
      have hnone := inherited?_or_nearestAbove_eq_none_iff.1 (hor.trans hnearest)
      exact hitAfter_eq_none_iff.2 fun route top htop hlength => hnone route top htop (hlength ▸ hle)
  | some hit =>
      obtain ⟨hops, hreach, hhit, hbefore⟩ := exists_level_of_nearest (hor.trans hnearest)
      have hpos : 0 < hops := by
        refine Nat.pos_of_ne_zero fun hzero => ?_
        rw [hzero, hitAfter, hown] at hhit
        exact absurd hhit (by simp)
      have hfirst : ∀ fewer < hops, hitAlong kind (chains.map (·.nearestFirst)) fewer = none := by
        intro fewer hlt
        rcases h.shows fewer (hlt.le.trans hreach) fun fewest hlt' => hbefore fewest (hlt'.trans hlt)
          with hsame | hcut
        · exact hsame.trans (hbefore fewer hlt)
        · exact hcut.1
      rcases h.shows hops hreach hbefore with hsame | ⟨hnone, hcut⟩
      · exact .inl (nearestInChains_of_first hpos (hsame.trans hhit) hfirst)
      · refine .inr ⟨hops, hit, rfl, exists_nearestRoute_of_hitAfter hhit hbefore, hreach, ?_, hcut⟩
        intro chain hchain e he
        have hpath := List.findSome?_eq_none_iff.1 hnone _ (List.mem_map_of_mem hchain)
        rwa [Option.mem_def.1 he, Option.bind_some] at hpath

/-- The paths of a concept as its chains. -/
theorem Tells.chainsTell {right : Nat → Prop} {paths : List (List Entity)}
    (h : Tells s answer kind (Silent s answer .concept kind n) right n paths)
    (hright : ∀ level ≤ s.maxDepth, (∀ fewer < level, hitAfter s answer .concept kind fewer n = none) →
      right level) :
    ChainsTell s answer .concept kind n (paths.map (⟨.concept, ·⟩)) := by
  have hpaths : (paths.map fun path => (⟨.concept, path⟩ : Chain)).map (·.nearestFirst) = paths := by
    rw [List.map_map]
    exact List.map_id _
  constructor
  · intro level hle hnothing
    rw [hpaths, CutShort, List.length_map]
    exact h.shows level (hright level hle hnothing)
  · rw [hpaths]
    exact h.bare

/-- The path of a place or a project as its chain. -/
theorem ClimbTells.chainsTell {path : List Entity} (hkind : hierarchy ≠ .concept)
    (h : ClimbTells s answer hierarchy kind (Silent s answer hierarchy kind n) (s.maxDepth - 1) [] n
      path) :
    ChainsTell s answer hierarchy kind n [⟨hierarchy, path.reverse⟩] := by
  have hdag : hierarchy.isDag = false := by
    cases hierarchy with
    | concept => exact absurd rfl hkind
    | spatial | project => rfl
  have hpath : [(⟨hierarchy, path.reverse⟩ : Chain)].map (·.nearestFirst) = [path] := by
    simp [Chain.nearestFirst, hdag]
  have hcut : CutShort s hierarchy [⟨hierarchy, path.reverse⟩] s.maxDepth := by
    cases hierarchy with
    | concept => exact absurd rfl hkind
    | spatial | project => rfl
  constructor
  · intro level hle hnothing
    rw [hpath, hitAlong, List.findSome?_singleton]
    rcases Nat.lt_or_ge (s.maxDepth - 1) level with hfar | hnear
    · -- the chain ends below
      obtain rfl : level = s.maxDepth := by omega
      have hlength := h.length
      rw [List.getElem?_eq_none (by omega), Option.bind_none]
      exact .inr ⟨rfl, hcut⟩
    · exact .inl (h.shows level ⟨hnear, hnothing, by simp⟩)
  · intro hquiet
    rw [hpath]
    simpa [Bare] using h.bare hquiet

end

section Resolver

variable {b : Backing σ} {s : ResolverSettings} {used : String → Prop}
  {gives : String → Option Entity → Prop} {knows : Session σ → Prop} {fails : Prop}
  {answer : String → Option Entity} {raw : String} {n : Entity}

/-- The chains of an entity were listed and are remembered, and they tell of its metadata. -/
def Listed (s : ResolverSettings) (answer : String → Option Entity) (hierarchy : HierarchyKind)
    (kind : MetadataKind) (knows : Session σ → Prop) (n : Entity) (found : Option (List Chain))
    (y : Session σ) : Prop :=
  ∃ chains, found = some chains ∧
    Knowing knows (fun m => m.get? hierarchy n.identifier = some chains) y ∧
    ChainsTell s answer hierarchy kind n chains

theorem Answering.listed_learn (h : Answering b s used gives knows fails) {known : ChainMemo → Prop}
    {hierarchy : HierarchyKind} {kind : MetadataKind} {chains : List Chain} {y : Session σ}
    (hy : Knowing knows known y) (htells : ChainsTell s answer hierarchy kind n chains) :
    Listed s answer hierarchy kind knows n (some chains) (y.learn hierarchy n.identifier chains) :=
  ⟨chains, rfl, ⟨h.learn hy.session, by simp [Session.learn, ChainMemo.get?_insert]⟩, htells⟩

/-- The chains of a concept tell of its metadata, when what is remembered of concepts does. -/
theorem ensures_ancestorChains_concept (h : Answering b s used gives knows fails)
    (hgives : ∀ raw found, gives raw found → found = answer raw) (hids : Identified answer)
    (hraw : used (Text.trim raw)) (hn : answer raw = some n) (kind : MetadataKind) :
    Ensures (Knowing knows (Telling s answer kind (Silent s answer .concept kind n)))
      (ancestorChains b s raw .concept) (Listed s answer .concept kind knows n)
      (fun y => fails ∧ Knowing knows (Telling s answer kind (Silent s answer .concept kind n)) y) := by
  refine h.ensures_ancestorChains hraw ?_ ?_ ?_
  · exact fun x hx hnone => absurd ((hgives _ _ hnone).trans hn) (by simp)
  · intro e chains x hx he hget
    obtain rfl := Option.some.inj ((hgives _ _ he).trans hn)
    obtain ⟨paths, rfl, htells⟩ := hx.chains _ _ _ hn hget
    exact ⟨_, rfl, ⟨hx.session, hget⟩, htells.chainsTell fun _ _ _ => trivial⟩
  · intro e he
    obtain rfl := Option.some.inj ((hgives _ _ he).trans hn)
    have hwalk : Ensures (Knowing knows (Telling s answer kind (Silent s answer .concept kind e)))
        (conceptWalk b s s.maxDepth [] e) _ _ :=
      ensures_conceptWalk_tells h hgives hids he fun hsilent => hsilent
    refine ensures_bind (hwalk.of_imp fun _ => And.left) fun found => ensures_pure fun x hx => ?_
    exact h.listed_learn hx.1
      (hx.2.chainsTell fun level hle hnothing => .inr ⟨hle, hnothing, by simp⟩)

/-- The first time that the chain of a place or a project is listed, it tells of its metadata. -/
theorem ensures_ancestorChains_line (h : Answering b s used gives knows fails)
    (hgives : ∀ raw found, gives raw found → found = answer raw) (hids : Identified answer)
    (hraw : used (Text.trim raw)) (hn : answer raw = some n) {hierarchy : HierarchyKind}
    (hkind : hierarchy ≠ .concept) (kind : MetadataKind) :
    Ensures (Knowing knows (Unlisted hierarchy n)) (ancestorChains b s raw hierarchy)
      (Listed s answer hierarchy kind knows n)
      (fun y => fails ∧ Knowing knows (Unlisted hierarchy n) y) := by
  refine h.ensures_ancestorChains hraw ?_ ?_ ?_
  · exact fun x hx hnone => absurd ((hgives _ _ hnone).trans hn) (by simp)
  · intro e chains x hx he hget
    obtain rfl := Option.some.inj ((hgives _ _ he).trans hn)
    exact absurd (hget.symm.trans hx.chains) (by simp)
  · intro e he
    obtain rfl := Option.some.inj ((hgives _ _ he).trans hn)
    have hclimb : Ensures (Knowing knows (Unlisted hierarchy e))
        (climb b s hierarchy (s.maxDepth - 1) [] e)
        (fun path y => Knowing knows (Unlisted hierarchy e) y ∧ ClimbTells s answer hierarchy kind
          (Silent s answer hierarchy kind e) (s.maxDepth - 1) [] e path) _ :=
      ensures_climb_tells h hgives hids _ hkind he fun hsilent level hle => hsilent level (by omega)
    have hwalk : walkChains b s hierarchy e = (do
        return [⟨hierarchy, (← climb b s hierarchy (s.maxDepth - 1) [] e).reverse⟩]) := by
      cases hierarchy with
      | concept => exact absurd rfl hkind
      | spatial | project => rfl
    rw [hwalk]
    refine ensures_bind (hclimb.of_imp fun _ => And.left) fun path => ensures_pure fun x hx => ?_
    exact h.listed_learn hx.1 (hx.2.chainsTell hkind)

/-- **Listing the chains of an entity with a new memory** leaves chains that tell of its metadata. -/
theorem ensures_ancestorChains_listed (h : Answering b s used gives knows fails)
    (hgives : ∀ raw found, gives raw found → found = answer raw) (hids : Identified answer)
    (hraw : used (Text.trim raw)) (hn : answer raw = some n) (hierarchy : HierarchyKind)
    (kind : MetadataKind) :
    Ensures (Knowing knows (· = {})) (ancestorChains b s raw hierarchy)
      (Listed s answer hierarchy kind knows n) (fun _ => fails) := by
  by_cases hkind : hierarchy = .concept
  · subst hkind
    refine (ensures_ancestorChains_concept h hgives hids hraw hn kind).mono ?_ (fun _ _ => id)
      fun _ => And.left
    exact fun x hx => ⟨hx.session, hx.chains ▸ telling_empty⟩
  · refine (ensures_ancestorChains_line h hgives hids hraw hn hkind kind).mono ?_ (fun _ _ => id)
      fun _ => And.left
    exact fun x hx => ⟨hx.session, by simp [Unlisted, hx.chains]⟩

/-- Metadata is read from chains that are remembered. -/
theorem ensures_nearestMetadata_listed (h : Answering b s used gives knows fails)
    (hgives : ∀ raw found, gives raw found → found = answer raw) (hraw : used (Text.trim raw))
    (hn : answer raw = some n) (hierarchy : HierarchyKind) (kind : MetadataKind) (chains : List Chain) :
    Ensures (Knowing knows fun m => m.get? hierarchy n.identifier = some chains)
      (nearestMetadata b s raw hierarchy kind)
      (fun found _ => found = some ((n.inherited? kind).or (nearestInChains kind chains)))
      (fun _ => fails) := by
  have hgiven : ∀ {found}, gives raw found → found = some n := fun hfound => (hgives _ _ hfound).trans hn
  refine (h.ensures_nearestMetadata_cases hraw ?_ ?_ ?_ ?_).mono (fun _ => id) (fun _ _ => id)
    fun _ => And.left
  · exact fun x hx hnone => absurd (hgiven hnone) (by simp)
  · intro e hit x hx he hinherited
    obtain rfl := Option.some.inj (hgiven he)
    rw [hinherited, Option.some_or]
  · intro e chains' x hx he hinherited hget
    obtain rfl := Option.some.inj (hgiven he)
    obtain rfl := Option.some.inj (hget.symm.trans hx.chains)
    rw [hinherited, Option.none_or]
  · intro e he _
    obtain rfl := Option.some.inj (hgiven he)
    exact ⟨fun x hx => absurd (hx.2.symm.trans hx.1.chains) (by simp)⟩

/-- Otherwise it is searched for. -/
theorem ensures_nearestMetadata_searched (h : Answering b s used gives knows fails)
    (hgives : ∀ raw found, gives raw found → found = answer raw) (hids : Identified answer)
    (hraw : used (Text.trim raw)) (hn : answer raw = some n) (hierarchy : HierarchyKind)
    (kind : MetadataKind) :
    Ensures (Knowing knows (Unlisted hierarchy n)) (nearestMetadata b s raw hierarchy kind)
      (fun found _ => found = some ((n.inherited? kind).or (nearestAbove s answer hierarchy kind n)))
      (fun _ => fails) := by
  have hgiven : ∀ {found}, gives raw found → found = some n := fun hfound => (hgives _ _ hfound).trans hn
  refine (h.ensures_nearestMetadata_cases hraw ?_ ?_ ?_ ?_).mono (fun _ => id) (fun _ _ => id)
    fun _ => And.left
  · exact fun x hx hnone => absurd (hgiven hnone) (by simp)
  · intro e hit x hx he hinherited
    obtain rfl := Option.some.inj (hgiven he)
    rw [hinherited, Option.some_or]
  · intro e chains x hx he _ hget
    obtain rfl := Option.some.inj (hgiven he)
    exact absurd (hget.symm.trans hx.chains) (by simp)
  · intro e he hinherited
    obtain rfl := Option.some.inj (hgiven he)
    refine (ensures_searchLevels_above h hgives hids (Unlisted hierarchy e) he hinherited).mono
      (fun _ => And.left) (fun found y hy => ?_) fun _ => id
    rw [hinherited, Option.none_or, hy.2]

end Resolver

/-! ## Over a catalogue -/

/-- **Metadata read from chains is what a search finds**, or the chains miss it because of a limit: over
    a steady catalogue whose entities share no names, with a new resolver for the search, and another new
    one that listed the chains of the entity first. -/
theorem nearestMetadata_of_listed {b : Backing σ} {s : ResolverSettings} {used : String → Prop}
    {sound : σ → Prop} {entities : List Entity} (hapart : Catalogue.NamesApart entities)
    (hsteady : Steady b s.cacheSpace used
      (fun name => .ok ((Catalogue.ofList entities).find? name)) sound)
    (hparents : ∀ e ∈ entities, ∀ parent ∈ e.parents, used (Text.trim parent))
    {world world' : σ} (hworld : sound world) (hworld' : sound world') {name : String}
    (hname : used (Text.trim name)) (hierarchy : HierarchyKind) (kind : MetadataKind) :
    ∃ searched listed,
      (((nearestMetadata b s name hierarchy kind).run).run { world }).1 = .ok searched ∧
      (((nearestMetadata b s name hierarchy kind).run).run
        (afterCalls b s world' [.chains name hierarchy])).1 = .ok listed ∧
      (searched = listed ∨ ∃ n chains hops hit,
        s.answer (Catalogue.ofList entities).find? name = some n ∧
        (((ancestorChains b s name hierarchy).run).run { world := world' }).1 = .ok (some chains) ∧
        searched = some (some hit) ∧
        Missed s (s.answer (Catalogue.ofList entities).find?) hierarchy kind n chains hops hit) := by
  have hanswering := hsteady.answering fun name e _ he =>
    hparents e (Catalogue.mem_of_find?_ofList (Except.ok.inj he)).1
  generalize hanswer : s.answer (Catalogue.ofList entities).find? = answer at *
  have hgives : ∀ raw found, s.MayAnswer used
      (fun name => .ok ((Catalogue.ofList entities).find? name)) raw found → found = answer raw :=
    fun _ _ h => hanswer ▸ h.eq_answer_of_namesApart hapart
  have hidentified : Identified answer := hanswer ▸ identified_answer hapart s
  cases hn : answer name with
  | none =>
      -- nothing is found of no entity, whatever is remembered
      have hafter : Knowing _ (Exact s answer) (afterCalls b s world' [.chains name hierarchy]) :=
        hanswering.afterCalls_of_ensures (Exact s answer) ⟨hworld', Memo.recalls_empty⟩ exact_empty
          (by simpa [ResolverCall.name] using hname) fun name kind hused _ =>
            (ensures_ancestorChains_exact hanswering hgives hidentified hused kind).mono (fun _ => id)
              (fun _ _ hy => hy.1) fun _ => id
      have hexact := ensures_nearestMetadata_exact hanswering hgives hidentified hname hierarchy kind
        fun e he => absurd (hn.symm.trans he) (by simp)
      obtain ⟨_, y, hsearch, -, rfl⟩ :=
        hexact.exists_ok (by simp) (x := { world }) ⟨⟨hworld, Memo.recalls_empty⟩, exact_empty⟩
      obtain ⟨_, z, hread, -, rfl⟩ := hexact.exists_ok (by simp) hafter
      exact ⟨_, _, by rw [hsearch], by rw [hread], .inl rfl⟩
  | some n =>
      obtain ⟨_, y, hsearch, rfl⟩ :=
        (ensures_nearestMetadata_searched hanswering hgives hidentified hname hn hierarchy
          kind).exists_ok (by simp) (x := { world })
            ⟨⟨hworld, Memo.recalls_empty⟩, by simp [Unlisted]⟩
      obtain ⟨_, x, hlist, chains, rfl, hx, htells⟩ :=
        (ensures_ancestorChains_listed hanswering hgives hidentified hname hn hierarchy
          kind).exists_ok (by simp) (x := { world := world' }) ⟨⟨hworld', Memo.recalls_empty⟩, rfl⟩
      obtain ⟨_, z, hread, rfl⟩ :=
        (ensures_nearestMetadata_listed hanswering hgives hname hn hierarchy kind chains).exists_ok
          (by simp) hx
      have hafter : afterCalls b s world' [.chains name hierarchy] = x := by
        rw [afterCalls, List.foldl_cons, List.foldl_nil, ResolverCall.after, hlist]
      refine ⟨_, _, by rw [hsearch], by rw [hafter, hread], ?_⟩
      cases hinherited : n.inherited? kind with
      | some own => exact .inl rfl
      | none =>
          rw [Option.none_or, Option.none_or]
          refine (htells.nearestInChains_eq hinherited).imp (fun hsame => by rw [hsame]) ?_
          rintro ⟨hops, hit, hnearest, hmissed⟩
          exact ⟨n, chains, hops, hit, rfl, by rw [hlist], by rw [hnearest], hmissed⟩

theorem nearestMetadata_of_listed_sherd :
    ∃ searched listed,
      (((nearestMetadata Deployment.backing {} "sherd" .concept .chrono).run).run
        { world := wareDeployment }).1 = .ok searched ∧
      (((nearestMetadata Deployment.backing {} "sherd" .concept .chrono).run).run
        (afterCalls Deployment.backing {} wareDeployment [.chains "sherd" .concept])).1 = .ok listed ∧
      (searched = listed ∨ ∃ n chains hops hit,
        ResolverSettings.answer {} (Catalogue.ofList wares).find? "sherd" = some n ∧
        (((ancestorChains Deployment.backing {} "sherd" .concept).run).run
          { world := wareDeployment }).1 = .ok (some chains) ∧
        searched = some (some hit) ∧
        Missed {} (ResolverSettings.answer {} (Catalogue.ofList wares).find?) .concept .chrono n chains
          hops hit) := by
  have hapart : Catalogue.NamesApart wares := by decide +kernel
  exact nearestMetadata_of_listed hapart
    (@Deployment.steady_of_readsFail "entity" (.ofList wares) false) (fun _ _ _ _ => trivial)
    ⟨rfl, rfl, rfl⟩ ⟨rfl, rfl, rfl⟩ trivial .concept .chrono

/-- Nothing is missed there, though the walk runs into a cycle. -/
example :
    (((nearestMetadata Deployment.backing {} "sherd" .concept .chrono).run).run
      (afterCalls Deployment.backing {} wareDeployment [.chains "sherd" .concept])).1.toOption.join.join.map
        Inherited.source = some "ware" := by decide +kernel

/-- A concept with two parents and a trench with one, of which the second and the last have years. -/
def finds : List Entity :=
  [.concept "figurine" ["clay", "votive"], .concept "clay" [],
    (Entity.concept "votive" []).dated (-700) (-300),
    (Entity.make "trench" "trench-slug" "Trench" .subject).addParent "site",
    (Entity.make "site" "site-slug" "Site" .subject).dated (-700) (-300)]

/-- A catalogue of finds. -/
def findDeployment : Deployment where
  catalogue := .ofList finds
  cache := .empty 8

/-- Limits that are as tight as can be. -/
def tightSettings : ResolverSettings := { maxDepth := 1, maxChains := 1 }

/-- **Chains may miss metadata that a search finds**: those of a concept when the limit on chains drops
    the path to it, and that of a place when it is as many hops away as the chain has nodes. -/
theorem nearestMetadata_listed_differs :
    Catalogue.NamesApart finds ∧
      (((nearestMetadata Deployment.backing tightSettings "figurine" .concept .chrono).run).run
        { world := findDeployment }).1.toOption
          = some (some (some ⟨"votive", .chrono ⟨-700, -300⟩⟩)) ∧
      (((nearestMetadata Deployment.backing tightSettings "figurine" .concept .chrono).run).run
        (afterCalls Deployment.backing tightSettings findDeployment
          [.chains "figurine" .concept])).1.toOption = some (some none) ∧
      (((nearestMetadata Deployment.backing tightSettings "trench" .spatial .chrono).run).run
        { world := findDeployment }).1.toOption
          = some (some (some ⟨"site", .chrono ⟨-700, -300⟩⟩)) ∧
      (((nearestMetadata Deployment.backing tightSettings "trench" .spatial .chrono).run).run
        (afterCalls Deployment.backing tightSettings findDeployment
          [.chains "trench" .spatial])).1.toOption = some (some none) := by
  decide +kernel

end FacetSearch
