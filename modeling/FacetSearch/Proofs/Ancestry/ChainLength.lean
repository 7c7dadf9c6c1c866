import FacetSearch.Proofs.Ancestry.ConceptChains
import FacetSearch.Proofs.Ancestry.Repeats

set_option autoImplicit false

/-! # The length of a chain

The limit on depth counts the hops of a walk. A chain from memory is put on top of them as it is, and
fits only if it was walked with at least as many hops below it. So the limit bounds the nodes of a
chain when no concept is met after different numbers of hops, be it in one walk or in several, or when
the paths above such a concept are short enough for the larger number (`size_le_of_ancestorChains`).
Where a concept is met sooner and then later with too much above it, a chain may be longer than the
limit allows (`ancestorChains_overlong`). -/

namespace FacetSearch

variable {σ : Type}

/-! ## Hops -/

section

variable (s : ResolverSettings) (gives : String → Option Entity → Prop) (asked : String → Prop)

/-- The way to an identifier from one that was asked for: upward, and to none twice. -/
structure Route (below : List String) (here : String) : Prop where
  upward : (below ++ [here]).IsChain (Above s gives)
  nodup : (below ++ [here]).Nodup
  start : ∀ first ∈ (below ++ [here]).head?, asked first

/-- A route with so many hops leads to the identifier. -/
def MetAfter (hops : Nat) (here : String) : Prop :=
  ∃ below, below.length = hops ∧ Route s gives asked below here

/-- No path upward from the identifier has more hops. -/
def LongestAbove (here : String) (hops : Nat) : Prop :=
  ∀ path : List String, (here :: path).IsChain (Above s gives) → path.length ≤ hops

/-- What is met after different numbers of hops has no path above it that is too long for the larger
    one. -/
def RoomAbove : Prop :=
  ∀ here hops hops', MetAfter s gives asked hops here → MetAfter s gives asked hops' here →
    hops < hops' → hops' ≤ s.maxDepth → LongestAbove s gives here (s.maxDepth - hops')

/-- The identifiers of a path upward from a start. -/
def Rises (start : String) (identifiers : List String) : Prop :=
  identifiers.head? = some start ∧ identifiers.IsChain (Above s gives)

/-- The paths of a walk rise, and with the hops below them they keep to the limit. -/
def Bounded (hops : Nat) (start : String) (found : Walk) : Prop :=
  ∀ path ∈ found.paths, Rises s gives start (path.map (·.identifier)) ∧
    hops + path.length ≤ s.maxDepth + 1

/-- A chain rises from its concept, and keeps to the limit with the hops of some way there. -/
def Fits (start : String) (chain : Chain) : Prop :=
  Rises s gives start chain.identifiers ∧
    ∃ hops, MetAfter s gives asked hops start ∧ hops + chain.size ≤ s.maxDepth + 1

/-- The remembered chains of concepts fit. -/
def Measured (m : ChainMemo) : Prop :=
  ∀ start chains, m.get? .concept start = some chains → ∀ chain ∈ chains, Fits s gives asked start chain

end

section Hops

variable {s : ResolverSettings} {gives : String → Option Entity → Prop} {asked : String → Prop}
  {below : List String} {here parent start : String} {hops : Nat} {found : Walk} {m : ChainMemo}

theorem route_nil (h : asked here) : Route s gives asked [] here where
  upward := .singleton _
  nodup := List.nodup_singleton _
  start := by simpa using h

theorem Route.climb (h : Route s gives asked below here) (hparent : Above s gives here parent)
    (hfresh : parent ∉ below ++ [here]) : Route s gives asked (below ++ [here]) parent where
  upward := by
    rw [List.append_assoc, List.singleton_append, List.isChain_append_cons_cons]
    exact ⟨h.upward, hparent, .singleton _⟩
  nodup := by
    rw [List.nodup_append]
    refine ⟨h.nodup, List.nodup_singleton _, fun t ht t' ht' => ?_⟩
    rw [List.mem_singleton.1 ht']
    exact fun hsame => hfresh (hsame ▸ ht)
  start := by
    intro first hfirst
    refine h.start first ?_
    rwa [List.head?_append_of_ne_nil _ (by simp)] at hfirst

/-- When each hop raises a rank by one, the number of hops follows from the rank. -/
theorem MetAfter.eq_rank (rank : String → Nat) (hstart : ∀ first, asked first → rank first = 0)
    (hrank : ∀ a c, Above s gives a c → rank c = rank a + 1)
    (h : MetAfter s gives asked hops here) : rank here = hops := by
  obtain ⟨below, rfl, hroute⟩ := h
  obtain ⟨hupward, -, hfirst⟩ := hroute
  induction below using List.reverseRecOn generalizing here with
  | nil => exact hstart here (hfirst here rfl)
  | append_singleton below last ih =>
      rw [List.append_assoc, List.singleton_append, List.isChain_append_cons_cons] at hupward
      rw [hrank last here hupward.2.1, List.length_append, List.length_singleton,
        ih hupward.1 fun first hhead => hfirst first ?_]
      rwa [List.head?_append_of_ne_nil _ (by simp)]

/-- A hierarchy in which all ways to a concept have the same number of hops has room enough. -/
theorem roomAbove_of_rank (rank : String → Nat) (hstart : ∀ first, asked first → rank first = 0)
    (hrank : ∀ a c, Above s gives a c → rank c = rank a + 1) : RoomAbove s gives asked := by
  intro here hops hops' hmet hmet' hlt
  have hrank := (hmet.eq_rank rank hstart hrank).symm.trans (hmet'.eq_rank rank hstart hrank)
  omega

theorem rises_singleton (start : String) : Rises s gives start [start] := ⟨rfl, .singleton _⟩

theorem Rises.cons {identifiers : List String} (h : Rises s gives parent identifiers)
    (hparent : Above s gives here parent) : Rises s gives here (here :: identifiers) := by
  obtain ⟨hhead, hchain⟩ := h
  obtain ⟨rest, rfl⟩ := List.head?_eq_some_iff.1 hhead
  exact ⟨rfl, .cons_cons hparent hchain⟩

theorem Fits.size_le {chain : Chain} (h : Fits s gives asked start chain) :
    chain.size ≤ s.maxDepth + 1 := by
  obtain ⟨-, hops, -, hfits⟩ := h
  omega

theorem measured_empty : Measured s gives asked {} := by
  intro start chains hchains
  exact absurd hchains (by simp)

theorem Measured.insert (h : Measured s gives asked m) {kind : HierarchyKind} {chains : List Chain}
    (hchains : kind = .concept → ∀ chain ∈ chains, Fits s gives asked start chain) :
    Measured s gives asked (m.insert kind start chains) := by
  intro start' chains' hget
  rw [ChainMemo.get?_insert] at hget
  split at hget
  · next hsame =>
    obtain ⟨rfl, rfl⟩ := hsame
    obtain rfl := Option.some.inj hget
    exact hchains rfl
  · exact h start' chains' hget

/-- Wherever a concept is met, its remembered chains keep to the limit. -/
theorem Measured.bounded (h : Measured s gives asked m) (hroom : RoomAbove s gives asked)
    (hmet : MetAfter s gives asked hops start) (hhops : hops ≤ s.maxDepth) {chains : List Chain}
    (hchains : m.get? .concept start = some chains) :
    Bounded s gives hops start { paths := chains.map (·.entities), complete := true } := by
  intro path hpath
  obtain ⟨chain, hchain, rfl⟩ := List.mem_map.1 hpath
  obtain ⟨hrises, hops', hmet', hfits⟩ := h start chains hchains chain hchain
  refine ⟨hrises, ?_⟩
  have hsize : chain.size = chain.entities.length := rfl
  rcases Nat.lt_or_ge hops' hops with hlt | hge
  · -- the concept was met sooner when the chain was walked, so the chain itself must be short
    obtain ⟨rest, hrest⟩ := List.head?_eq_some_iff.1 hrises.1
    have hshort := hroom start hops' hops hmet' hmet hlt hhops rest (hrest ▸ hrises.2)
    have hlength : chain.entities.length = rest.length + 1 := by
      rw [← List.length_map (·.identifier), ← Chain.identifiers, hrest, List.length_cons]
    omega
  · omega

/-- The paths of a walk are right to remember. -/
theorem Bounded.fits (h : Bounded s gives hops start found) (hmet : MetAfter s gives asked hops start) :
    ∀ chain ∈ found.paths.map (⟨.concept, ·⟩), Fits s gives asked start chain := by
  intro chain hchain
  obtain ⟨path, hpath, rfl⟩ := List.mem_map.1 hchain
  exact ⟨(h path hpath).1, hops, hmet, (h path hpath).2⟩

/-- The paths that one more parent adds are bounded too. -/
theorem Bounded.extend {e parent : Entity} {done above : Walk}
    (h : Bounded s gives hops e.identifier done)
    (habove : Bounded s gives (hops + 1) parent.identifier above)
    (hparent : Above s gives e.identifier parent.identifier) (room : Nat) :
    Bounded s gives hops e.identifier (done.extend e room above) := by
  intro path hpath
  rcases List.mem_append.1 hpath with hpath | hpath
  · exact h path hpath
  · obtain ⟨rest, hrest, rfl⟩ := List.mem_map.1 hpath
    obtain ⟨hrises, hfits⟩ := habove rest (List.mem_of_mem_take hrest)
    refine ⟨hrises.cons hparent, ?_⟩
    rw [List.length_cons]
    omega

/-- A walk without paths comes to the one that stays. -/
theorem Bounded.stay {e : Entity} (h : Bounded s gives hops e.identifier found)
    (hhops : hops ≤ s.maxDepth) :
    Bounded s gives hops e.identifier
      (if found.paths.isEmpty then { found with paths := [[e]] } else found) := by
  split
  · intro path hpath
    obtain rfl := List.mem_singleton.1 hpath
    exact ⟨rises_singleton _, Nat.succ_le_succ hhops⟩
  · exact h

end Hops

/-! ## Walks -/

section Walks

variable {b : Backing σ} {s : ResolverSettings} {used : String → Prop}
  {gives : String → Option Entity → Prop} {knows : Session σ → Prop} {fails : Prop}
  {asked : String → Prop} {raw : String} {e : Entity}

/-- The paths above a parent are bounded, from memory as from the walk. -/
theorem ensures_pathsAbove_bounded (h : Answering b s used gives knows fails)
    (hroom : RoomAbove s gives asked) {walk : Entity → Lookups σ Walk} {parent : Entity} {hops : Nat}
    (hmet : MetAfter s gives asked hops parent.identifier) (hhops : hops ≤ s.maxDepth)
    (hwalk : Ensures (Knowing knows (Measured s gives asked)) (walk parent)
      (fun found y => Knowing knows (Measured s gives asked) y ∧
        Bounded s gives hops parent.identifier found)
      (fun y => fails ∧ Knowing knows (Measured s gives asked) y)) :
    Ensures (Knowing knows (Measured s gives asked)) (pathsAbove walk parent)
      (fun above y => Knowing knows (Measured s gives asked) y ∧
        Bounded s gives hops parent.identifier above)
      (fun y => fails ∧ Knowing knows (Measured s gives asked) y) := by
  refine ensures_pathsAbove ?_ ?_
  · intro x chains hx hchains
    exact ⟨hx, hx.chains.bounded hroom hmet hhops hchains⟩
  · refine hwalk.mono (fun _ => And.left) ?_ fun _ => id
    rintro found y ⟨hy, hbounded⟩
    split
    · exact ⟨⟨h.learn hy.session, hy.chains.insert fun _ => hbounded.fits hmet⟩, hbounded⟩
    · exact ⟨hy, hbounded⟩

/-- **The paths of a walk are bounded**, and so is what it remembers. -/
theorem ensures_conceptWalk_bounded (h : Answering b s used gives knows fails)
    (hroom : RoomAbove s gives asked) {levels : Nat} {trail : List String}
    (hlevels : trail.length + levels = s.maxDepth) (he : gives raw (some e))
    (hroute : Route s gives asked trail e.identifier) :
    Ensures (Knowing knows (Measured s gives asked)) (conceptWalk b s levels trail e)
      (fun found y => Knowing knows (Measured s gives asked) y ∧
        Bounded s gives trail.length e.identifier found)
      (fun y => fails ∧ Knowing knows (Measured s gives asked) y) := by
  induction levels generalizing trail raw e with
  | zero =>
      refine ensures_pure fun x hx => ⟨hx, fun path hpath => ?_⟩
      obtain rfl := List.mem_singleton.1 hpath
      exact ⟨rises_singleton _, Nat.succ_le_succ hlevels.le⟩
  | succ levels ih =>
      unfold conceptWalk
      refine ensures_bind (Ensures.mono (h.ensures_pathsThrough (fun _ done m =>
          Measured s gives asked m ∧ Bounded s gives trail.length e.identifier done)
        (fun _ _ _ => And.left) he ?unknown ?cut ?above) ?begins (fun _ _ => id) fun _ => id)
        fun done => ensures_pure ?ends
      case begins => exact fun x hx => ⟨hx.session, hx.chains, by simp [Bounded]⟩
      case ends => exact fun x hx => ⟨⟨hx.session, hx.chains.1⟩, hx.chains.2.stay (by omega)⟩
      case unknown => exact fun _ _ _ _ hm _ => hm
      case cut => exact fun _ _ _ _ _ hm _ _ _ => hm
      case above =>
        intro _ name _ done parent hsplit hparent hoff
        have hstep : Above s gives e.identifier parent.identifier := by
          refine ⟨raw, e, name, parent, he, rfl, ?_, hparent, rfl⟩
          rw [hsplit]
          simp
        have hroute' := hroute.climb hstep hoff
        have hlength : (trail ++ [e.identifier]).length = trail.length + 1 := by simp
        have hwalk := ih (by omega) hparent hroute'
        rw [hlength] at hwalk
        refine ensures_of_each ?_
        rintro x ⟨hknows, hmeasured, hbounded⟩
        refine (ensures_pathsAbove_bounded h hroom ⟨_, hlength, hroute'⟩ (by omega) hwalk).mono ?_ ?_
          fun _ => id
        · rintro _ rfl
          exact ⟨hknows, hmeasured⟩
        · rintro above y ⟨hy, habove⟩
          exact ⟨hy.session, hy.chains, hbounded.extend habove hstep _⟩

/-- Chains of concepts that may be asked for are bounded when what is remembered is measured, and then
    what is remembered stays so. -/
theorem ensures_ancestorChains_bounded (h : Answering b s used gives knows fails)
    (hroom : RoomAbove s gives asked) (hraw : used (Text.trim raw)) (kind : HierarchyKind)
    (hasked : kind = .concept → ∀ e, gives raw (some e) → asked e.identifier) :
    Ensures (Knowing knows (Measured s gives asked)) (ancestorChains b s raw kind)
      (fun found y => Knowing knows (Measured s gives asked) y ∧
        (kind = .concept → ∀ chains, found = some chains → ∀ chain ∈ chains,
          chain.size ≤ s.maxDepth + 1))
      (fun y => fails ∧ Knowing knows (Measured s gives asked) y) := by
  refine (h.ensures_ancestorChains_right hraw (fun e chains => kind = .concept →
    ∀ chain ∈ chains, Fits s gives asked e.identifier chain) ?_ ?_ ?_).mono (fun _ => id) ?_ fun _ => id
  · rintro e chains m hm - hget rfl
    exact hm _ _ hget
  · exact fun e chains m hm _ hchains => Measured.insert hm hchains
  · intro e he
    cases kind with
    | concept =>
        have hroute : Route s gives asked [] e.identifier := route_nil (hasked rfl e he)
        refine ensures_bind (ensures_conceptWalk_bounded h hroom (Nat.zero_add _) he hroute)
          fun found => ensures_pure ?_
        exact fun x hx => ⟨hx.1, fun _ => hx.2.fits ⟨[], rfl, hroute⟩⟩
    | spatial | project =>
        exact ensures_bind (h.ensures_climb (Measured s gives asked) he) fun path =>
          ensures_pure fun x hx => ⟨hx.1, by simp⟩
  · rintro _ y ⟨hy, hfound⟩
    refine ⟨hy, ?_⟩
    rintro hkind chains rfl chain hchain
    obtain ⟨e, -, hfits⟩ := hfound
    exact (hfits hkind chain hchain).size_le

end Walks

/-! ## Chains over a catalogue -/

/-- Some of the calls ask for the chains of the concept with this identifier. -/
def ConceptAsked (gives : String → Option Entity → Prop) (calls : List ResolverCall)
    (identifier : String) : Prop :=
  ∃ name e, .chains name .concept ∈ calls ∧ gives name (some e) ∧ e.identifier = identifier

/-- **The limit on depth bounds every chain of a concept**, over any steady catalogue and after any
    calls, as long as no concept is met after different numbers of hops above those that were asked
    for, or has no path above it that is too long for the larger number. -/
theorem size_le_of_ancestorChains {b : Backing σ} {s : ResolverSettings} {used : String → Prop}
    {store : String → Except StoreError (Option Entity)} {sound : σ → Prop}
    (hsteady : Steady b s.cacheSpace used store sound)
    (hparents : ∀ name e, used name → store name = .ok (some e) →
      ∀ parent ∈ e.parents, used (Text.trim parent))
    {world : σ} (hworld : sound world) {calls : List ResolverCall}
    (hcalls : ∀ call ∈ calls, used (Text.trim call.name)) {name : String}
    (hname : used (Text.trim name))
    (hroom : RoomAbove s (s.MayAnswer used store)
      (ConceptAsked (s.MayAnswer used store) (.chains name .concept :: calls)))
    {chains : List Chain}
    (hchains : (((ancestorChains b s name .concept).run).run (afterCalls b s world calls)).1
      = .ok (some chains)) :
    ∀ chain ∈ chains, chain.size ≤ s.maxDepth + 1 := by
  have hanswering := hsteady.answering hparents
  have hafter := hanswering.afterCalls_of_ensures (Measured s (s.MayAnswer used store)
      (ConceptAsked (s.MayAnswer used store) (.chains name .concept :: calls)))
    ⟨hworld, Memo.recalls_empty⟩ measured_empty hcalls fun asked kind hused hmem =>
      (ensures_ancestorChains_bounded hanswering hroom hused kind fun hkind e he =>
        ⟨asked, e, List.mem_cons_of_mem _ (hkind ▸ hmem), he, rfl⟩).mono (fun _ => id)
          (fun _ _ => And.left) fun _ => id
  have hresult := (ensures_ancestorChains_bounded hanswering hroom hname .concept fun _ e he =>
    ⟨name, e, List.mem_cons_self .., he, rfl⟩).of_ok hafter hchains
  exact hresult.2 rfl chains rfl

/-- Two concepts with the same ancestors, each of which lies as far above one as above the other. -/
def herd : List Entity :=
  [.concept "sheep" ["mammal", "missing", "domestic"], .concept "goat" ["domestic-slug"],
    .concept "mammal" ["animal"], .concept "domestic" ["root", "animal"],
    .concept "animal" ["organism"], .concept "organism" []]

def herdDeployment : Deployment where
  catalogue := .ofList herd
  cache := .empty 8
  readsFail := true

/-- How far a concept lies above the two. -/
def herdRank (identifier : String) : Nat :=
  if identifier = "organism" then 3 else if identifier = "animal" then 2
  else if identifier = "mammal" ∨ identifier = "domestic" then 1 else 0

/-- The chains of the first concept, which the limit cuts below the topmost one. -/
def herdChains : List Chain :=
  [⟨.concept, [.concept "sheep" ["mammal", "missing", "domestic"], .concept "mammal" ["animal"],
      .concept "animal" ["organism"]]⟩,
    ⟨.concept, [.concept "sheep" ["mammal", "missing", "domestic"],
      .concept "domestic" ["root", "animal"], .concept "animal" ["organism"]]⟩]

theorem size_le_of_ancestorChains_herd :
    (((ancestorChains Deployment.backing { maxDepth := 2 } "sheep" .concept).run).run
        (afterCalls Deployment.backing { maxDepth := 2 } herdDeployment
          [.chains "goat-slug" .concept, .nearest "sheep" .concept .geo])).1 = .ok (some herdChains) ∧
      ∀ chain ∈ herdChains, chain.size ≤ 2 + 1 := by
  have hsteady := @Deployment.steady_of_readsFail "entity" (.ofList herd) false
  have hapart : Catalogue.NamesApart herd := by decide +kernel
  have hlow : ∀ name ∈ ["sheep", "goat-slug"],
      ∀ e ∈ ResolverSettings.answer { maxDepth := 2 } (Catalogue.ofList herd).find? name,
        herdRank e.identifier = 0 := by decide +kernel
  have hranks : ∀ e ∈ herd, ∀ name ∈ parentNames { maxDepth := 2 } .concept e,
      ∀ parent ∈ ResolverSettings.answer { maxDepth := 2 } (Catalogue.ofList herd).find? name,
        herdRank parent.identifier = herdRank e.identifier + 1 := by decide +kernel
  have hchains : (((ancestorChains Deployment.backing { maxDepth := 2 } "sheep" .concept).run).run
      (afterCalls Deployment.backing { maxDepth := 2 } herdDeployment
        [.chains "goat-slug" .concept, .nearest "sheep" .concept .geo])).1 = .ok (some herdChains) := by
    decide +kernel
  refine ⟨hchains, size_le_of_ancestorChains hsteady (fun _ _ _ _ _ _ => trivial) ⟨rfl, rfl, rfl⟩
    (fun _ _ => trivial) trivial (roomAbove_of_rank herdRank ?_ ?_) hchains⟩
  · rintro _ ⟨name, e, hasked, he, rfl⟩
    refine hlow name ?_ e (he.eq_answer_of_namesApart hapart).symm
    simpa using hasked
  · rintro _ _ ⟨raw, e, name, parent, he, rfl, hname, hparent, rfl⟩
    obtain ⟨asked, -, hasked⟩ := he.said.found
    have hmem := (Catalogue.mem_of_find?_ofList (Except.ok.inj hasked)).1
    exact hranks e hmem name hname parent (hparent.eq_answer_of_namesApart hapart).symm

/-- Concepts each of which has the next one for a parent. -/
def stairs : Deployment where
  catalogue := .ofList [.concept "a" ["b"], .concept "b" ["c"], .concept "c" ["d"], .concept "d" []]
  cache := .empty 8

/-- Two ways from one concept to another, of one hop and of three. -/
def detour : Deployment where
  catalogue := .ofList [.concept "a" ["c", "b"], .concept "b" ["x"], .concept "x" ["c"],
    .concept "c" ["d"], .concept "d" []]
  cache := .empty 8

/-- **A chain may be longer than the limit on depth allows**: when a concept of it was asked for
    before, and when two ways of different lengths lead to one, the shorter way first. -/
theorem ancestorChains_overlong :
    (∃ chains, (((ancestorChains Deployment.backing { maxDepth := 2 } "a" .concept).run).run
        (afterCalls Deployment.backing { maxDepth := 2 } stairs [.chains "b" .concept])).1
          = .ok (some chains) ∧
      chains.map Chain.identifiers = [["a", "b", "c", "d"]] ∧
      ¬ ∀ chain ∈ chains, chain.size ≤ 2 + 1) ∧
    ∃ chains, (((ancestorChains Deployment.backing { maxDepth := 3 } "a" .concept).run).run
        { world := detour }).1 = .ok (some chains) ∧
      chains.map Chain.identifiers = [["a", "c", "d"], ["a", "b", "x", "c", "d"]] ∧
      ¬ ∀ chain ∈ chains, chain.size ≤ 3 + 1 := by
  refine ⟨⟨[⟨.concept, [.concept "a" ["b"], .concept "b" ["c"], .concept "c" ["d"],
    .concept "d" []]⟩], ?_, ?_, ?_⟩, [⟨.concept, [.concept "a" ["c", "b"], .concept "c" ["d"],
    .concept "d" []]⟩, ⟨.concept, [.concept "a" ["c", "b"], .concept "b" ["x"], .concept "x" ["c"],
    .concept "c" ["d"], .concept "d" []]⟩], ?_, ?_, ?_⟩ <;> decide +kernel

end FacetSearch
