import FacetSearch.Proofs.Ancestry.NearestMetadata

set_option autoImplicit false

/-! # The nearest ancestor with metadata

What a search for metadata finds, told by the paths from an entity to its ancestors (`Ascent`): the
metadata at the end of the first of the shortest paths that lead to any (`NearestRoute`), the entity
itself being at the end of the path without hops. It finds nothing only where no path within the limit
on depth leads to metadata, and it asks for no parent of an entity that is as many hops away as the hit
or more (`nearestMetadata_of_unlisted`). Hierarchies may have cycles, and paths may go round them. -/

namespace FacetSearch

variable {σ : Type}

/-! ## Paths to ancestors -/

/-- The way from an entity to an ancestor: at each hop the position of a parent among those that
    count. -/
inductive Ascent (s : ResolverSettings) (answer : String → Option Entity) (hierarchy : HierarchyKind) :
    Entity → List Nat → Entity → Prop where
  | stay (e : Entity) : Ascent s answer hierarchy e [] e
  | climb {e parent top : Entity} {position : Nat} {route : List Nat}
      (hparent : (parentNames s hierarchy e)[position]?.bind answer = some parent)
      (hrest : Ascent s answer hierarchy parent route top) :
      Ascent s answer hierarchy e (position :: route) top

/-- The route leads to metadata, and no other one does with fewer hops, or with as many but before it in
    the order of the parents. -/
structure NearestRoute (s : ResolverSettings) (answer : String → Option Entity)
    (hierarchy : HierarchyKind) (kind : MetadataKind) (e : Entity) (route : List Nat)
    (hit : Inherited) : Prop where
  leads : ∃ top, Ascent s answer hierarchy e route top ∧ top.inherited? kind = some hit
  first : ∀ route' top, Ascent s answer hierarchy e route' top → (top.inherited? kind).isSome →
    route.length < route'.length ∨ (route.length = route'.length ∧ route ≤ route')

/-- A name of a parent of an entity that fewer hops lead to. -/
def ParentWithin (s : ResolverSettings) (answer : String → Option Entity) (hierarchy : HierarchyKind)
    (e : Entity) (hops : Nat) (name : String) : Prop :=
  ∃ route below parent, Ascent s answer hierarchy e route below ∧ route.length < hops ∧
    parent ∈ parentNames s hierarchy below ∧ name = Text.trim parent

section

variable {s : ResolverSettings} {answer : String → Option Entity} {hierarchy : HierarchyKind}
  {kind : MetadataKind} {e top parent : Entity} {route : List Nat} {position hops : Nat}

theorem ascent_nil_iff : Ascent s answer hierarchy e [] top ↔ top = e := by
  constructor
  · rintro ⟨⟩
    rfl
  · rintro rfl
    exact .stay top

theorem ascent_cons_iff : Ascent s answer hierarchy e (position :: route) top ↔
    ∃ parent, (parentNames s hierarchy e)[position]?.bind answer = some parent ∧
      Ascent s answer hierarchy parent route top := by
  constructor
  · rintro (_ | ⟨hparent, hrest⟩)
    exact ⟨_, hparent, hrest⟩
  · rintro ⟨parent, hparent, hrest⟩
    exact .climb hparent hrest

/-- The last hop of a route goes to a parent of where the others lead. -/
theorem ascent_concat_iff : Ascent s answer hierarchy e (route ++ [position]) top ↔
    ∃ below, Ascent s answer hierarchy e route below ∧
      (parentNames s hierarchy below)[position]?.bind answer = some top := by
  induction route generalizing e with
  | nil => simp [ascent_cons_iff, ascent_nil_iff, eq_comm]
  | cons first route ih =>
      simp only [List.cons_append, ascent_cons_iff, ih]
      constructor
      · rintro ⟨parent, hparent, below, hbelow, htop⟩
        exact ⟨below, ⟨parent, hparent, hbelow⟩, htop⟩
      · rintro ⟨below, ⟨parent, hparent, hbelow⟩, htop⟩
        exact ⟨parent, hparent, below, hbelow, htop⟩

theorem exists_mem_of_getElem?_bind (h : (parentNames s hierarchy e)[position]?.bind answer = some parent) :
    ∃ name ∈ parentNames s hierarchy e, answer name = some parent := by
  obtain ⟨name, hname, hanswer⟩ := Option.bind_eq_some_iff.1 h
  exact ⟨name, List.mem_of_getElem? hname, hanswer⟩

theorem exists_position_of_mem {name : String} (hname : name ∈ parentNames s hierarchy e)
    (h : answer name = some parent) :
    ∃ position : Nat, (parentNames s hierarchy e)[position]?.bind answer = some parent := by
  obtain ⟨position, hposition⟩ := List.mem_iff_getElem?.1 hname
  exact ⟨position, by rw [hposition, Option.bind_some, h]⟩

theorem Ascent.answered {raw : String} (h : Ascent s answer hierarchy e route top)
    (he : answer raw = some e) : ∃ raw, answer raw = some top := by
  induction h generalizing raw with
  | stay => exact ⟨raw, he⟩
  | climb hparent _ ih =>
      obtain ⟨name, -, hname⟩ := exists_mem_of_getElem?_bind hparent
      exact ih hname

theorem ParentWithin.mono {name : String} {hops' : Nat} (h : ParentWithin s answer hierarchy e hops name)
    (hle : hops ≤ hops') : ParentWithin s answer hierarchy e hops' name := by
  obtain ⟨route, below, parent, hbelow, hlt, hname⟩ := h
  exact ⟨route, below, parent, hbelow, hlt.trans_le hle, hname⟩

/-! ## Levels and routes -/

theorem exists_first_of_findSome?_range {α : Type} {f : Nat → Option α} {n : Nat} {a : α}
    (h : (List.range n).findSome? f = some a) : ∃ k < n, f k = some a ∧ ∀ j < k, f j = none := by
  induction n with
  | zero => exact absurd h (by simp)
  | succ n ih =>
      rw [List.range_succ, List.findSome?_append] at h
      cases hbefore : (List.range n).findSome? f with
      | some a' =>
          rw [hbefore, Option.some_or] at h
          obtain ⟨k, hk, hfound⟩ := ih (hbefore.trans h)
          exact ⟨k, Nat.lt_succ_of_lt hk, hfound⟩
      | none =>
          rw [hbefore, Option.none_or, List.findSome?_singleton] at h
          exact ⟨n, Nat.lt_succ_self n, h, fun j hj =>
            List.findSome?_eq_none_iff.1 hbefore j (List.mem_range.2 hj)⟩

/-- **A level has nothing when no route of its length leads to metadata.** -/
theorem hitAfter_eq_none_iff : hitAfter s answer hierarchy kind hops e = none ↔
    ∀ route top, Ascent s answer hierarchy e route top → route.length = hops →
      top.inherited? kind = none := by
  induction hops generalizing e with
  | zero =>
      simp only [hitAfter, List.length_eq_zero_iff]
      constructor
      · rintro hnone _ top htop rfl
        rwa [ascent_nil_iff.1 htop]
      · exact fun h => h [] e (.stay e) rfl
  | succ hops ih =>
      rw [hitAfter, List.findSome?_eq_none_iff]
      constructor
      · rintro hnone _ top (_ | ⟨hparent, hrest⟩) hlength
        · exact absurd hlength (by simp)
        · obtain ⟨name, hname, hanswer⟩ := exists_mem_of_getElem?_bind hparent
          have habove := hnone name hname
          rw [hanswer, Option.bind_some] at habove
          exact ih.1 habove _ top hrest (Nat.succ.inj hlength)
      · intro h name hname
        cases hanswer : answer name with
        | none => rfl
        | some parent =>
            obtain ⟨position, hposition⟩ := exists_position_of_mem hname hanswer
            exact ih.2 fun route top htop hlength =>
              h (position :: route) top (.climb hposition htop) (congrArg Nat.succ hlength)

/-- **What is found on a level is at the end of the first route of its length** that leads to any. -/
theorem exists_route_of_hitAfter {hit : Inherited}
    (h : hitAfter s answer hierarchy kind hops e = some hit) :
    ∃ route, route.length = hops ∧
      (∃ top, Ascent s answer hierarchy e route top ∧ top.inherited? kind = some hit) ∧
      ∀ route' top, Ascent s answer hierarchy e route' top → (top.inherited? kind).isSome →
        route'.length = hops → route ≤ route' := by
  induction hops generalizing e with
  | zero =>
      refine ⟨[], rfl, ⟨e, .stay e, h⟩, fun route' _ _ _ hlength => ?_⟩
      rw [List.length_eq_zero_iff.1 hlength]
  | succ hops ih =>
      obtain ⟨before, name, after, hsplit, hname, hbefore⟩ := List.findSome?_eq_some_iff.1 h
      obtain ⟨parent, hanswer, hparent⟩ := Option.bind_eq_some_iff.1 hname
      obtain ⟨route, hlength, ⟨top, htop, hhit⟩, hfirst⟩ := ih hparent
      have hposition : (parentNames s hierarchy e)[before.length]?.bind answer = some parent := by
        rw [hsplit, List.getElem?_append_right (Nat.le_refl _), Nat.sub_self, List.getElem?_cons_zero,
          Option.bind_some, hanswer]
      refine ⟨before.length :: route, congrArg Nat.succ hlength, ⟨top, .climb hposition htop, hhit⟩, ?_⟩
      rintro _ top' (_ | @⟨_, parent', _, position', route', hparent', hrest'⟩) hsome hlength'
      · exact absurd hlength' (by simp)
      replace hlength' : route'.length = hops := Nat.succ.inj hlength'
      rcases lt_trichotomy position' before.length with hlt | rfl | hgt
      · -- a parent before the one with the hit has nothing on the level
        obtain ⟨name', hname', hanswer'⟩ := Option.bind_eq_some_iff.1 hparent'
        rw [hsplit, List.getElem?_append_left hlt] at hname'
        have hnone := hbefore name' (List.mem_of_getElem? hname')
        rw [hanswer', Option.bind_some] at hnone
        rw [hitAfter_eq_none_iff.1 hnone route' top' hrest' hlength'] at hsome
        exact absurd hsome (by simp)
      · obtain rfl := Option.some.inj (hposition.symm.trans hparent')
        exact List.cons_le_cons _ (hfirst route' top' hrest' hsome hlength')
      · exact le_of_lt (List.Lex.rel hgt)

/-- The levels within the limit, the entity itself on the first. -/
theorem inherited?_or_nearestAbove :
    (e.inherited? kind).or (nearestAbove s answer hierarchy kind e)
      = (List.range (s.maxDepth + 1)).findSome? fun hops => hitAfter s answer hierarchy kind hops e :=
  (findSome?_range_succ (fun hops => hitAfter s answer hierarchy kind hops e) s.maxDepth).symm

/-- **What is found on the first level that has any is at the end of the nearest route.** -/
theorem exists_nearestRoute_of_hitAfter {hit : Inherited}
    (h : hitAfter s answer hierarchy kind hops e = some hit)
    (hbefore : ∀ fewer < hops, hitAfter s answer hierarchy kind fewer e = none) :
    ∃ route, route.length = hops ∧ NearestRoute s answer hierarchy kind e route hit := by
  obtain ⟨route, hlength, hleads, hfirst⟩ := exists_route_of_hitAfter h
  refine ⟨route, hlength, hleads, fun route' top htop hsome => ?_⟩
  rcases lt_trichotomy route.length route'.length with hmore | hsame | hfewer
  · exact .inl hmore
  · exact .inr ⟨hsame, hfirst route' top htop hsome (hsame.symm.trans hlength)⟩
  · have hnone := hitAfter_eq_none_iff.1 (hbefore route'.length (hlength ▸ hfewer)) route' top htop rfl
    rw [hnone] at hsome
    exact absurd hsome (by simp)

/-- The metadata of an entity, or else the nearest above it, is on the first level that has any. -/
theorem exists_level_of_nearest {hit : Inherited}
    (h : (e.inherited? kind).or (nearestAbove s answer hierarchy kind e) = some hit) :
    ∃ hops ≤ s.maxDepth, hitAfter s answer hierarchy kind hops e = some hit ∧
      ∀ fewer < hops, hitAfter s answer hierarchy kind fewer e = none := by
  rw [inherited?_or_nearestAbove] at h
  obtain ⟨hops, hlt, hfound⟩ := exists_first_of_findSome?_range h
  exact ⟨hops, Nat.le_of_lt_succ hlt, hfound⟩

/-- There is none when no route within the limit leads to any. -/
theorem inherited?_or_nearestAbove_eq_none_iff :
    (e.inherited? kind).or (nearestAbove s answer hierarchy kind e) = none ↔
      ∀ route top, Ascent s answer hierarchy e route top → route.length ≤ s.maxDepth →
        top.inherited? kind = none := by
  rw [inherited?_or_nearestAbove, List.findSome?_eq_none_iff]
  simp only [List.mem_range, Nat.lt_succ_iff, hitAfter_eq_none_iff]
  constructor
  · exact fun h route top htop hlength => h route.length hlength route top htop rfl
  · exact fun h hops hle route top htop hlength => h route top htop (hlength.le.trans hle)

end

/-! ## What is asked for -/

/-- The world of a backing keeps a list of the names that the catalogue was asked for. -/
structure Logs (b : Backing σ) (asked : σ → List String) : Prop where
  find : ∀ name world, asked (b.find name world).2 = name :: asked world
  fetch : ∀ key world, asked (b.fetch key world).2 = asked world
  keep : ∀ key text world, asked (b.keep key text world) = asked world

/-- Since the list was `old`, only some names were asked for. -/
def AskedSince (asked : σ → List String) (old : List String) (allowed : String → Prop)
    (x : Session σ) : Prop :=
  ∃ new, asked x.world = new ++ old ∧ ∀ name ∈ new, allowed name

section

variable {b : Backing σ} {s : ResolverSettings} {asked : σ → List String} {old : List String}
  {allowed allowed' : String → Prop}

theorem Deployment.logs : Logs Deployment.backing Deployment.asked where
  find _ _ := rfl
  fetch key d := by
    simp only [Deployment.backing, Deployment.fetch]
    split <;> rfl
  keep key text d := by
    simp only [Deployment.backing, Deployment.keep]
    split <;> rfl

theorem AskedSince.mono {x : Session σ} (h : AskedSince asked old allowed x)
    (hle : ∀ name, allowed name → allowed' name) : AskedSince asked old allowed' x := by
  obtain ⟨new, hnew, hall⟩ := h
  exact ⟨new, hnew, fun name hname => hle name (hall name hname)⟩

/-- Resolving a name asks for nothing but the name, and for it once. -/
theorem Logs.asked_resolve? (h : Logs b asked) (raw : String) (x : Session σ) :
    asked (((resolve? b s raw).run).run x).2.world = asked x.world ∨
      asked (((resolve? b s raw).run).run x).2.world = Text.trim raw :: asked x.world := by
  have hconsult : ∀ (key name : String) (y : Session σ),
      asked (((consult b key name).run).run y).2.world = name :: asked y.world := by
    intro key name y
    simp only [consult, run_bind_lookups, run_onWorld]
    have hfind := h.find name y.world
    rcases (b.find name y.world).1 with error | found
    · exact hfind
    · cases found with
      | none => exact hfind
      | some e =>
          simp only [run_bind_lookups, run_remember, run_onWorld, run_pure_lookups, h.keep, hfind]
  unfold resolve?
  by_cases hskip : ((Text.trim raw).isEmpty || s.isRoot (Text.trim raw)) = true
  · simp only [if_pos hskip, run_pure_lookups, true_or]
  · simp only [if_neg hskip, run_bind_lookups, run_get_lookups]
    cases x.memo.entities[Text.trim raw]? with
    | some answer => exact .inl rfl
    | none =>
        simp only [run_bind_lookups, run_onWorld]
        cases (b.fetch (Lru.key s.cacheSpace (Text.trim raw)) x.world).1.bind
            Entity.ofSnapshot? with
        | some e => simp only [run_bind_lookups, run_remember, run_pure_lookups, h.fetch, true_or]
        | none => simp only [hconsult, h.fetch, or_true]

theorem Logs.ensures_resolve? (h : Logs b asked) {raw : String} (hraw : allowed (Text.trim raw)) :
    Ensures (AskedSince asked old allowed) (resolve? b s raw)
      (fun _ => AskedSince asked old allowed) (AskedSince asked old allowed) := by
  refine ⟨fun x ⟨new, hnew, hall⟩ => ?_⟩
  have hafter : AskedSince asked old allowed (((resolve? b s raw).run).run x).2 := by
    rcases h.asked_resolve? (s := s) raw x with hsame | hmore
    · exact ⟨new, hsame.trans hnew, hall⟩
    · refine ⟨Text.trim raw :: new, by rw [hmore, hnew, List.cons_append], ?_⟩
      exact List.forall_mem_cons.2 ⟨hraw, hall⟩
  generalize ((resolve? b s raw).run).run x = result at hafter ⊢
  obtain ⟨_ | _, y⟩ := result
  · exact .error hafter
  · exact .ok hafter

/-- A search through names asks for no others. -/
theorem Logs.ensures_searchParents (h : Logs b asked) {kind : MetadataKind} {names : List String}
    (hnames : ∀ name ∈ names, allowed (Text.trim name)) (f : Frontier) :
    Ensures (AskedSince asked old allowed) (searchParents b s kind names f)
      (fun _ => AskedSince asked old allowed) (AskedSince asked old allowed) := by
  induction names generalizing f with
  | nil => exact ensures_pure fun x hx => hx
  | cons name rest ih =>
      have hrest := ih fun n hn => hnames n (List.mem_cons_of_mem _ hn)
      unfold searchParents
      refine ensures_bind (h.ensures_resolve? (hnames name (List.mem_cons_self ..))) fun found => ?_
      cases found with
      | none => exact hrest f
      | some parent =>
          dsimp only
          split
          · exact hrest f
          · cases parent.inherited? kind with
            | some hit => exact ensures_pure fun x hx => hx
            | none => exact hrest _

end

/-! ## The search -/

/-- No chains of the entity are remembered. -/
def Unlisted (hierarchy : HierarchyKind) (e : Entity) (m : ChainMemo) : Prop :=
  m.get? hierarchy e.identifier = none

section Resolver

variable {b : Backing σ} {s : ResolverSettings} {used : String → Prop}
  {gives : String → Option Entity → Prop} {knows : Session σ → Prop} {fails : Prop}
  {answer : String → Option Entity} {hierarchy : HierarchyKind} {kind : MetadataKind}
  {asked : σ → List String} {old : List String} {n : Entity}

/-- The frontier is as many hops above an entity as the search has gone, and all that is no farther away
    was seen. -/
structure Ascended (s : ResolverSettings) (answer : String → Option Entity) (hierarchy : HierarchyKind)
    (n : Entity) (hops : Nat) (seen : List String) (frontier : List Entity) : Prop where
  reached : ∀ e ∈ frontier, ∃ route, Ascent s answer hierarchy n route e ∧ route.length = hops
  covered : ∀ route top, Ascent s answer hierarchy n route top → route.length ≤ hops →
    top.identifier ∈ seen

theorem ascended_start (n : Entity) : Ascended s answer hierarchy n 0 [n.identifier] [n] where
  reached e he := by
    obtain rfl := List.mem_singleton.1 he
    exact ⟨[], .stay e, rfl⟩
  covered route top htop hlength := by
    obtain rfl := List.length_eq_zero_iff.1 (Nat.le_zero.1 hlength)
    simp [ascent_nil_iff.1 htop]

/-- The parents of the frontier are one hop farther away, and with them all that is was seen. -/
theorem Ascended.step {hops : Nat} {seen : List String} {frontier : List Entity}
    (h : Ascended s answer hierarchy n hops seen frontier)
    (hexplored : Explored s answer gives hierarchy kind seen frontier)
    (hgives : ∀ raw found, gives raw found → found = answer raw) {raw : String}
    (hn : answer raw = some n) {f : Frontier}
    (hscan : Scanned answer gives (frontier.flatMap (parentNames s hierarchy)) { seen, next := [] } f) :
    Ascended s answer hierarchy n (hops + 1) f.seen f.next where
  reached e he := by
    obtain ⟨name, hname, hgiven⟩ := (hscan.given he).resolve_left (by simp)
    obtain ⟨below, hbelow, hname⟩ := List.mem_flatMap.1 hname
    obtain ⟨route, hroute, hlength⟩ := h.reached below hbelow
    obtain ⟨position, hposition⟩ := exists_position_of_mem hname (hgives _ _ hgiven).symm
    exact ⟨route ++ [position], ascent_concat_iff.2 ⟨below, hroute, hposition⟩, by simp [hlength]⟩
  covered route top htop hlength := by
    rw [hscan.mem_seen_iff]
    rcases Nat.lt_or_ge hops route.length with hfar | hnear
    · -- the last hop of the route starts from an entity that was seen
      obtain rfl | ⟨route, position, rfl⟩ := List.eq_nil_or_concat' route
      · exact absurd hfar (by simp)
      obtain ⟨below, hbelow, hposition⟩ := ascent_concat_iff.1 htop
      rw [List.length_append, List.length_singleton] at hlength
      have hseen := h.covered route below hbelow (by omega)
      obtain ⟨raw', hraw'⟩ := hbelow.answered hn
      obtain ⟨name, hname, hanswer⟩ := exists_mem_of_getElem?_bind hposition
      rcases hexplored.closed raw' below hraw' hseen with hfrontier | hparents
      · exact .inr ⟨name, List.mem_flatMap.2 ⟨below, hfrontier, hname⟩, top, hanswer, rfl⟩
      · exact .inl (hparents name hname top hanswer)
    · exact .inl (h.covered route top htop hnear)

/-- **The search asks for parents of what has nothing nearer**: all it asks for are names of parents of
    entities within so many hops, and with fewer hops there is no metadata. -/
theorem ensures_searchLevels_asked (h : Answering b s used gives knows fails)
    (hgives : ∀ raw found, gives raw found → found = answer raw) (hids : Identified answer)
    (hlogs : Logs b asked) (known : ChainMemo → Prop) {raw : String} (hn : answer raw = some n)
    {hops levels : Nat} {seen : List String} {frontier : List Entity}
    (hexplored : Explored s answer gives hierarchy kind seen frontier)
    (hascended : Ascended s answer hierarchy n hops seen frontier) (base : String → Prop) :
    Ensures (fun x => Knowing knows known x ∧
        AskedSince asked old (fun name => base name ∨ ParentWithin s answer hierarchy n hops name) x)
      (searchLevels b s hierarchy kind levels seen frontier)
      (fun _ y => ∃ last ≤ hops + levels,
        AskedSince asked old (fun name => base name ∨ ParentWithin s answer hierarchy n last name) y ∧
        ∀ route top, Ascent s answer hierarchy n route top → route.length < last →
          top.inherited? kind = none)
      (fun _ => fails) := by
  have hbare : ∀ {hops seen frontier}, Explored s answer gives hierarchy kind seen frontier →
      Ascended s answer hierarchy n hops seen frontier → ∀ route top,
      Ascent s answer hierarchy n route top → route.length ≤ hops → top.inherited? kind = none := by
    intro hops seen frontier hexplored hascended route top htop hlength
    obtain ⟨raw', hraw'⟩ := htop.answered hn
    exact hexplored.bare raw' top hraw' (hascended.covered route top htop hlength)
  induction levels generalizing hops seen frontier with
  | zero =>
      refine ensures_pure fun x hx => ⟨hops, Nat.le_refl _, hx.2, fun route top htop hlt => ?_⟩
      exact hbare hexplored hascended route top htop (Nat.le_of_lt hlt)
  | succ levels ih =>
      have hnames : ∀ name ∈ frontier.flatMap (parentNames s hierarchy), used (Text.trim name) ∧
          ParentWithin s answer hierarchy n (hops + 1) (Text.trim name) := by
        intro name hname
        obtain ⟨e, he, hname⟩ := List.mem_flatMap.1 hname
        obtain ⟨raw', hraw'⟩ := hexplored.given e he
        obtain ⟨route, hroute, hlength⟩ := hascended.reached e he
        exact ⟨h.used_of_mem_parentNames hraw' hname, route, e, name, hroute, by omega, hname, rfl⟩
      unfold searchLevels
      split
      · refine ensures_pure fun x hx => ⟨hops, by omega, hx.2, fun route top htop hlt => ?_⟩
        exact hbare hexplored hascended route top htop (Nat.le_of_lt hlt)
      · have hscanned : Ensures (Knowing knows known)
            (searchParents b s kind (frontier.flatMap (parentNames s hierarchy)) ⟨seen, []⟩) _ _ :=
          ensures_searchParents_scanned h hgives hids known (fun name hname => (hnames name hname).1)
            hexplored.bare
        have hasked : Ensures (AskedSince asked old fun name =>
            base name ∨ ParentWithin s answer hierarchy n (hops + 1) name)
            (searchParents b s kind (frontier.flatMap (parentNames s hierarchy)) ⟨seen, []⟩) _ _ :=
          hlogs.ensures_searchParents (fun name hname => .inr (hnames name hname).2) _
        refine ensures_bind ((hscanned.and hasked).mono ?_ (fun _ _ hy => hy) fun y hy => hy.1.1)
          fun found => ?_
        · rintro x ⟨hx, hold⟩
          exact ⟨hx, hold.mono fun name => Or.imp_right fun hname => hname.mono (Nat.le_succ _)⟩
        cases found with
        | inl hit =>
            refine ensures_pure fun x hx => ⟨hops + 1, by omega, hx.2, fun route top htop hlt => ?_⟩
            exact hbare hexplored hascended route top htop (Nat.lt_succ_iff.1 hlt)
        | inr f =>
            refine ⟨fun x hx => ?_⟩
            obtain ⟨⟨hx, hnone, hscan⟩, hnew⟩ := hx
            have hfirst : hitAbove s answer hierarchy kind frontier 1 = none :=
              (findSome?_parents frontier 0).symm.trans hnone
            have hrest := ih (hexplored.step hids hgives hscan hfirst)
              (hascended.step hexplored hgives hn hscan)
            rw [Nat.add_right_comm, Nat.add_assoc] at hrest
            exact hrest.outcome x ⟨hx, hnew⟩

/-- Metadata that is not read from chains is that of the entity, or else the nearest above it, and what
    is asked for are names of parents of what has none nearer. -/
theorem ensures_nearestMetadata_unlisted (h : Answering b s used gives knows fails)
    (hgives : ∀ raw found, gives raw found → found = answer raw) (hids : Identified answer)
    (hlogs : Logs b asked) {raw : String} (hraw : used (Text.trim raw)) (hn : answer raw = some n) :
    Ensures (fun x => Knowing knows (Unlisted hierarchy n) x ∧ asked x.world = old)
      (nearestMetadata b s raw hierarchy kind)
      (fun found y => found = some ((n.inherited? kind).or (nearestAbove s answer hierarchy kind n)) ∧
        ∃ last ≤ s.maxDepth, AskedSince asked old (fun name =>
          name = Text.trim raw ∨ ParentWithin s answer hierarchy n last name) y ∧
        ∀ route top, Ascent s answer hierarchy n route top → route.length < last →
          top.inherited? kind = none)
      (fun _ => fails) := by
  unfold nearestMetadata
  have hresolve : Ensures (AskedSince asked old fun name =>
      name = Text.trim raw ∨ ParentWithin s answer hierarchy n 0 name) (resolve? b s raw) _ _ :=
    hlogs.ensures_resolve? (.inl rfl)
  refine ensures_bind (((h.ensures_resolve? (Unlisted hierarchy n) hraw).and hresolve).mono ?_
    (fun _ _ hy => And.intro (And.intro hy.1.1 hy.2) hy.1.2) fun y hy => hy.1.1) fun found =>
      ensures_of_fact fun hgiven => ?_
  · rintro x ⟨hx, hold⟩
    exact ⟨hx, [], hold, by simp⟩
  obtain rfl := (hgives _ _ hgiven).trans hn
  dsimp only
  cases hinherited : n.inherited? kind with
  | some hit => exact ensures_pure fun x hx => ⟨rfl, 0, Nat.zero_le _, hx.2, by simp⟩
  | none =>
      refine ensures_bind (ensures_knownChains hierarchy n.identifier) fun chains => ?_
      cases chains with
      | some chains =>
          refine ensures_pure fun x hx => ?_
          exact absurd (hx.2.trans hx.1.1.chains) (by simp)
      | none =>
          have hstart : Explored s answer gives hierarchy kind [n.identifier] [n] :=
            .start hids hgiven hn hinherited
          have hfound : Ensures (Knowing knows (Unlisted hierarchy n))
              (searchLevels b s hierarchy kind s.maxDepth [n.identifier] [n]) _ _ :=
            ensures_searchLevels_above h hgives hids (Unlisted hierarchy n) hgiven hinherited
          have hasked : Ensures (fun x => Knowing knows (Unlisted hierarchy n) x ∧ AskedSince asked old
              (fun name => name = Text.trim raw ∨ ParentWithin s answer hierarchy n 0 name) x)
              (searchLevels b s hierarchy kind s.maxDepth [n.identifier] [n]) _ _ :=
            ensures_searchLevels_asked h hgives hids hlogs (Unlisted hierarchy n) hn hstart
              (ascended_start n) (· = Text.trim raw)
          refine ensures_bind ((hfound.and hasked).mono (fun x hx => ⟨hx.1.1, hx.1⟩) ?_
            fun y hy => hy.2) fun found => ensures_pure fun x hx => hx
          rintro found y ⟨⟨-, rfl⟩, last, hlast, hnew, hbare⟩
          rw [Nat.zero_add] at hlast
          exact ⟨by rw [Option.none_or], last, hlast, hnew, hbare⟩

end Resolver

/-! ## Over a catalogue -/

/-- **A search for metadata finds the nearest.** Over a steady catalogue whose entities share no names,
    after any calls that left no chains of the entity, it comes to the metadata at the end of the nearest
    route and asks for no ancestor that is farther away; it finds none just when no route within the limit
    on depth leads to any. -/
theorem nearestMetadata_of_unlisted {b : Backing σ} {s : ResolverSettings} {used : String → Prop}
    {sound : σ → Prop} {asked : σ → List String} {entities : List Entity}
    (hapart : Catalogue.NamesApart entities)
    (hsteady : Steady b s.cacheSpace used
      (fun name => .ok ((Catalogue.ofList entities).find? name)) sound)
    (hparents : ∀ e ∈ entities, ∀ parent ∈ e.parents, used (Text.trim parent))
    (hlogs : Logs b asked) {world : σ} (hworld : sound world) {calls : List ResolverCall}
    (hcalls : ∀ call ∈ calls, used (Text.trim call.name)) {name : String}
    (hname : used (Text.trim name)) {n : Entity}
    (hn : s.answer (Catalogue.ofList entities).find? name = some n) (hierarchy : HierarchyKind)
    (kind : MetadataKind) (hnew : Unlisted hierarchy n (afterCalls b s world calls).memo.chains) :
    ∃ found new y,
      ((nearestMetadata b s name hierarchy kind).run).run (afterCalls b s world calls)
        = (.ok (some found), y) ∧
      asked y.world = new ++ asked (afterCalls b s world calls).world ∧
      (∀ own, n.inherited? kind = some own → found = some own) ∧
      (∀ hit, found = some hit → ∃ route, route.length ≤ s.maxDepth ∧
        NearestRoute s (s.answer (Catalogue.ofList entities).find?) hierarchy kind n route hit ∧
        ∀ other ∈ new, other = Text.trim name ∨
          ParentWithin s (s.answer (Catalogue.ofList entities).find?) hierarchy n route.length other) ∧
      (found = none ↔ ∀ route top,
        Ascent s (s.answer (Catalogue.ofList entities).find?) hierarchy n route top →
        route.length ≤ s.maxDepth → top.inherited? kind = none) ∧
      ∀ other ∈ new, other = Text.trim name ∨
        ParentWithin s (s.answer (Catalogue.ofList entities).find?) hierarchy n s.maxDepth other := by
  have hanswering := hsteady.answering fun name e _ he =>
    hparents e (Catalogue.mem_of_find?_ofList (Except.ok.inj he)).1
  generalize hanswer : s.answer (Catalogue.ofList entities).find? = answer at *
  have hgives : ∀ raw found, s.MayAnswer used
      (fun name => .ok ((Catalogue.ofList entities).find? name)) raw found → found = answer raw :=
    fun _ _ h => hanswer ▸ h.eq_answer_of_namesApart hapart
  have hidentified : Identified answer := hanswer ▸ identified_answer hapart s
  have hafter := hanswering.afterCalls_of_ensures (Exact s answer) ⟨hworld, Memo.recalls_empty⟩
    exact_empty hcalls fun name kind hused _ =>
      (ensures_ancestorChains_exact hanswering hgives hidentified hused kind).mono (fun _ => id)
        (fun _ _ hy => hy.1) fun _ => id
  have hsearch : Ensures (fun x => Knowing _ (Unlisted hierarchy n) x ∧
      asked x.world = asked (afterCalls b s world calls).world)
      (nearestMetadata b s name hierarchy kind) _ _ :=
    ensures_nearestMetadata_unlisted hanswering hgives hidentified hlogs hname hn
  obtain ⟨_, y, hrun, rfl, last, hlast, ⟨new, hasked, hwithin⟩, hbare⟩ :=
    hsearch.exists_ok (by simp) ⟨⟨hafter.session, hnew⟩, rfl⟩
  have hfarther : ∀ hops, last ≤ hops → ∀ other ∈ new,
      other = Text.trim name ∨ ParentWithin s answer hierarchy n hops other :=
    fun hops hle other hother => (hwithin other hother).imp_right fun h => h.mono hle
  refine ⟨_, new, y, hrun, hasked, ?_, ?_, inherited?_or_nearestAbove_eq_none_iff,
    hfarther s.maxDepth hlast⟩
  · intro own hown
    rw [hown, Option.some_or]
  · intro hit hhit
    obtain ⟨hops, hreach, hfound, hbefore⟩ := exists_level_of_nearest hhit
    obtain ⟨route, rfl, hroute⟩ := exists_nearestRoute_of_hitAfter hfound hbefore
    refine ⟨route, hreach, hroute, hfarther route.length (Nat.le_of_not_lt fun hlt => ?_)⟩
    -- the hit has metadata, and nothing nearer than the last level has
    obtain ⟨top, htop, hleads⟩ := hroute.leads
    exact absurd ((hbare route top htop hlt).symm.trans hleads) (by simp)

/-- An entity with the years that it was in use. -/
def Entity.dated (e : Entity) (earliestYear latestYear : Int) : Entity :=
  { e with metadata := { e.metadata with chrono := some { earliestYear, latestYear } } }

/-- Sherds have three parents, one of which is unknown and one of which leads back to them. -/
def sherd : Entity := .concept "sherd" ["rim", "missing", "thrown"]

/-- Two concepts have years, both of them two hops above sherds. -/
def wares : List Entity :=
  [sherd, .concept "rim" ["root", "sherd", "ware-slug"], .concept "thrown" ["kiln"],
    (Entity.concept "ware" ["rim"]).dated (-500) 100, (Entity.concept "kiln" ["craft"]).dated 0 50,
    .concept "craft" []]

/-- A catalogue of wares whose cache cannot be read. -/
def wareDeployment : Deployment where
  catalogue := .ofList wares
  cache := .empty 8
  readsFail := true

/-- Calls that leave chains of other entities and of another kind. -/
def wareCalls : List ResolverCall :=
  [.nearest "rim" .concept .geo, .chains "kiln" .concept, .chains "sherd" .spatial, .resolve "missing"]

theorem nearestMetadata_of_unlisted_sherd :
    ∃ found new y,
      ((nearestMetadata Deployment.backing {} " sherd-slug" .concept .chrono).run).run
        (afterCalls Deployment.backing {} wareDeployment wareCalls) = (.ok (some found), y) ∧
      y.world.asked = new ++ (afterCalls Deployment.backing {} wareDeployment wareCalls).world.asked ∧
      (∀ own, sherd.inherited? .chrono = some own → found = some own) ∧
      (∀ hit, found = some hit → ∃ route, route.length ≤ ({} : ResolverSettings).maxDepth ∧
        NearestRoute {} (ResolverSettings.answer {} (Catalogue.ofList wares).find?) .concept .chrono sherd
          route hit ∧
        ∀ other ∈ new, other = Text.trim " sherd-slug" ∨
          ParentWithin {} (ResolverSettings.answer {} (Catalogue.ofList wares).find?) .concept sherd
            route.length other) ∧
      (found = none ↔ ∀ route top,
        Ascent {} (ResolverSettings.answer {} (Catalogue.ofList wares).find?) .concept sherd route top →
        route.length ≤ ({} : ResolverSettings).maxDepth → top.inherited? .chrono = none) ∧
      ∀ other ∈ new, other = Text.trim " sherd-slug" ∨
        ParentWithin {} (ResolverSettings.answer {} (Catalogue.ofList wares).find?) .concept sherd
          ({} : ResolverSettings).maxDepth other := by
  have hapart : Catalogue.NamesApart wares := by decide +kernel
  have hsherd : ResolverSettings.answer {} (Catalogue.ofList wares).find? " sherd-slug"
      = some sherd := by decide +kernel
  have hnew : Unlisted .concept sherd
      (afterCalls Deployment.backing {} wareDeployment wareCalls).memo.chains := by
    unfold Unlisted
    decide +kernel
  exact nearestMetadata_of_unlisted hapart
    (@Deployment.steady_of_readsFail "entity" (.ofList wares) false) (fun _ _ _ _ => trivial)
    Deployment.logs ⟨rfl, rfl, rfl⟩ (fun _ _ => trivial) trivial hsherd .concept .chrono hnew

/-- Of the two, the one that the first parent leads to is found, and the other one is not asked for. -/
example :
    (((nearestMetadata Deployment.backing {} "sherd" .concept .chrono).run).run
        { world := wareDeployment }).1.toOption.join.join.map Inherited.source = some "ware" ∧
      (((nearestMetadata Deployment.backing {} "sherd" .concept .chrono).run).run
        { world := wareDeployment }).2.world.asked = ["ware-slug", "thrown", "missing", "rim", "sherd"] := by
  decide +kernel

end FacetSearch
