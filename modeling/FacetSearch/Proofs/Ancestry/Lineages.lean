import FacetSearch.Proofs.Ancestry.Outages

set_option autoImplicit false

/-! # Lineages

What the chains of every entity are, whatever a limit, a cycle or an outage has cut. A concept has at
least one chain, no more than the limit on chains allows, and each goes from parent to parent
(`outcome_ancestorChains_concept`). A place or a project has one chain, its lineage: first parents only,
none of them twice, and cut where the limit on depth is reached and nowhere else
(`outcome_ancestorChains_line`).

A chain of a concept is put together from walks and from what is remembered, be that the paths of a
finished walk or what a limit had left of an earlier call. So all that is remembered goes up
(`GoesUp`), and what a walk puts in front of it goes up as well. -/

namespace FacetSearch

variable {σ : Type}

/-! ## Chains that go up -/

section

variable (s : ResolverSettings) (answer : String → Option Entity)

/-- The paths begin with the entity and go from parent to parent. -/
def Upward (e : Entity) (paths : List (List Entity)) : Prop :=
  ∀ path ∈ paths, ∃ route, UpwardPath s answer e route path

/-- The path along the first parents of an entity, nearest first, as far as the limit on depth allows. -/
structure Lineage (kind : HierarchyKind) (e : Entity) (path : List Entity) : Prop where
  start : path.head? = some e
  steps : path.IsChain fun a parent => firstParent? s answer kind a = some parent
  nodup : (path.map (·.identifier)).Nodup
  short : path.length ≤ max 1 s.maxDepth
  stops : path.length < s.maxDepth → ∀ top ∈ path.getLast?,
    ∀ parent ∈ firstParent? s answer kind top, parent ∈ path

/-- The same of a climb with some hops left, above identifiers that it has seen. -/
structure LineageAbove (kind : HierarchyKind) (hops : Nat) (seen : List String) (e : Entity)
    (path : List Entity) : Prop where
  start : path.head? = some e
  steps : path.IsChain fun a parent => firstParent? s answer kind a = some parent
  short : path.length ≤ hops + 1
  stops : path.length ≤ hops → ∀ top ∈ path.getLast?, ∀ parent ∈ firstParent? s answer kind top,
    parent.identifier ∈ seen ∨ parent.identifier ∈ path.map (·.identifier)

/-- The chains of an entity go up, and they are as many as the limit on chains allows. -/
def ChainsUp (kind : HierarchyKind) (e : Entity) (chains : List Chain) : Prop :=
  match kind with
  | .concept => ∃ paths, chains = paths.map (⟨.concept, ·⟩) ∧ paths ≠ [] ∧
      paths.length ≤ max 1 s.maxChains ∧ Upward s answer e paths
  | .spatial | .project => ∃ path, Lineage s answer kind e path ∧ chains = [⟨kind, path.reverse⟩]

/-- All chains that are remembered go up. -/
def GoesUp (m : ChainMemo) : Prop :=
  ∀ kind raw e chains, answer raw = some e → m.get? kind e.identifier = some chains →
    ChainsUp s answer kind e chains

end

section

variable {s : ResolverSettings} {answer : String → Option Entity} {kind : HierarchyKind}
  {e parent : Entity} {path : List Entity} {paths : List (List Entity)} {hops : Nat}
  {seen : List String} {m : ChainMemo} {raw : String}

/-! ### Paths of concepts -/

theorem UpwardPath.head?_eq {route : List Nat} (h : UpwardPath s answer e route path) :
    path.head? = some e := by
  cases h <;> rfl

theorem UpwardPath.isChain {route : List Nat} (h : UpwardPath s answer e route path) :
    path.IsChain (IsParent s answer) := by
  induction h with
  | stay => exact .singleton _
  | @climb e parent position route path hparent hrest ih =>
      obtain ⟨rest, rfl⟩ := List.head?_eq_some_iff.1 hrest.head?_eq
      exact .cons_cons ⟨position, hparent⟩ ih

theorem upward_singleton (s : ResolverSettings) (answer : String → Option Entity) (e : Entity) :
    Upward s answer e [[e]] := by
  intro path hpath
  obtain rfl := List.mem_singleton.1 hpath
  exact ⟨[], .stay e⟩

/-- A concept in front of what goes up from its parent. -/
theorem Upward.extendPaths (h : Upward s answer parent paths) (hparent : IsParent s answer e parent)
    (room : Nat) : Upward s answer e (extendPaths e room paths) := by
  intro path hpath
  obtain ⟨rest, hrest, rfl⟩ := List.mem_map.1 hpath
  obtain ⟨position, hposition⟩ := hparent
  obtain ⟨route, hroute⟩ := h rest (List.mem_of_mem_take hrest)
  exact ⟨position :: route, .climb hposition hroute⟩

/-- One more parent leaves the paths upward, and no more than the limit on chains. -/
theorem Upward.extend {done above : Walk} (h : Upward s answer e done.paths)
    (hlength : done.paths.length ≤ s.maxChains) (habove : Upward s answer parent above.paths)
    (hparent : IsParent s answer e parent) :
    Upward s answer e (done.extend e (s.maxChains - done.paths.length) above).paths ∧
      (done.extend e (s.maxChains - done.paths.length) above).paths.length ≤ s.maxChains := by
  constructor
  · intro path hpath
    rcases List.mem_append.1 hpath with hpath | hpath
    · exact h path hpath
    · exact habove.extendPaths hparent _ path hpath
  · rw [Walk.extend, List.length_append, FacetSearch.extendPaths, List.length_map, List.length_take]
    omega

/-- A walk without paths comes to the one that stays. -/
theorem Upward.chainsUp {done : Walk} (h : Upward s answer e done.paths)
    (hlength : done.paths.length ≤ s.maxChains) :
    ChainsUp s answer .concept e
      ((if done.paths.isEmpty then { done with paths := [[e]] } else done).paths.map
        (⟨.concept, ·⟩)) := by
  refine ⟨_, rfl, ?_⟩
  split
  · exact ⟨by simp, Nat.le_max_left _ _, upward_singleton s answer e⟩
  · next hpaths =>
    refine ⟨fun hnil => hpaths (by rw [hnil]; rfl), ?_, h⟩
    exact hlength.trans (Nat.le_max_right _ _)

theorem ChainsUp.upward {chains : List Chain} (h : ChainsUp s answer .concept e chains) :
    Upward s answer e (chains.map (·.entities)) := by
  obtain ⟨paths, rfl, -, -, hpaths⟩ := h
  rwa [List.map_map, Function.comp_def, List.map_id']

/-! ### Lineages of places and projects -/

theorem LineageAbove.singleton
    (hstops : hops ≠ 0 → ∀ parent ∈ firstParent? s answer kind e,
      parent.identifier ∈ seen ∨ parent.identifier = e.identifier) :
    LineageAbove s answer kind hops seen e [e] where
  start := rfl
  steps := .singleton _
  short := Nat.le_add_left 1 hops
  stops := by
    intro hlength top htop parent hparent
    obtain rfl := Option.some.inj htop
    exact (hstops (Nat.ne_of_gt hlength) parent hparent).imp_right List.mem_singleton.2

/-- An entity in front of the climb from its first parent. -/
theorem LineageAbove.cons (h : LineageAbove s answer kind hops (e.identifier :: seen) parent path)
    (hparent : firstParent? s answer kind e = some parent) :
    LineageAbove s answer kind (hops + 1) seen e (e :: path) := by
  obtain ⟨rest, rfl⟩ := List.head?_eq_some_iff.1 h.start
  refine ⟨rfl, .cons_cons hparent h.steps, Nat.succ_le_succ h.short, ?_⟩
  intro hlength top htop next hnext
  rw [List.getLast?_cons_cons] at htop
  -- what the climb has seen is the entity itself or was seen before
  rcases h.stops (Nat.le_of_succ_le_succ hlength) top htop next hnext with hseen | hmem
  · rcases List.mem_cons.1 hseen with hsame | hseen
    · exact .inr (hsame ▸ List.mem_cons_self ..)
    · exact .inl hseen
  · exact .inr (List.mem_cons_of_mem _ hmem)

/-- All entities of a climb are answers, if the first one is. -/
theorem LineageAbove.answered (h : LineageAbove s answer kind hops seen e path)
    (he : answer raw = some e) {a : Entity} (ha : a ∈ path) : ∃ raw, answer raw = some a := by
  obtain ⟨rest, rfl⟩ := List.head?_eq_some_iff.1 h.start
  have hsteps := h.steps
  clear h
  induction rest generalizing e raw with
  | nil =>
      obtain rfl := List.mem_singleton.1 ha
      exact ⟨raw, he⟩
  | cons parent rest ih =>
      rw [List.isChain_cons_cons] at hsteps
      rcases List.mem_cons.1 ha with rfl | ha
      · exact ⟨raw, he⟩
      · obtain ⟨name, -, hname⟩ := exists_of_firstParent? hsteps.1
        exact ih hname ha hsteps.2

/-- A whole climb comes to the lineage of its entity. -/
theorem LineageAbove.lineage (h : LineageAbove s answer kind (s.maxDepth - 1) [] e path)
    (hids : Identified answer) (he : answer raw = some e)
    (hnodup : (path.map (·.identifier)).Nodup) : Lineage s answer kind e path where
  start := h.start
  steps := h.steps
  nodup := hnodup
  short := by
    have hshort := h.short
    omega
  stops := by
    intro hlength top htop parent hparent
    obtain ⟨raw', hraw'⟩ := h.answered he (List.mem_of_mem_getLast? htop)
    obtain ⟨name, -, hname⟩ := exists_of_firstParent? hparent
    rcases h.stops (Nat.le_sub_one_of_lt hlength) top htop parent hparent with hseen | hmem
    · exact absurd hseen (by simp)
    · -- the entity of the path with the identifier of the parent is the parent
      obtain ⟨a, ha, hsame⟩ := List.mem_map.1 hmem
      obtain ⟨raw'', hraw''⟩ := h.answered he ha
      exact hids _ _ _ _ hraw'' hname hsame ▸ ha

/-! ### What is remembered -/

theorem goesUp_empty : GoesUp s answer {} := by
  intro kind raw e chains _ hget
  exact absurd hget (by simp)

theorem GoesUp.insert (h : GoesUp s answer m) (hids : Identified answer) (he : answer raw = some e)
    {chains : List Chain} (hchains : ChainsUp s answer kind e chains) :
    GoesUp s answer (m.insert kind e.identifier chains) := by
  intro kind' raw' e' chains' he' hget
  rw [ChainMemo.get?_insert] at hget
  split at hget
  · next hsame =>
    obtain ⟨rfl, hidentifier⟩ := hsame
    obtain rfl := hids _ _ _ _ he he' hidentifier
    obtain rfl := Option.some.inj hget
    exact hchains
  · exact h kind' raw' e' chains' he' hget

end

/-! ## Walks -/

section Resolver

variable {b : Backing σ} {s : ResolverSettings} {used : String → Prop}
  {gives : String → Option Entity → Prop} {knows : Session σ → Prop} {fails : Prop}
  {answer : String → Option Entity} {raw : String} {e : Entity}

/-- The paths above a parent go up, from memory as from the walk. -/
theorem ensures_pathsAbove_upward (h : Answering b s used gives knows fails)
    (hids : Identified answer) {walk : Entity → Lookups σ Walk} (he : answer raw = some e)
    (hwalk : Ensures (Knowing knows (GoesUp s answer)) (walk e)
      (fun found y => Knowing knows (GoesUp s answer) y ∧
        ChainsUp s answer .concept e (found.paths.map (⟨.concept, ·⟩)))
      (fun y => fails ∧ Knowing knows (GoesUp s answer) y)) :
    Ensures (Knowing knows (GoesUp s answer)) (pathsAbove walk e)
      (fun above y => Knowing knows (GoesUp s answer) y ∧ Upward s answer e above.paths)
      (fun y => fails ∧ Knowing knows (GoesUp s answer) y) := by
  refine ensures_pathsAbove ?_ ?_
  · intro x chains hx hchains
    exact ⟨hx, (hx.chains _ _ _ _ he hchains).upward⟩
  · refine hwalk.mono (fun _ => And.left) ?_ fun _ => id
    rintro found y ⟨hy, hup⟩
    have hpaths : Upward s answer e found.paths := by simpa [Function.comp_def] using hup.upward
    split
    · exact ⟨⟨h.learn hy.session, hy.chains.insert hids he hup⟩, hpaths⟩
    · exact ⟨hy, hpaths⟩

/-- **The paths of a walk go up**, and so does all that it remembers. -/
theorem ensures_conceptWalk_upward (h : Answering b s used gives knows fails)
    (hgives : ∀ raw found, gives raw found → found = answer raw) (hids : Identified answer)
    (levels : Nat) (trail : List String) (he : gives raw (some e)) :
    Ensures (Knowing knows (GoesUp s answer)) (conceptWalk b s levels trail e)
      (fun found y => Knowing knows (GoesUp s answer) y ∧
        ChainsUp s answer .concept e (found.paths.map (⟨.concept, ·⟩)))
      (fun y => fails ∧ Knowing knows (GoesUp s answer) y) := by
  induction levels generalizing trail raw e with
  | zero =>
      refine ensures_pure fun x hx => ⟨hx, [[e]], rfl, by simp, Nat.le_max_left _ _, ?_⟩
      exact upward_singleton s answer e
  | succ levels ih =>
      unfold conceptWalk
      refine ensures_bind (Ensures.mono (h.ensures_pathsThrough (fun _ done m => GoesUp s answer m ∧
          Upward s answer e done.paths ∧ done.paths.length ≤ s.maxChains)
        (fun _ _ _ => And.left) he ?unknown ?cut ?above) ?begins (fun _ _ => id) fun _ => id)
        fun done => ensures_pure ?ends
      case begins => exact fun x hx => ⟨hx.session, hx.chains, by simp [Upward], Nat.zero_le _⟩
      case ends =>
        intro x hx
        obtain ⟨hgoes, hup, hlength⟩ := hx.chains
        exact ⟨⟨hx.session, hgoes⟩, hup.chainsUp hlength⟩
      case unknown => exact fun _ _ _ _ hm _ => hm
      case cut => exact fun _ _ _ _ _ hm _ _ _ => hm
      case above =>
        intro before name rest done parent hsplit hparent _
        have hanswer := (hgives _ _ hparent).symm
        have hstep : IsParent s answer e parent := by
          refine isParent_of_mem_parentNames ?_ hanswer
          rw [hsplit]
          simp
        refine ensures_of_each ?_
        rintro x ⟨hknows, hgoes, hup, hlength⟩
        refine (ensures_pathsAbove_upward h hids hanswer (ih _ hparent)).mono ?_ ?_ fun _ => id
        · rintro _ rfl
          exact ⟨hknows, hgoes⟩
        · rintro above y ⟨hy, habove⟩
          exact ⟨hy.session, hy.chains, hup.extend hlength habove hstep⟩

/-- **A climb follows first parents**, until it has no hops left or cannot go on. -/
theorem ensures_climb_above (h : Answering b s used gives knows fails)
    (hgives : ∀ raw found, gives raw found → found = answer raw) (known : ChainMemo → Prop)
    {kind : HierarchyKind} {hops : Nat} {seen : List String} (he : gives raw (some e)) :
    Ensures (Knowing knows known) (climb b s kind hops seen e)
      (fun path y => Knowing knows known y ∧ LineageAbove s answer kind hops seen e path)
      (fun y => fails ∧ Knowing knows known y) := by
  induction hops generalizing seen raw e with
  | zero =>
      unfold climb
      cases (parentNames s kind e).head? <;> exact ensures_pure fun x hx => ⟨hx, .singleton (by simp)⟩
  | succ hops ih =>
      unfold climb
      cases hname : (parentNames s kind e).head? with
      | none =>
          refine ensures_pure fun x hx => ⟨hx, .singleton fun _ parent hparent => ?_⟩
          exact absurd hparent (by simp [firstParent?, hname])
      | some name =>
          have hused := h.used_of_mem_parentNames he (List.mem_of_mem_head? hname)
          refine ensures_bind (h.ensures_resolve? known hused) fun found =>
            ensures_of_fact fun hfound => ?_
          have hfirst : firstParent? s answer kind e = found := by
            rw [firstParent?, hname, Option.bind_some, hgives _ _ hfound]
          cases found with
          | none =>
              refine ensures_pure fun x hx => ⟨hx, .singleton fun _ parent hparent => ?_⟩
              exact absurd hparent (by simp [hfirst])
          | some parent =>
              by_cases hseen : parent.identifier ∈ e.identifier :: seen
              · simp only [List.contains_eq_mem, hseen, decide_true, if_true]
                refine ensures_pure fun x hx => ⟨hx, .singleton fun _ parent' hparent' => ?_⟩
                obtain rfl := Option.some.inj (hfirst.symm.trans hparent')
                exact (List.mem_cons.1 hseen).symm
              · simp only [List.contains_eq_mem, hseen, decide_false, Bool.false_eq_true, if_false]
                exact ensures_bind (ih hfound) fun path =>
                  ensures_pure fun x hx => ⟨hx.1, hx.2.cons hfirst⟩

/-- A climb with all hops comes to the lineage of its entity. -/
theorem ensures_climb_lineage (h : Answering b s used gives knows fails)
    (hgives : ∀ raw found, gives raw found → found = answer raw) (hids : Identified answer)
    (known : ChainMemo → Prop) {kind : HierarchyKind} (he : gives raw (some e)) :
    Ensures (Knowing knows known) (climb b s kind (s.maxDepth - 1) [] e)
      (fun path y => Knowing knows known y ∧ Lineage s answer kind e path)
      (fun y => fails ∧ Knowing knows known y) := by
  refine ((ensures_climb_above h hgives known he).and (h.ensures_climb known he)).mono
    (fun x hx => ⟨hx, hx⟩) ?_ fun y => And.left
  rintro path y ⟨⟨hy, habove⟩, -, hnodup⟩
  exact ⟨hy, habove.lineage hids (hgives _ _ he).symm (hnodup (by simp)).1⟩

/-- The chains that a walk comes to go up, and so does all that it remembers. -/
theorem ensures_walkChains_up (h : Answering b s used gives knows fails)
    (hgives : ∀ raw found, gives raw found → found = answer raw) (hids : Identified answer)
    {kind : HierarchyKind} (he : gives raw (some e)) :
    Ensures (Knowing knows (GoesUp s answer)) (walkChains b s kind e)
      (fun chains y => Knowing knows (GoesUp s answer) y ∧ ChainsUp s answer kind e chains)
      (fun y => fails ∧ Knowing knows (GoesUp s answer) y) := by
  cases kind with
  | concept =>
      exact ensures_bind (ensures_conceptWalk_upward h hgives hids s.maxDepth [] he) fun found =>
        ensures_pure fun x hx => hx
  | spatial | project =>
      exact ensures_bind (ensures_climb_lineage h hgives hids _ he) fun path =>
        ensures_pure fun x hx => ⟨hx.1, path, hx.2, rfl⟩

/-- **Listing chains gives chains that go up**, and all that is remembered then goes up. -/
theorem ensures_ancestorChains_up (h : Answering b s used gives knows fails)
    (hgives : ∀ raw found, gives raw found → found = answer raw) (hids : Identified answer)
    (hraw : used (Text.trim raw)) (kind : HierarchyKind) :
    Ensures (Knowing knows (GoesUp s answer)) (ancestorChains b s raw kind)
      (fun found y => Knowing knows (GoesUp s answer) y ∧ match found with
        | none => gives raw none
        | some chains => ∃ e, gives raw (some e) ∧ ChainsUp s answer kind e chains)
      (fun y => fails ∧ Knowing knows (GoesUp s answer) y) :=
  h.ensures_ancestorChains_right hraw (ChainsUp s answer kind)
    (fun _ _ _ hm he hget => hm _ _ _ _ (hgives _ _ he).symm hget)
    (fun _ _ _ hm he hchains => GoesUp.insert hm hids (hgives _ _ he).symm hchains)
    fun _ he => ensures_walkChains_up h hgives hids he

end Resolver

/-! ## Chains over a catalogue -/

section

variable {b : Backing σ} {s : ResolverSettings} {used : String → Prop} {entities : List Entity}
  {sound : σ → Prop} {outages : σ → Nat}

theorem Outcome.imp {α : Type} {post post' : α → Session σ → Prop} {broken broken' : Session σ → Prop}
    {result : Except StoreError α × Session σ} (h : Outcome post broken result)
    (hpost : ∀ a y, post a y → post' a y) (hbroken : ∀ y, broken y → broken' y) :
    Outcome post' broken' result := by
  cases h with
  | ok hy => exact .ok (hpost _ _ hy)
  | error hy => exact .error (hbroken _ hy)

/-- When listing chains fails, there was an outage during it. -/
theorem Intermittent.outcome_ancestorChains {find : String → Option Entity}
    (h : Intermittent b s.cacheSpace used find sound outages)
    (hparents : ∀ name e, used name → find name = some e → ParentsUsed used e) {name : String}
    (hname : used (Text.trim name)) (kind : HierarchyKind) {x : Session σ} (hsound : sound x.world)
    (hrecalls : x.memo.Recalls used fun name => .ok (find name)) :
    Outcome (fun _ _ => True) (fun y => outages x.world < outages y.world)
      (((ancestorChains b s name kind).run).run x) := by
  have hrun := (((h.faltering_counted (outages x.world)).mirroring hparents).ancestorChains hname
    kind).alike x.memo x.world hrecalls ⟨hsound, rfl⟩
  show Outcome _ _ (((ancestorChains b s name kind).run).run ⟨x.memo, x.world⟩)
  generalize ((ancestorChains b s name kind).run).run ⟨x.memo, x.world⟩ = result at hrun ⊢
  generalize ((ancestorChains (.uncached find) s name kind).run).run ⟨x.memo, ()⟩ = plain at hrun
  cases hrun with
  | same => exact .ok trivial
  | broke hcount => exact .error hcount

/-- After any calls, whatever outages there were, listing chains gives an entity chains that go up, or
    it fails and there was an outage during it. -/
theorem outcome_afterCalls_up (hapart : Catalogue.NamesApart entities)
    (h : Intermittent b s.cacheSpace used (Catalogue.ofList entities).find? sound outages)
    (hparents : ∀ e ∈ entities, ∀ parent ∈ e.parents, used (Text.trim parent))
    {world : σ} (hworld : sound world) {calls : List ResolverCall}
    (hcalls : ∀ call ∈ calls, used (Text.trim call.name)) {name : String}
    (hname : used (Text.trim name)) {n : Entity}
    (hn : s.answer (Catalogue.ofList entities).find? name = some n) (kind : HierarchyKind) :
    Outcome (fun found _ => ∃ chains, found = some chains ∧
        ChainsUp s (s.answer (Catalogue.ofList entities).find?) kind n chains)
      (fun y => outages (afterCalls b s world calls).world < outages y.world)
      (((ancestorChains b s name kind).run).run (afterCalls b s world calls)) := by
  have hused : ∀ name e, used name → (Catalogue.ofList entities).find? name = some e →
      ParentsUsed used e := fun name e _ he => hparents e (Catalogue.mem_of_find?_ofList he).1
  have hanswering := h.answering hused
  have hgives : ∀ raw found, s.MayAnswer used
      (fun name => .ok ((Catalogue.ofList entities).find? name)) raw found →
      found = s.answer (Catalogue.ofList entities).find? raw :=
    fun _ _ hgiven => hgiven.eq_answer_of_namesApart hapart
  have hids := identified_answer hapart s
  -- every call leaves chains that go up, wherever an outage breaks it off
  have hafter := hanswering.afterCalls_of_ensures (GoesUp s _) ⟨hworld, Memo.recalls_empty⟩
    goesUp_empty hcalls fun name kind hused _ =>
      (ensures_ancestorChains_up hanswering hgives hids hused kind).mono (fun _ => id)
        (fun _ _ => And.left) fun _ => id
  generalize afterCalls b s world calls = x at hafter ⊢
  have hlist := (ensures_ancestorChains_up hanswering hgives hids hname kind).outcome x hafter
  have hfail := h.outcome_ancestorChains hused hname kind hafter.session.1 hafter.session.2
  generalize ((ancestorChains b s name kind).run).run x = result at hlist hfail ⊢
  cases hlist with
  | @ok found y hfound =>
      cases found with
      | none => exact absurd ((hgives _ _ hfound.2).trans hn) (by simp)
      | some chains =>
          obtain ⟨-, e, he, hchains⟩ := hfound
          obtain rfl := Option.some.inj ((hgives _ _ he).trans hn)
          exact .ok ⟨chains, rfl, hchains⟩
  | error =>
      cases hfail with
      | error hcount => exact .error hcount

/-- **The chains of a concept go from parent to parent**, at least one of them and no more than the limit
    on chains, after any calls and whatever outages there were, unless there is one during the call. (The
    entities share no names; their hierarchy may have cycles and any depth.) -/
theorem outcome_ancestorChains_concept (hapart : Catalogue.NamesApart entities)
    (h : Intermittent b s.cacheSpace used (Catalogue.ofList entities).find? sound outages)
    (hparents : ∀ e ∈ entities, ∀ parent ∈ e.parents, used (Text.trim parent))
    {world : σ} (hworld : sound world) {calls : List ResolverCall}
    (hcalls : ∀ call ∈ calls, used (Text.trim call.name)) {name : String}
    (hname : used (Text.trim name)) {n : Entity}
    (hn : s.answer (Catalogue.ofList entities).find? name = some n) :
    Outcome (fun found _ => ∃ chains, found = some chains ∧ chains ≠ [] ∧
        chains.length ≤ max 1 s.maxChains ∧
        ∀ chain ∈ chains, chain.kind = .concept ∧ chain.nearestFirst.head? = some n ∧
          chain.nearestFirst.IsChain (IsParent s (s.answer (Catalogue.ofList entities).find?)))
      (fun y => outages (afterCalls b s world calls).world < outages y.world)
      (((ancestorChains b s name .concept).run).run (afterCalls b s world calls)) := by
  refine (outcome_afterCalls_up hapart h hparents hworld hcalls hname hn .concept).imp ?_ fun _ => id
  rintro _ y ⟨_, rfl, paths, rfl, hne, hlength, hpaths⟩
  refine ⟨_, rfl, by simpa using hne, by rwa [List.length_map], ?_⟩
  intro chain hchain
  obtain ⟨path, hpath, rfl⟩ := List.mem_map.1 hchain
  obtain ⟨route, hroute⟩ := hpaths path hpath
  exact ⟨rfl, hroute.head?_eq, hroute.isChain⟩

/-- The catalogue is down in the first of the calls and again in the fourth. -/
def animalOutage (lookup : Nat) : Bool := lookup = 3 ∨ lookup = 6

/-- The concept and one of its parents are above each other. -/
theorem outcome_ancestorChains_concept_wild :
    ResolverSettings.answer {} (Catalogue.ofList animals).find? "wild-slug"
        = some (.concept "wild" ["tame", "sheep"]) ∧
    Outcome (fun found _ => ∃ chains, found = some chains ∧ chains ≠ [] ∧ chains.length ≤ max 1 256 ∧
        ∀ chain ∈ chains, chain.kind = .concept ∧
          chain.nearestFirst.head? = some (.concept "wild" ["tame", "sheep"]) ∧
          chain.nearestFirst.IsChain
            (IsParent {} (ResolverSettings.answer {} (Catalogue.ofList animals).find?)))
      (fun y => Deployment.outages animalOutage (afterCalls (Deployment.scheduled animalOutage) {}
          animalDeployment animalCalls).world < Deployment.outages animalOutage y.world)
      (((ancestorChains (Deployment.scheduled animalOutage) {} "wild-slug" .concept).run).run
        (afterCalls (Deployment.scheduled animalOutage) {} animalDeployment animalCalls)) := by
  have hapart : Catalogue.NamesApart animals := by decide +kernel
  have hwild : ResolverSettings.answer {} (Catalogue.ofList animals).find? "wild-slug"
      = some (.concept "wild" ["tame", "sheep"]) := by decide +kernel
  refine ⟨hwild, ?_⟩
  exact outcome_ancestorChains_concept hapart
    (@Deployment.intermittent_of_readsFail "entity" (.ofList animals) animalOutage)
    (fun _ _ _ _ => trivial) ⟨rfl, rfl⟩ (fun _ _ => trivial) trivial hwild

/-- **A place or a project has one chain, its lineage**, after any calls and whatever outages there were,
    unless there is one during the call. (Here too there may be cycles.) -/
theorem outcome_ancestorChains_line (hapart : Catalogue.NamesApart entities)
    (h : Intermittent b s.cacheSpace used (Catalogue.ofList entities).find? sound outages)
    (hparents : ∀ e ∈ entities, ∀ parent ∈ e.parents, used (Text.trim parent))
    {world : σ} (hworld : sound world) {calls : List ResolverCall}
    (hcalls : ∀ call ∈ calls, used (Text.trim call.name)) {name : String}
    (hname : used (Text.trim name)) {n : Entity}
    (hn : s.answer (Catalogue.ofList entities).find? name = some n) {kind : HierarchyKind}
    (hkind : kind ≠ .concept) :
    Outcome (fun found _ => ∃ chain, found = some [chain] ∧ chain.kind = kind ∧
        Lineage s (s.answer (Catalogue.ofList entities).find?) kind n chain.nearestFirst)
      (fun y => outages (afterCalls b s world calls).world < outages y.world)
      (((ancestorChains b s name kind).run).run (afterCalls b s world calls)) := by
  refine (outcome_afterCalls_up hapart h hparents hworld hcalls hname hn kind).imp ?_ fun _ => id
  rintro _ y ⟨chains, rfl, hchains⟩
  cases kind with
  | concept => exact absurd rfl hkind
  | spatial | project =>
      obtain ⟨path, hpath, rfl⟩ := hchains
      refine ⟨_, rfl, rfl, ?_⟩
      show Lineage s _ _ n path.reverse.reverse
      rwa [List.reverse_reverse]

theorem outcome_ancestorChains_line_wild :
    HierarchyKind.spatial ≠ .concept ∧
    Outcome (fun found _ => ∃ chain, found = some [chain] ∧ chain.kind = .spatial ∧
        Lineage {} (ResolverSettings.answer {} (Catalogue.ofList animals).find?) .spatial
          (.concept "wild" ["tame", "sheep"]) chain.nearestFirst)
      (fun y => Deployment.outages animalOutage (afterCalls (Deployment.scheduled animalOutage) {}
          animalDeployment animalCalls).world < Deployment.outages animalOutage y.world)
      (((ancestorChains (Deployment.scheduled animalOutage) {} "wild-slug" .spatial).run).run
        (afterCalls (Deployment.scheduled animalOutage) {} animalDeployment animalCalls)) := by
  have hapart : Catalogue.NamesApart animals := by decide +kernel
  have hwild : ResolverSettings.answer {} (Catalogue.ofList animals).find? "wild-slug"
      = some (.concept "wild" ["tame", "sheep"]) := by decide +kernel
  refine ⟨by decide, ?_⟩
  exact outcome_ancestorChains_line hapart
    (@Deployment.intermittent_of_readsFail "entity" (.ofList animals) animalOutage)
    (fun _ _ _ _ => trivial) ⟨rfl, rfl⟩ (fun _ _ => trivial) trivial hwild (by decide)

example :
    [HierarchyKind.concept, .spatial].map (fun kind =>
      (((ancestorChains (Deployment.scheduled animalOutage) {} "wild-slug" kind).run).run
        (afterCalls (Deployment.scheduled animalOutage) {} animalDeployment animalCalls)).1.toOption.join.map
          (·.map fun chain => chain.nearestFirst.map (·.identifier)))
      = [some [["wild", "tame"], ["wild", "sheep", "mammal", "animal"],
          ["wild", "sheep", "domestic", "animal"]], some [["wild", "tame"]]] := by decide +kernel

end

end FacetSearch
