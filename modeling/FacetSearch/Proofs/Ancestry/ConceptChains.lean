import FacetSearch.Proofs.Ancestry.Memory
import FacetSearch.Proofs.Ancestry.UpwardPaths

set_option autoImplicit false

/-! # The chains of a concept

The chains of a concept are its maximal paths upward, if the limits on depth and chains leave room for
all of them (`ancestorChains_concept`). What is remembered does not get in the way. Other concepts may
be remembered with chains that a limit or a cycle cut, but above such a concept there is no path that
the limits would not cut as well, so no walk within the limits comes across it.

The walk is right about a concept within the limits when it is complete, or when neither its own levels
nor its trail cut a path (`Covers`); what is remembered of a concept within the limits is all of its
paths (`Full`). -/

namespace FacetSearch

variable {σ : Type}

/-! ## All paths -/

/-- The maximal paths of an entity, as far as the limit on depth reaches. -/
def upwardPaths (s : ResolverSettings) (answer : String → Option Entity) (e : Entity) :
    List (List Entity) :=
  (waysUp s answer s.maxDepth e).map (·.2)

/-- The paths of an entity through some of its parent names. -/
def pathsVia (s : ResolverSettings) (answer : String → Option Entity) (e : Entity)
    (names : List String) : List (List Entity) :=
  names.flatMap fun name =>
    (answer name).elim [] fun parent => (upwardPaths s answer parent).map (e :: ·)

/-- Neither limit cuts a path of the entity. -/
structure Within (s : ResolverSettings) (answer : String → Option Entity) (e : Entity) : Prop where
  depth : LongestPath s answer e s.maxDepth
  count : (upwardPaths s answer e).length ≤ s.maxChains

section Paths

variable {s : ResolverSettings} {answer : String → Option Entity} {e parent : Entity}

theorem upwardPaths_ne_nil (s : ResolverSettings) (answer : String → Option Entity) (e : Entity) :
    upwardPaths s answer e ≠ [] := by
  simpa [upwardPaths] using waysUp_ne_nil s answer s.maxDepth e

theorem upwardPaths_of_top (h : LongestPath s answer e 0) : upwardPaths s answer e = [[e]] := by
  rw [upwardPaths, waysUp_of_top h.parent?_eq_none, List.map_singleton]

/-- Going through the positions of a list and through its members that count is one. -/
theorem flatMap_range_filter {α β : Type} (names : List α) (counts : α → Bool) (f : α → List β) :
    ((List.range names.length).flatMap fun position =>
        names[position]?.elim [] fun name => if counts name then f name else [])
      = (names.filter counts).flatMap f := by
  induction names with
  | nil => rfl
  | cons name rest ih =>
      rw [List.length_cons, List.range_succ_eq_map, List.flatMap_cons, List.flatMap_map]
      simp only [List.getElem?_cons_zero, List.getElem?_cons_succ, Option.elim_some, ih]
      cases hcounts : counts name <;> simp [hcounts]

/-- The paths go through the parents in order; without a parent there is one, which stays. -/
theorem upwardPaths_eq (h : LongestPath s answer e s.maxDepth) :
    upwardPaths s answer e
      = if (pathsVia s answer e (parentNames s .concept e)).isEmpty then [[e]]
        else pathsVia s answer e (parentNames s .concept e) := by
  have hways : ((List.range e.parents.length).flatMap
      (waysThrough s answer (waysUp s answer s.maxDepth) e)).map (·.2)
      = pathsVia s answer e (parentNames s .concept e) := by
    rw [List.map_flatMap, pathsVia]
    refine Eq.trans ?_ (flatMap_range_filter e.parents (fun name => !s.isRoot name) _)
    refine congrArg (fun f => List.flatMap f _) (funext fun position => ?_)
    unfold waysThrough parent?
    cases e.parents[position]? with
    | none => rfl
    | some name =>
        rw [Option.bind_some, Option.elim_some]
        cases s.isRoot name with
        | true => rfl
        | false => cases answer name <;> simp [upwardPaths]
  rw [← hways, List.isEmpty_map]
  -- one more level than the longest path takes shows the parents with all of theirs
  conv_lhs => rw [upwardPaths, waysUp_eq h (h.mono (Nat.le_succ _)), waysUp]
  split <;> rfl

/-- Through one of the parents there are no more paths than there are in all. -/
theorem length_pathsVia_le (h : LongestPath s answer e s.maxDepth) {before after : List String}
    {name : String} (hsplit : parentNames s .concept e = before ++ name :: after)
    (hparent : answer name = some parent) :
    (pathsVia s answer e before).length + (upwardPaths s answer parent).length
      ≤ (upwardPaths s answer e).length := by
  have hvia : pathsVia s answer e (parentNames s .concept e)
      = pathsVia s answer e before
        ++ ((upwardPaths s answer parent).map (e :: ·) ++ pathsVia s answer e after) := by
    simp [pathsVia, hsplit, hparent]
  rw [upwardPaths_eq h, if_neg]
  · simp only [hvia, List.length_append, List.length_map]
    omega
  · simp [hvia, upwardPaths_ne_nil]

theorem Within.of_parent (h : Within s answer e) {name : String}
    (hname : name ∈ parentNames s .concept e) (hparent : answer name = some parent) :
    Within s answer parent := by
  obtain ⟨before, after, hsplit⟩ := List.append_of_mem hname
  constructor
  · exact h.depth.above (.single (isParent_of_mem_parentNames hname hparent))
  · have hle := length_pathsVia_le h.depth hsplit hparent
    have hcount := h.count
    omega

end Paths

/-! ## Right walks -/

/-- Neither the levels nor the trail cut a path of the entity. -/
structure Uncut (s : ResolverSettings) (answer : String → Option Entity) (levels : Nat)
    (trail : List String) (e : Entity) : Prop where
  longest : LongestPath s answer e levels
  clear : ∀ a, Relation.ReflTransGen (IsParent s answer) e a → a.identifier ∉ trail

/-- The walk through some of the parents of an entity has listed the paths through them. -/
def Lists (s : ResolverSettings) (answer : String → Option Entity) (levels : Nat)
    (trail : List String) (e : Entity) (names : List String) (done : Walk) : Prop :=
  Within s answer e → done.complete = true ∨ Uncut s answer levels trail e →
    done.paths = pathsVia s answer e names

/-- The walk of an entity has found all of its paths. -/
def Covers (s : ResolverSettings) (answer : String → Option Entity) (levels : Nat)
    (trail : List String) (e : Entity) (found : Walk) : Prop :=
  Within s answer e → found.complete = true ∨ Uncut s answer levels trail e →
    found.paths = upwardPaths s answer e

/-- What is remembered of a concept within the limits is all of its paths. -/
def Full (s : ResolverSettings) (answer : String → Option Entity) (m : ChainMemo) : Prop :=
  ∀ raw e chains, answer raw = some e → Within s answer e →
    m.get? .concept e.identifier = some chains →
    chains = (upwardPaths s answer e).map (⟨.concept, ·⟩)

/-- An identifier belongs to one of the entities that are answered with. -/
def Identified (answer : String → Option Entity) : Prop :=
  ∀ raw raw' e e', answer raw = some e → answer raw' = some e' → e.identifier = e'.identifier → e = e'

section Walks

variable {s : ResolverSettings} {answer : String → Option Entity} {e parent : Entity}
  {levels : Nat} {trail : List String} {name : String}

theorem full_empty : Full s answer {} := by
  intro raw e chains _ _ hchains
  exact absurd hchains (by simp)

theorem Full.insert {m : ChainMemo} (h : Full s answer m) (hids : Identified answer) {raw : String}
    (he : answer raw = some e) {kind : HierarchyKind} {chains : List Chain}
    (hchains : kind = .concept → Within s answer e →
      chains = (upwardPaths s answer e).map (⟨.concept, ·⟩)) :
    Full s answer (m.insert kind e.identifier chains) := by
  intro raw' e' chains' he' hwithin hget
  rw [ChainMemo.get?_insert] at hget
  split at hget
  · next hsame =>
    obtain ⟨rfl, hidentifier⟩ := hsame
    obtain rfl := hids _ _ _ _ he he' hidentifier
    obtain rfl := Option.some.inj hget
    exact hchains rfl hwithin
  · exact h raw' e' chains' he' hwithin hget

/-- What is not cut below a parent is not cut at the parent, and the parent is not on the trail. -/
theorem Uncut.of_parent (h : Uncut s answer (levels + 1) trail e) (hids : Identified answer)
    {raw : String} (he : answer raw = some e) (hname : name ∈ parentNames s .concept e)
    (hparent : answer name = some parent) :
    Uncut s answer levels (trail ++ [e.identifier]) parent := by
  have hstep := isParent_of_mem_parentNames hname hparent
  refine ⟨h.longest.of_parent hstep, fun a ha hmem => ?_⟩
  rcases List.mem_append.1 hmem with hmem | hmem
  · exact h.clear a (.head hstep ha) hmem
  · -- an ancestor with the identifier of `e` would be `e`, on a cycle
    have hknown : ∃ raw, answer raw = some a := by
      rcases Relation.ReflTransGen.cases_tail ha with rfl | ⟨below, -, position, hposition⟩
      · exact ⟨name, hparent⟩
      · obtain ⟨name', -, hcounts⟩ := Option.bind_eq_some_iff.1 hposition
        split at hcounts
        · exact absurd hcounts (by simp)
        · exact ⟨name', hcounts⟩
    obtain ⟨raw', hraw'⟩ := hknown
    obtain rfl := hids _ _ _ _ hraw' he (List.mem_singleton.1 hmem)
    exact h.longest.not_above hstep ha

/-- A parent that is skipped has no paths. -/
theorem Lists.skip {names : List String} {done : Walk} (h : Lists s answer levels trail e names done)
    (hnone : answer name = none) : Lists s answer levels trail e (names ++ [name]) done := by
  intro hwithin hright
  rw [h hwithin hright]
  simp [pathsVia, hnone]

/-- A parent on the trail is cut, so the walk is neither complete nor uncut. -/
theorem lists_of_cut {names : List String} {paths : List (List Entity)} (hids : Identified answer)
    {raw : String} (he : answer raw = some e) (hname : name ∈ parentNames s .concept e)
    (hparent : answer name = some parent) (htrail : parent.identifier ∈ trail ++ [e.identifier]) :
    Lists s answer (levels + 1) trail e names { paths, complete := false } := by
  rintro - (habsurd | huncut)
  · exact absurd habsurd (by simp)
  · exact absurd htrail ((huncut.of_parent hids he hname hparent).clear parent .refl)

/-- The paths of one more parent. Within the limits there is room for all of them. -/
theorem Lists.extend {before rest : List String} {done above : Walk}
    (h : Lists s answer (levels + 1) trail e before done) (hids : Identified answer)
    {raw : String} (he : answer raw = some e)
    (hsplit : parentNames s .concept e = before ++ name :: rest)
    (hparent : answer name = some parent)
    (habove : Covers s answer levels (trail ++ [e.identifier]) parent above) :
    Lists s answer (levels + 1) trail e
      (if s.maxChains - done.paths.length < above.paths.length then parentNames s .concept e
        else before ++ [name])
      (done.extend e (s.maxChains - done.paths.length) above) := by
  intro hwithin hright
  have hname : name ∈ parentNames s .concept e := by
    rw [hsplit]
    simp
  have hdone : done.paths = pathsVia s answer e before := by
    refine h hwithin (hright.imp_left fun hcomplete => ?_)
    exact ((Bool.and_eq_true _ _).mp hcomplete).1
  have hpaths : above.paths = upwardPaths s answer parent := by
    refine habove (hwithin.of_parent hname hparent) ?_
    refine hright.imp (fun hcomplete => ?_) fun huncut => huncut.of_parent hids he hname hparent
    exact ((Bool.and_eq_true _ _).mp hcomplete).2
  have hfits : above.paths.length ≤ s.maxChains - done.paths.length := by
    have hle := length_pathsVia_le hwithin.depth hsplit hparent
    have hcount := hwithin.count
    rw [← hdone, ← hpaths] at hle
    omega
  rw [if_neg (Nat.not_lt.2 hfits), Walk.extend, extendPaths, List.take_of_length_le hfits, hdone,
    hpaths]
  simp [pathsVia, hparent]

/-- When all parents are listed, their paths are those of the entity. -/
theorem Lists.covers {done : Walk}
    (h : Lists s answer levels trail e (parentNames s .concept e) done) :
    Covers s answer levels trail e
      (if done.paths.isEmpty then { done with paths := [[e]] } else done) := by
  intro hwithin hright
  have hcomplete : done.complete = true ∨ Uncut s answer levels trail e := by
    split at hright <;> exact hright
  rw [upwardPaths_eq hwithin.depth, ← h hwithin hcomplete]
  split <;> rfl

end Walks

/-! ## The walk -/

section Resolver

variable {b : Backing σ} {s : ResolverSettings} {used : String → Prop}
  {gives : String → Option Entity → Prop} {knows : Session σ → Prop} {fails : Prop}
  {answer : String → Option Entity}

/-- The paths above a parent are right, from memory as from the walk. -/
theorem ensures_pathsAbove_covers (h : Answering b s used gives knows fails)
    (hids : Identified answer) {walk : Entity → Lookups σ Walk} {levels : Nat} {trail : List String}
    {raw : String} {parent : Entity} (hparent : answer raw = some parent)
    (hwalk : Ensures (Knowing knows (Full s answer)) (walk parent)
      (fun found y => Knowing knows (Full s answer) y ∧
        Covers s answer levels trail parent found)
      (fun y => fails ∧ Knowing knows (Full s answer) y)) :
    Ensures (Knowing knows (Full s answer)) (pathsAbove walk parent)
      (fun above y => Knowing knows (Full s answer) y ∧
        Covers s answer levels trail parent above)
      (fun y => fails ∧ Knowing knows (Full s answer) y) := by
  refine ensures_pathsAbove ?_ ?_
  · intro x chains hx hchains
    refine ⟨hx, fun hwithin _ => ?_⟩
    rw [hx.chains _ _ _ hparent hwithin hchains]
    simp [Function.comp_def]
  · refine hwalk.mono (fun _ => And.left) ?_ fun _ => id
    rintro found y ⟨⟨hknows, hfull⟩, hcovers⟩
    split
    · next hcomplete =>
      refine ⟨⟨h.learn hknows, hfull.insert hids hparent fun _ hwithin => ?_⟩, hcovers⟩
      rw [hcovers hwithin (.inl hcomplete)]
    · exact ⟨⟨hknows, hfull⟩, hcovers⟩

/-- The walk through the parents of a concept lists the paths through all of them, when the walk of
    each parent is right. -/
theorem ensures_pathsThrough_lists (h : Answering b s used gives knows fails)
    (hgives : ∀ raw found, gives raw found → found = answer raw) (hids : Identified answer)
    {walk : Entity → Lookups σ Walk} {levels : Nat} {trail : List String} {raw : String} {e : Entity}
    (he : gives raw (some e))
    (hwalk : ∀ raw parent, gives raw (some parent) →
      Ensures (Knowing knows (Full s answer)) (walk parent)
        (fun found y => Knowing knows (Full s answer) y ∧
          Covers s answer levels (trail ++ [e.identifier]) parent found)
        (fun y => fails ∧ Knowing knows (Full s answer) y)) :
    Ensures (Knowing knows (Full s answer))
      (pathsThrough b s e (trail ++ [e.identifier]) walk (parentNames s .concept e)
        { paths := [], complete := true })
      (fun done y => Knowing knows (Full s answer) y ∧
        Lists s answer (levels + 1) trail e (parentNames s .concept e) done)
      (fun y => fails ∧ Knowing knows (Full s answer) y) := by
  have hanswer := (hgives _ _ he).symm
  refine Ensures.mono (h.ensures_pathsThrough
    (fun before done m => Full s answer m ∧ Lists s answer (levels + 1) trail e before done)
    (fun _ _ _ => And.left) he ?unknown ?cut ?above) ?begins ?ends fun _ => id
  case begins => exact fun x hx => ⟨hx.session, hx.chains, fun _ _ => rfl⟩
  case ends => exact fun done y hy => ⟨⟨hy.session, hy.chains.1⟩, hy.chains.2⟩
  case unknown =>
    rintro _ name _ _ ⟨hfull, hlists⟩ hnone
    exact ⟨hfull, hlists.skip (hgives _ _ hnone).symm⟩
  case cut =>
    rintro _ name _ _ parent ⟨hfull, -⟩ hname hparent htrail
    exact ⟨hfull, lists_of_cut hids hanswer hname (hgives _ _ hparent).symm htrail⟩
  case above =>
    intro before name rest done parent hsplit hparent _
    have hanswer' := (hgives _ _ hparent).symm
    refine ensures_of_each ?_
    rintro x ⟨hknows, hfull, hlists⟩
    refine (ensures_pathsAbove_covers h hids hanswer' (hwalk name parent hparent)).mono ?_ ?_
      fun _ => id
    · rintro _ rfl
      exact ⟨hknows, hfull⟩
    · rintro above y ⟨⟨hknows', hfull'⟩, hcovers⟩
      exact ⟨hknows', hfull', hlists.extend hids hanswer hsplit hanswer' hcovers⟩

/-- **The walk of a concept is right**, and leaves what is remembered right. -/
theorem ensures_conceptWalk (h : Answering b s used gives knows fails)
    (hgives : ∀ raw found, gives raw found → found = answer raw) (hids : Identified answer)
    {levels : Nat} {trail : List String} {raw : String} {e : Entity} (he : gives raw (some e)) :
    Ensures (Knowing knows (Full s answer)) (conceptWalk b s levels trail e)
      (fun found y => Knowing knows (Full s answer) y ∧
        Covers s answer levels trail e found)
      (fun y => fails ∧ Knowing knows (Full s answer) y) := by
  induction levels generalizing trail raw e with
  | zero =>
      refine ensures_pure fun x hx => ⟨hx, ?_⟩
      rintro - (habsurd | huncut)
      · exact absurd habsurd (by simp)
      · exact (upwardPaths_of_top huncut.longest).symm
  | succ levels ih =>
      unfold conceptWalk
      refine ensures_bind (ensures_pathsThrough_lists h hgives hids he fun raw parent => ih)
        fun done => ensures_pure fun x hx => ⟨hx.1, hx.2.covers⟩

/-- Listing chains leaves what is remembered right, and gives a concept within the limits all of its
    paths. -/
theorem ensures_ancestorChains_full (h : Answering b s used gives knows fails)
    (hgives : ∀ raw found, gives raw found → found = answer raw) (hids : Identified answer)
    {raw : String} (hraw : used (Text.trim raw)) (kind : HierarchyKind) :
    Ensures (Knowing knows (Full s answer)) (ancestorChains b s raw kind)
      (fun found y => Knowing knows (Full s answer) y ∧
        ∀ e, answer raw = some e → kind = .concept → Within s answer e →
          found = some ((upwardPaths s answer e).map (⟨.concept, ·⟩)))
      (fun y => fails ∧ Knowing knows (Full s answer) y) := by
  refine (h.ensures_ancestorChains_right hraw (fun e chains => kind = .concept → Within s answer e →
    chains = (upwardPaths s answer e).map (⟨.concept, ·⟩)) ?_ ?_ ?_).mono (fun _ => id) ?_ fun _ => id
  · rintro e chains m hm he hget rfl hwithin
    exact hm _ _ _ (hgives _ _ he).symm hwithin hget
  · exact fun e chains m hm he hchains => Full.insert hm hids (hgives _ _ he).symm hchains
  · intro e he
    cases kind with
    | concept =>
        refine ensures_bind (ensures_conceptWalk h hgives hids he) fun found => ensures_pure ?_
        rintro x ⟨hx, hcovers⟩
        refine ⟨hx, fun _ hwithin => ?_⟩
        have huncut : Uncut s answer s.maxDepth [] e := ⟨hwithin.depth, by simp⟩
        rw [hcovers hwithin (.inr huncut)]
    | spatial | project =>
        exact ensures_bind (h.ensures_climb (Full s answer) he) fun path =>
          ensures_pure fun x hx => ⟨hx.1, by simp⟩
  · rintro found y ⟨hy, hfound⟩
    refine ⟨hy, fun e he hkind hwithin => ?_⟩
    cases found with
    | none => exact absurd ((hgives _ _ hfound).trans he) (by simp)
    | some chains =>
        obtain ⟨e', he', hchains⟩ := hfound
        obtain rfl := Option.some.inj ((hgives _ _ he').trans he)
        rw [hchains hkind hwithin]

end Resolver

/-! ## Chains over a catalogue -/

theorem identified_answer {entities : List Entity} (hapart : Catalogue.NamesApart entities)
    (s : ResolverSettings) : Identified (s.answer (Catalogue.ofList entities).find?) := by
  have hfound : ∀ {raw e}, s.answer (Catalogue.ofList entities).find? raw = some e →
      (Catalogue.ofList entities).find? e.identifier = some e := by
    intro raw e he
    unfold ResolverSettings.answer at he
    split at he
    · exact absurd he (by simp)
    · exact hapart.find?_identifier he
  intro raw raw' e e' he he' hsame
  exact Option.some.inj ((hfound he).symm.trans (hsame ▸ hfound he'))

theorem within_of_encard_le {s : ResolverSettings} {answer : String → Option Entity} {e : Entity}
    (hdepth : LongestPath s answer e s.maxDepth)
    (hcount : {route | ∃ path, MaximalPath s answer e route path}.encard ≤ s.maxChains) :
    Within s answer e := by
  refine ⟨hdepth, ?_⟩
  rw [encard_routes hdepth, Nat.cast_le] at hcount
  rwa [upwardPaths, List.length_map]

/-- **The chains of a concept are its maximal paths upward**, in the order of the positions of their
    parents, none missing and none twice: over a steady catalogue whose entities share no names, after
    any calls, when the longest path has at most as many hops as the limit on depth and there are no
    more paths than the limit on chains. (With a longest path there is no cycle above the concept.) -/
theorem ancestorChains_concept {b : Backing σ} {s : ResolverSettings} {used : String → Prop}
    {sound : σ → Prop} {entities : List Entity} (hapart : Catalogue.NamesApart entities)
    (hsteady : Steady b s.cacheSpace used
      (fun name => .ok ((Catalogue.ofList entities).find? name)) sound)
    (hparents : ∀ e ∈ entities, ∀ parent ∈ e.parents, used (Text.trim parent))
    {world : σ} (hworld : sound world) {calls : List ResolverCall}
    (hcalls : ∀ call ∈ calls, used (Text.trim call.name)) {name : String}
    (hname : used (Text.trim name)) {n : Entity}
    (hn : s.answer (Catalogue.ofList entities).find? name = some n)
    (hdepth : LongestPath s (s.answer (Catalogue.ofList entities).find?) n s.maxDepth)
    (hcount : {route | ∃ path, MaximalPath s (s.answer (Catalogue.ofList entities).find?) n route
      path}.encard ≤ s.maxChains) :
    ∃ routes chains,
      (((ancestorChains b s name .concept).run).run (afterCalls b s world calls)).1
        = .ok (some chains) ∧
      routes.Pairwise (· < ·) ∧
      (∀ route, route ∈ routes ↔
        ∃ path, MaximalPath s (s.answer (Catalogue.ofList entities).find?) n route path) ∧
      List.Forall₂ (fun route chain => chain.kind = .concept ∧
        MaximalPath s (s.answer (Catalogue.ofList entities).find?) n route chain.entities)
        routes chains := by
  have hanswering := hsteady.answering fun name e _ he =>
    hparents e (Catalogue.mem_of_find?_ofList (Except.ok.inj he)).1
  have hwithin := within_of_encard_le hdepth hcount
  generalize hanswer : s.answer (Catalogue.ofList entities).find? = answer at *
  have hgives : ∀ raw found, s.MayAnswer used
      (fun name => .ok ((Catalogue.ofList entities).find? name)) raw found → found = answer raw :=
    fun _ _ h => hanswer ▸ h.eq_answer_of_namesApart hapart
  have hidentified : Identified answer := hanswer ▸ identified_answer hapart s
  have hchains : ∀ name kind, used (Text.trim name) → _ := fun name kind hused =>
    ensures_ancestorChains_full hanswering hgives hidentified hused kind
  -- every call leaves all paths of the concepts within the limits, and so does this one
  have hafter := hanswering.afterCalls_of_ensures (Full s answer) ⟨hworld, Memo.recalls_empty⟩
    full_empty hcalls fun name kind hused _ =>
      (hchains name kind hused).mono (fun _ => id) (fun _ _ hy => hy.1) fun _ => id
  obtain ⟨found, y, hrun, -, hfound⟩ := (hchains name .concept hname).exists_ok (by simp) hafter
  refine ⟨(waysUp s answer s.maxDepth n).map (·.1), (upwardPaths s answer n).map (⟨.concept, ·⟩),
    ?_, ?_, ?_, ?_⟩
  · rw [hrun, hfound n hn rfl hwithin]
  · exact List.pairwise_map.2 (pairwise_waysUp s answer s.maxDepth n)
  · intro route
    simp only [List.mem_map, Prod.exists, exists_and_right, exists_eq_right]
    exact exists_congr fun path => mem_waysUp hdepth
  · rw [upwardPaths, List.forall₂_map_right_iff, List.forall₂_map_left_iff,
      List.forall₂_map_right_iff, List.forall₂_same]
    exact fun way hway => ⟨rfl, (mem_waysUp hdepth).1 hway⟩

/-- A concept with its parents. -/
def Entity.concept (identifier : String) (parents : List String) : Entity :=
  { Entity.make identifier (identifier ++ "-slug") identifier .concept with parents }

/-- Sheep have two parents, and the paths through them meet again. -/
def sheep : Entity := .concept "sheep" ["mammal", "missing", "domestic"]

/-- Animals, and two concepts that are above each other. -/
def animals : List Entity :=
  [sheep, .concept "mammal" ["root", "animal"], .concept "domestic" ["animal-slug"],
    .concept "animal" [], .concept "wild" ["tame", "sheep"], .concept "tame" ["wild"]]

/-- A catalogue of animals whose cache cannot be read. -/
def animalDeployment : Deployment where
  catalogue := .ofList animals
  cache := .empty 8
  readsFail := true

/-- Calls of which some meet a cycle and some come to no entity. -/
def animalCalls : List ResolverCall :=
  [.chains "wild" .concept, .resolve "missing", .nearest "tame" .spatial .geo,
    .chains "tame" .concept, .chains "mammal" .spatial, .chains "domestic" .concept]

theorem longestPath_sheep :
    LongestPath {} (ResolverSettings.answer {} (Catalogue.ofList animals).find?) sheep 30 := by
  decide +kernel

theorem length_waysUp_sheep :
    (waysUp {} (ResolverSettings.answer {} (Catalogue.ofList animals).find?) 30 sheep).length = 2 := by
  decide +kernel

theorem ancestorChains_concept_sheep :
    ∃ routes chains,
      (((ancestorChains Deployment.backing {} " sheep-slug" .concept).run).run
        (afterCalls Deployment.backing {} animalDeployment animalCalls)).1 = .ok (some chains) ∧
      routes.Pairwise (· < ·) ∧
      (∀ route, route ∈ routes ↔ ∃ path, MaximalPath {}
        (ResolverSettings.answer {} (Catalogue.ofList animals).find?) sheep route path) ∧
      List.Forall₂ (fun route chain => chain.kind = .concept ∧ MaximalPath {}
        (ResolverSettings.answer {} (Catalogue.ofList animals).find?) sheep route chain.entities)
        routes chains := by
  have hapart : Catalogue.NamesApart animals := by decide +kernel
  have hsheep : ResolverSettings.answer {} (Catalogue.ofList animals).find? " sheep-slug"
      = some sheep := by decide +kernel
  have hsteady := @Deployment.steady_of_readsFail "entity" (.ofList animals) false
  refine ancestorChains_concept hapart hsteady (fun _ _ _ _ => trivial) ⟨rfl, rfl, rfl⟩
    (fun _ _ => trivial) trivial hsheep longestPath_sheep ?_
  rw [encard_routes longestPath_sheep, Nat.cast_le, length_waysUp_sheep]
  decide

example :
    (((ancestorChains Deployment.backing {} "sheep" .concept).run).run
      (afterCalls Deployment.backing {} animalDeployment animalCalls)).1.toOption.join.map
        (·.map Chain.identifiers)
      = some [["sheep", "mammal", "animal"], ["sheep", "domestic", "animal"]] := by decide +kernel

end FacetSearch
