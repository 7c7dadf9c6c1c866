import FacetSearch.Proofs.Ancestry.Names
import FacetSearch.Proofs.Ancestry.Uncached

set_option autoImplicit false

/-! # Recognition of entities

A name is skipped, known, cached or asked for (`resolved_resolve?`), and what was answered stays known. A
cache may have an older text of an entity than the catalogue; as long as that has the same identifier, a
resolver recognizes the entity behind a name by its identifier (`Recognizing.answering`). So it finds the
chains of an entity again once it has listed them, and searches in them for metadata without any further
lookup (`Recognizing.nearestMetadata_of_ancestorChains`). -/

namespace FacetSearch

variable {σ : Type}

/-! ## Ways to resolve a name -/

section Resolving

variable (b : Backing σ) (s : ResolverSettings) (raw : String) (x : Session σ)

/-- What the cache has for a name, and the world after it was read. -/
def Backing.cached (space name : String) (world : σ) : Option Entity × σ :=
  ((b.fetch (Lru.key space name) world).1.bind Entity.ofSnapshot?, (b.fetch (Lru.key space name) world).2)

/-- The world after an entity that was found is written to the cache. -/
def Backing.written (key : String) (found : Option Entity) (world : σ) : σ :=
  found.elim world fun e => b.keep key e.snapshot world

/-- The ways in which a name is resolved. -/
inductive Resolved : Except StoreError (Option Entity) × Session σ → Prop where
  | skipped (h : ((Text.trim raw).isEmpty || s.isRoot (Text.trim raw)) = true) :
    Resolved (.ok none, x)
  | known {answer : Option Entity} (hname : s.LooksUp (Text.trim raw))
    (h : x.memo.entities[Text.trim raw]? = some answer) :
    Resolved (.ok answer, x)
  | cached {e : Entity} (hname : s.LooksUp (Text.trim raw))
    (hnew : x.memo.entities[Text.trim raw]? = none)
    (h : (b.cached s.cacheSpace (Text.trim raw) x.world).1 = some e) :
    Resolved (.ok (some e), ⟨x.memo.remember (Text.trim raw) (some e),
      (b.cached s.cacheSpace (Text.trim raw) x.world).2⟩)
  | found {found : Option Entity} (hname : s.LooksUp (Text.trim raw))
    (hnew : x.memo.entities[Text.trim raw]? = none)
    (hmiss : (b.cached s.cacheSpace (Text.trim raw) x.world).1 = none)
    (h : (b.find (Text.trim raw) (b.cached s.cacheSpace (Text.trim raw) x.world).2).1 = .ok found) :
    Resolved (.ok found, ⟨x.memo.remember (Text.trim raw) found,
      b.written (Lru.key s.cacheSpace (Text.trim raw)) found
        (b.find (Text.trim raw) (b.cached s.cacheSpace (Text.trim raw) x.world).2).2⟩)
  | failed {error : StoreError} (hname : s.LooksUp (Text.trim raw))
    (hnew : x.memo.entities[Text.trim raw]? = none)
    (hmiss : (b.cached s.cacheSpace (Text.trim raw) x.world).1 = none)
    (h : (b.find (Text.trim raw) (b.cached s.cacheSpace (Text.trim raw) x.world).2).1 = .error error) :
    Resolved (.error error,
      ⟨x.memo, (b.find (Text.trim raw) (b.cached s.cacheSpace (Text.trim raw) x.world).2).2⟩)

/-- **A name is skipped, known, cached or asked for.** -/
theorem resolved_resolve? : Resolved b s raw x (((resolve? b s raw).run).run x) := by
  unfold resolve?
  by_cases hskip : ((Text.trim raw).isEmpty || s.isRoot (Text.trim raw)) = true
  · simp only [if_pos hskip, run_pure_lookups]
    exact .skipped hskip
  · have hname := ResolverSettings.looksUp_trim hskip
    simp only [if_neg hskip, run_bind_lookups, run_get_lookups]
    cases hmemo : x.memo.entities[Text.trim raw]? with
    | some answer => exact .known hname hmemo
    | none =>
        simp only [run_bind_lookups, run_onWorld]
        cases hcached : (b.fetch (Lru.key s.cacheSpace (Text.trim raw)) x.world).1.bind
            Entity.ofSnapshot? with
        | some e => exact .cached hname hmemo hcached
        | none =>
            simp only [consult, run_bind_lookups, run_onWorld]
            cases hfind : (b.find (Text.trim raw)
                (b.fetch (Lru.key s.cacheSpace (Text.trim raw)) x.world).2).1 with
            | error error => exact .failed hname hmemo hcached hfind
            | ok found =>
                have hfound := Resolved.found hname hmemo hcached hfind
                cases found with
                | none => exact hfound
                | some e => exact hfound

end Resolving

/-! ## What stays remembered -/

/-- A name is remembered once it was answered, and so is the identifier of an entity that was the answer;
    nothing is forgotten. -/
theorem Memo.mem_remember {m : Memo} {name name' : String} {answer : Option Entity} :
    name' ∈ (m.remember name answer).entities
      ↔ name' = name ∨ (∃ e, answer = some e ∧ e.identifier = name') ∨ name' ∈ m.entities := by
  cases answer with
  | none =>
      simp only [remember, Std.ExtTreeMap.mem_insert, Std.compare_eq_iff_eq, reduceCtorEq, false_and,
        exists_false, false_or]
      rw [eq_comm]
  | some e =>
      by_cases hsame : e.identifier = name
      · simp only [remember, if_pos hsame, Std.ExtTreeMap.mem_insert, Std.compare_eq_iff_eq,
          Option.some.injEq, exists_eq_left']
        rw [hsame, eq_comm]
        tauto
      · simp only [remember, if_neg hsame, Std.ExtTreeMap.mem_insert, Std.compare_eq_iff_eq,
          Option.some.injEq, exists_eq_left']
        rw [eq_comm]

theorem Memo.notMem_of_getElem? {m : Memo} {name : String} (h : m.entities[name]? = none) :
    name ∉ m.entities := by
  rw [Std.ExtTreeMap.mem_iff_isSome_getElem?, h]
  simp

theorem mem_entities_resolve? {b : Backing σ} {s : ResolverSettings} {raw name : String}
    {x : Session σ} (h : name ∈ x.memo.entities) :
    name ∈ (((resolve? b s raw).run).run x).2.memo.entities := by
  have hrun := resolved_resolve? b s raw x
  generalize ((resolve? b s raw).run).run x = result at hrun ⊢
  cases hrun with
  | skipped | known | failed => exact h
  | cached | found =>
      dsimp only
      exact Memo.mem_remember.2 (.inr (.inr h))

/-- Whatever stands behind a resolver, a name that is remembered stays so. -/
theorem answering_remembered (b : Backing σ) (s : ResolverSettings) (name : String) :
    Answering b s (fun _ => True) (fun _ _ => True) (fun x => name ∈ x.memo.entities) True where
  resolve := by
    intro raw _
    refine ⟨fun x hx => ?_⟩
    have hkept : name ∈ (((resolve? b s raw).run).run x).2.memo.entities := mem_entities_resolve? hx
    generalize ((resolve? b s raw).run).run x = result at hkept ⊢
    obtain ⟨_ | found, y⟩ := result
    · exact .error ⟨trivial, hkept⟩
    · exact .ok ⟨hkept, trivial⟩
  parents := fun _ _ _ => trivial
  learn := fun hx => hx

/-- A name of which chains were listed is remembered. -/
theorem ensures_ancestorChains_remembered (b : Backing σ) (s : ResolverSettings) (raw : String)
    (kind : HierarchyKind) :
    Ensures (fun _ => True) (ancestorChains b s raw kind)
      (fun found y => found.isSome = true →
        s.LooksUp (Text.trim raw) ∧ Text.trim raw ∈ y.memo.entities)
      (fun _ => True) := by
  have hresolve : Ensures (fun _ => True) (resolve? b s raw) (fun found y => found.isSome = true →
      s.LooksUp (Text.trim raw) ∧ Text.trim raw ∈ y.memo.entities) (fun _ => True) := by
    refine ⟨fun x _ => ?_⟩
    have hrun := resolved_resolve? b s raw x
    generalize ((resolve? b s raw).run).run x = result at hrun ⊢
    cases hrun with
    | skipped => exact .ok fun hfound => absurd hfound (by simp)
    | known hname hknown =>
        exact .ok fun _ => ⟨hname, Std.ExtTreeMap.mem_iff_isSome_getElem?.2 (by rw [hknown]; rfl)⟩
    | cached hname | found hname =>
        refine .ok fun _ => ⟨hname, ?_⟩
        dsimp only
        exact Memo.mem_remember.2 (.inl rfl)
    | failed => exact .error trivial
  unfold ancestorChains
  refine ensures_bind hresolve fun found => ?_
  cases found with
  | none => exact ensures_pure fun _ _ hchains => absurd hchains (by simp)
  | some e =>
      -- whatever is looked up for the chains, the name stays remembered
      have hwalk := (answering_remembered b s (Text.trim raw)).ensures_walkChains_of_stable
        (fun _ => True) (fun _ _ _ _ => id) raw (e := e) trivial kind
      refine ensures_bind (ensures_knownChains kind e.identifier) fun chains => ?_
      cases chains with
      | some chains => exact ensures_pure fun x hx _ => hx.1 rfl
      | none =>
          refine ensures_bind (ensures_of_each fun x hx => ?_) fun chains =>
            ensures_bind (ensures_rememberChains
              (fun y => s.LooksUp (Text.trim raw) ∧ Text.trim raw ∈ y.memo.entities)
              fun x hx => hx) fun _ => ensures_pure fun x hx _ => hx
          obtain ⟨hname, hmem⟩ := hx.1 rfl
          exact hwalk.mono (fun _ he => he ▸ ⟨hmem, trivial⟩) (fun _ y hy => ⟨hname, hy.session⟩)
            fun _ _ => trivial

/-! ## Entities and their identifiers -/

section Recognition

variable (used : String → Prop) (owner : String → Option Entity)

/-- What is answered to a name has the identifier of what the catalogue finds, and parents in use. -/
structure Recognized (name : String) (found : Option Entity) : Prop where
  identifier : found.map (·.identifier) = (owner name).map (·.identifier)
  parents : ∀ e, found = some e → ParentsUsed used e

/-- All that is remembered of names is recognized. -/
def Memo.Recognizes (m : Memo) : Prop :=
  ∀ name found, m.entities[name]? = some found → Recognized used owner name found

/-- In the worlds that are `sound`, the catalogue answers the names in use as `owner` does. What the cache
    holds for such a name has the identifier of the answer, and parents in use; it may be an older text of
    the entity. The world stays sound with every step of a resolver. -/
structure Recognizing {σ : Type} (b : Backing σ) (space : String) (sound : σ → Prop) : Prop where
  find : ∀ {name world}, used name → sound world →
    (b.find name world).1 = .ok (owner name) ∧ sound (b.find name world).2
  fetch : ∀ {name world}, used name → sound world → sound (b.fetch (Lru.key space name) world).2
  fetched : ∀ {name world e}, used name → sound world →
    (b.fetch (Lru.key space name) world).1.bind Entity.ofSnapshot? = some e →
    Recognized used owner name (some e)
  keep : ∀ {name world e}, used name → sound world → owner name = some e →
    sound (b.keep (Lru.key space name) e.snapshot world)
  parents : ∀ {name e}, used name → owner name = some e → ParentsUsed used e

end Recognition

section

variable {b : Backing σ} {s : ResolverSettings} {used : String → Prop}
  {owner : String → Option Entity} {sound : σ → Prop} {m : Memo} {name : String}
  {found : Option Entity}

/-- A steady catalogue is recognized. -/
theorem Steady.recognizing {space : String}
    (h : Steady b space used (fun name => .ok (owner name)) sound)
    (hparents : ∀ name e, used name → owner name = some e → ParentsUsed used e) :
    Recognizing used owner b space sound where
  find := h.find
  fetch := h.fetch
  fetched hname hworld he := by
    have hfind := Except.ok.inj (h.fetched hname hworld he)
    exact ⟨by rw [hfind], fun e' he' => hparents _ e' hname (hfind.trans he')⟩
  keep hname hworld hfind := h.keep hname hworld (congrArg Except.ok hfind)
  parents := hparents _ _

/-- A name that is looked up is answered with what the catalogue finds. -/
theorem ResolverSettings.LooksUp.answer_eq {raw : String} (h : s.LooksUp (Text.trim raw)) :
    s.answer owner raw = owner (Text.trim raw) := by
  rw [ResolverSettings.answer, h.skips]
  rfl

theorem Memo.recognizes_empty : ({} : Memo).Recognizes used owner := by
  intro name found hfound
  exact absurd hfound (by simp)

theorem Memo.Recognizes.remember (h : m.Recognizes used owner)
    (hids : ∀ name e, owner name = some e → owner e.identifier = some e)
    (hfound : Recognized used owner name found) : (m.remember name found).Recognizes used owner := by
  intro name' answer hanswer
  rcases Memo.of_getElem?_remember hanswer with ⟨rfl, rfl | ⟨e, rfl, rfl⟩⟩ | hold
  · exact hfound
  · -- the catalogue finds an entity of this identifier under the identifier as well
    obtain ⟨e', hfind, hsame⟩ := Option.map_eq_some_iff.1 hfound.identifier.symm
    refine ⟨?_, hfound.parents⟩
    have hsame : e'.identifier = e.identifier := hsame
    rw [← hsame, hids name e' hfind, Option.map_some, Option.map_some, hsame]
  · exact h name' answer hold

/-- **An entity is recognized by its identifier**, whether the catalogue or the cache had it. -/
theorem Recognizing.answering (h : Recognizing used owner b s.cacheSpace sound)
    (hids : ∀ name e, owner name = some e → owner e.identifier = some e) :
    Answering b s used (fun raw found => Recognized used (s.answer owner) raw found)
      (fun x => sound x.world ∧ x.memo.Recognizes used owner) False where
  resolve := by
    intro raw hraw
    refine ⟨fun x ⟨hsound, hmemo⟩ => ?_⟩
    have hfetch := h.fetch hraw hsound
    have hrun := resolved_resolve? b s raw x
    generalize ((resolve? b s raw).run).run x = result at hrun ⊢
    have hright {found : Option Entity} (hname : s.LooksUp (Text.trim raw))
        (hfound : Recognized used owner (Text.trim raw) found) :
        Recognized used (s.answer owner) raw found :=
      ⟨hfound.identifier.trans (by rw [hname.answer_eq]), hfound.parents⟩
    cases hrun with
    | skipped hskip =>
        have hnone : s.answer owner raw = none := by rw [ResolverSettings.answer, if_pos hskip]
        exact .ok ⟨⟨hsound, hmemo⟩, by rw [hnone], fun e he => absurd he (by simp)⟩
    | known hname hknown => exact .ok ⟨⟨hsound, hmemo⟩, hright hname (hmemo _ _ hknown)⟩
    | cached hname _ hcached =>
        have he := h.fetched hraw hsound hcached
        have hmemo' := hmemo.remember hids he
        exact .ok ⟨⟨hfetch, hmemo'⟩, hright hname he⟩
    | @found found hname _ _ hfound =>
        have hfind := h.find hraw hfetch
        obtain rfl := Except.ok.inj (hfound.symm.trans hfind.1)
        have hself : Recognized used owner (Text.trim raw) (owner (Text.trim raw)) :=
          ⟨rfl, fun e he => h.parents hraw he⟩
        have hmemo' := hmemo.remember hids hself
        refine .ok ⟨⟨?_, hmemo'⟩, hright hname hself⟩
        cases hcase : owner (Text.trim raw) with
        | none => exact hfind.2
        | some e => exact h.keep hraw hfind.2 hcase
    | failed _ _ _ hfailed =>
        exact absurd ((h.find hraw hfetch).1.symm.trans hfailed) (by simp)
  parents := fun he => he.parents _ rfl
  learn := fun hx => hx

/-! ## Chains that were listed -/

/-- Some chains are remembered for the entity that the catalogue finds under a name. -/
def ChainMemo.Lists (m : ChainMemo) (owner : String → Option Entity) (name : String)
    (kind : HierarchyKind) : Prop :=
  ∀ e, owner name = some e → (m.get? kind e.identifier).isSome = true

theorem ChainMemo.Lists.insert {m : ChainMemo} {kind kind' : HierarchyKind} {identifier : String}
    {chains : List Chain} (h : m.Lists owner name kind) :
    (m.insert kind' identifier chains).Lists owner name kind := by
  intro e he
  rw [get?_insert]
  split
  · rfl
  · exact h e he

/-- What is known of the session of a resolver that recognizes entities. -/
def Session.Recognizes (x : Session σ) (used : String → Prop) (owner : String → Option Entity)
    (sound : σ → Prop) : Prop :=
  sound x.world ∧ x.memo.Recognizes used owner

/-- The name and its chains are remembered. -/
structure Session.Listed (x : Session σ) (s : ResolverSettings) (owner : String → Option Entity)
    (raw : String) (kind : HierarchyKind) : Prop where
  name : s.LooksUp (Text.trim raw)
  owned : (owner (Text.trim raw)).isSome = true
  remembered : Text.trim raw ∈ x.memo.entities
  chains : x.memo.chains.Lists owner (Text.trim raw) kind

section

variable {raw : String} {kind : HierarchyKind} {x : Session σ}

/-- **Where a name and its chains are remembered, metadata is found without a lookup.** -/
theorem Session.Listed.exists_run_nearestMetadata (hx : x.Listed s owner raw kind)
    (hmemo : x.memo.Recognizes used owner) (metadata : MetadataKind) :
    ∃ found, ((nearestMetadata b s raw kind metadata).run).run x = (.ok (some found), x) := by
  have hnew {answer : Prop} (hnone : x.memo.entities[Text.trim raw]? = none) : answer :=
    absurd hx.remembered (Memo.notMem_of_getElem? hnone)
  unfold nearestMetadata
  rw [run_bind_lookups]
  have hrun := resolved_resolve? b s raw x
  generalize ((resolve? b s raw).run).run x = result at hrun ⊢
  cases hrun with
  | skipped hskip => exact absurd (hx.name.skips.symm.trans hskip) (by simp)
  | cached _ hnone | found _ hnone | failed _ hnone => exact hnew hnone
  | known _ hknown =>
      obtain ⟨e, howner⟩ := Option.isSome_iff_exists.1 hx.owned
      have hsame := (hmemo _ _ hknown).identifier
      rw [howner] at hsame
      obtain ⟨e', rfl, hidentifier⟩ := Option.map_eq_some_iff.1 hsame
      dsimp only
      cases e'.inherited? metadata with
      | some hit => exact ⟨some hit, rfl⟩
      | none =>
          obtain ⟨chains, hchains⟩ := Option.isSome_iff_exists.1 (hx.chains e howner)
          refine ⟨nearestInChains metadata chains, ?_⟩
          simp only [knownChains, run_bind_lookups, run_get_lookups, run_pure_lookups]
          rw [hidentifier, hchains]
          rfl

variable (h : Recognizing used owner b s.cacheSpace sound)
  (hids : ∀ name e, owner name = some e → owner e.identifier = some e)

include h hids

theorem Recognizing.recognizes_after {call : ResolverCall} (hcall : used (Text.trim call.name))
    (hx : x.Recognizes used owner sound) : (call.after b s x).Recognizes used owner sound :=
  (h.answering hids).after_of_knows hcall hx

/-- Listing the chains of a name remembers it, and them for the entity that the catalogue finds. -/
theorem Recognizing.listed_ancestorChains (hx : x.Recognizes used owner sound)
    (hraw : used (Text.trim raw)) {chains : List Chain}
    (hchains : (((ancestorChains b s raw kind).run).run x).1 = .ok (some chains)) :
    (((ancestorChains b s raw kind).run).run x).2.Listed s owner raw kind := by
  obtain ⟨hname, hmem⟩ := (ensures_ancestorChains_remembered b s raw kind).of_ok trivial hchains rfl
  obtain ⟨-, hlisted⟩ := ((h.answering hids).ensures_ancestorChains_of_stable
    (fun _ => True) (fun _ _ _ _ => id) hraw kind).of_ok ⟨hx, trivial⟩ hchains
  obtain ⟨e, hgives, hget⟩ := hlisted chains rfl
  have hsame := hgives.identifier
  rw [hname.answer_eq] at hsame
  obtain ⟨e', howner, hidentifier⟩ := Option.map_eq_some_iff.1 hsame.symm
  have hidentifier : e'.identifier = e.identifier := hidentifier
  refine ⟨hname, by rw [howner]; rfl, hmem, fun e'' he'' => ?_⟩
  obtain rfl := Option.some.inj (howner.symm.trans he'')
  rw [hidentifier, hget]
  rfl

/-- A call keeps in mind what was listed. -/
theorem Recognizing.listed_after {call : ResolverCall} (hcall : used (Text.trim call.name))
    (hx : x.Recognizes used owner sound) (hlisted : x.Listed s owner raw kind) :
    (call.after b s x).Listed s owner raw kind where
  name := hlisted.name
  owned := hlisted.owned
  remembered := (answering_remembered b s (Text.trim raw)).after_of_knows trivial hlisted.remembered
  chains := ((h.answering hids).after_of_stable (·.Lists owner (Text.trim raw) kind)
    (fun _ _ _ _ => ChainMemo.Lists.insert) hcall ⟨hx, hlisted.chains⟩).chains

/-- **Once the chains of an entity were listed, metadata above it is found without any lookup**: nothing
    that stands behind the resolver is touched. -/
theorem Recognizing.nearestMetadata_of_ancestorChains {world : σ} (hworld : sound world)
    {before after : List ResolverCall} (hbefore : ∀ call ∈ before, used (Text.trim call.name))
    (hafter : ∀ call ∈ after, used (Text.trim call.name)) (hraw : used (Text.trim raw))
    {chains : List Chain}
    (hchains : (((ancestorChains b s raw kind).run).run (afterCalls b s world before)).1
      = .ok (some chains)) (metadata : MetadataKind) :
    ∃ found, ((nearestMetadata b s raw kind metadata).run).run
        (afterCalls b s world (before ++ .chains raw kind :: after))
      = (.ok (some found), afterCalls b s world (before ++ .chains raw kind :: after)) := by
  have hstart : (afterCalls b s world before).Recognizes used owner sound :=
    afterCalls_induction (·.Recognizes used owner sound) ⟨hworld, Memo.recognizes_empty⟩
      fun call hcall x hx => h.recognizes_after hids (hbefore call hcall) hx
  have hlisted : ((ResolverCall.chains raw kind).after b s
      (afterCalls b s world before)).Listed s owner raw kind :=
    h.listed_ancestorChains hids hstart hraw hchains
  have hnext : ((ResolverCall.chains raw kind).after b s
      (afterCalls b s world before)).Recognizes used owner sound := h.recognizes_after hids hraw hstart
  rw [afterCalls_append, List.foldl_cons]
  have hlater := foldl_after_induction
    (fun x => x.Recognizes used owner sound ∧ x.Listed s owner raw kind) ⟨hnext, hlisted⟩
    fun call hcall x hx => ⟨h.recognizes_after hids (hafter call hcall) hx.1,
      h.listed_after hids (hafter call hcall) hx.1 hx.2⟩
  exact hlater.2.exists_run_nearestMetadata hlater.1.2 metadata

end

end

end FacetSearch
