import FacetSearch.Proofs.Ancestry.Recognition
import FacetSearch.Proofs.Ancestry.SharedCache

set_option autoImplicit false

/-! # Questions to the catalogue

A journal of what a resolver asks the catalogue and reads from the cache (`Backing.journaled`) shows that
it asks for each name at most once: what was asked is remembered, and so is the identifier of every entity
that was found, wherever it came from. Nothing at all is asked or read for metadata above an entity of
which the chains were listed (`asked_once`). -/

namespace FacetSearch

variable {σ : Type}

/-! ## Journals -/

/-- What a resolver does outside of its memory that tells it something. -/
inductive Event where
  | asked (name : String) (answer : Except StoreError (Option Entity))
  | read (key : String) (text : Option String)

namespace Event

/-- The name that the catalogue was asked for. -/
def question? : Event → Option String
  | asked name _ => some name
  | read _ _ => none

/-- The entity that was found, in the catalogue or in the cache. -/
def entity? : Event → Option Entity
  | asked _ answer => answer.toOption.join
  | read _ text => text.bind Entity.ofSnapshot?

end Event

/-- The names that the catalogue was asked for. -/
def questions (events : List Event) : List String := events.filterMap Event.question?

/-- The same catalogue and cache with a journal of what was asked and read, the latest first. -/
def Backing.journaled (b : Backing σ) : Backing (σ × List Event) where
  find name w := ((b.find name w.1).1, (b.find name w.1).2, .asked name (b.find name w.1).1 :: w.2)
  fetch key w := ((b.fetch key w.1).1, (b.fetch key w.1).2, .read key (b.fetch key w.1).1 :: w.2)
  keep key text w := (b.keep key text w.1, w.2)

/-- In the worlds that are `live`, the catalogue answers every name, and they stay live. -/
structure Responsive (b : Backing σ) (live : σ → Prop) : Prop where
  find : ∀ name {world}, live world →
    (∃ found, (b.find name world).1 = .ok found) ∧ live (b.find name world).2
  fetch : ∀ key {world}, live world → live (b.fetch key world).2
  keep : ∀ key text {world}, live world → live (b.keep key text world)

/-- The catalogue is asked for names that are looked up, for none twice, and for none that is the
    identifier of an entity found before. (The latest event comes first.) -/
structure Orderly (s : ResolverSettings) (events : List Event) : Prop where
  looksUp : ∀ name ∈ questions events, s.LooksUp name
  once : (questions events).Nodup
  news : events.Pairwise fun later earlier => ∀ name e, later.question? = some name →
    earlier.entity? = some e → name ≠ e.identifier

theorem orderly_nil (s : ResolverSettings) : Orderly s [] where
  looksUp := by simp [questions]
  once := List.nodup_nil
  news := .nil

/-- A journal with a memory of all that was asked and found. -/
structure Logged (s : ResolverSettings) (m : Memo) (events : List Event) : Prop where
  orderly : Orderly s events
  asked : ∀ name ∈ questions events, name ∈ m.entities
  found : ∀ event ∈ events, ∀ e, event.entity? = some e → e.identifier ∈ m.entities

section Logs

variable {s : ResolverSettings} {m : Memo} {events : List Event} {name : String}

theorem Logged.mono {m' : Memo} (h : Logged s m events)
    (hm : ∀ name ∈ m.entities, name ∈ m'.entities) : Logged s m' events :=
  ⟨h.orderly, fun name hname => hm _ (h.asked name hname),
    fun event hevent e he => hm _ (h.found event hevent e he)⟩

/-- Reading the cache asks nothing. -/
theorem Logged.read (h : Logged s m events) {key : String} {text : Option String}
    (hfound : ∀ e, text.bind Entity.ofSnapshot? = some e → e.identifier ∈ m.entities) :
    Logged s m (.read key text :: events) where
  orderly := ⟨h.orderly.looksUp, h.orderly.once,
    .cons (fun _ _ _ _ hasked => absurd hasked (by simp [Event.question?])) h.orderly.news⟩
  asked := h.asked
  found := List.forall_mem_cons.2 ⟨hfound, h.found⟩

/-- Only a name that is not remembered is asked for. -/
theorem Logged.ask (h : Logged s m events) (hname : s.LooksUp name) (hnew : name ∉ m.entities)
    (found : Option Entity) : Logged s (m.remember name found) (.asked name (.ok found) :: events) where
  orderly := by
    refine ⟨List.forall_mem_cons.2 ⟨hname, h.orderly.looksUp⟩,
      List.nodup_cons.2 ⟨fun hasked => hnew (h.asked name hasked), h.orderly.once⟩,
      .cons ?_ h.orderly.news⟩
    rintro earlier hearlier _ e hasked he rfl
    obtain rfl := Option.some.inj hasked
    exact hnew (h.found earlier hearlier e he)
  asked := List.forall_mem_cons.2 ⟨Memo.mem_remember.2 (.inl rfl),
    fun name' hasked => Memo.mem_remember.2 (.inr (.inr (h.asked name' hasked)))⟩
  found := List.forall_mem_cons.2 ⟨fun e he => Memo.mem_remember.2 (.inr (.inl ⟨e, he, rfl⟩)),
    fun event hevent e he => Memo.mem_remember.2 (.inr (.inr (h.found event hevent e he)))⟩

end Logs

/-! ## Runs of calls -/

/-- A resolver over a catalogue that always answers keeps an orderly journal. -/
theorem Responsive.answering {b : Backing σ} {live : σ → Prop} (h : Responsive b live)
    (s : ResolverSettings) :
    Answering b.journaled s (fun _ => True) (fun _ _ => True)
      (fun x => live x.world.1 ∧ Logged s x.memo x.world.2) False where
  resolve := by
    intro raw _
    refine ⟨fun x ⟨hlive, hlogged⟩ => ?_⟩
    have hfetch := h.fetch (Lru.key s.cacheSpace (Text.trim raw)) hlive
    have hrun := resolved_resolve? b.journaled s raw x
    generalize ((resolve? b.journaled s raw).run).run x = result at hrun ⊢
    cases hrun with
    | skipped | known => exact .ok ⟨⟨hlive, hlogged⟩, trivial⟩
    | @cached e _ _ hcached =>
        have hkept : Logged s (x.memo.remember (Text.trim raw) (some e)) x.world.2 :=
          hlogged.mono fun _ hmem => Memo.mem_remember.2 (.inr (.inr hmem))
        have hread : Logged s _ (.read (Lru.key s.cacheSpace (Text.trim raw)) _ :: x.world.2) :=
          hkept.read fun e' he' => by
            obtain rfl := Option.some.inj (hcached.symm.trans he')
            exact Memo.mem_remember.2 (.inr (.inl ⟨e, rfl, rfl⟩))
        exact .ok ⟨⟨hfetch, hread⟩, trivial⟩
    | @found found hname hnew hmiss hfound =>
        have hfind := (h.find (Text.trim raw) hfetch).2
        have hread : Logged s x.memo (.read (Lru.key s.cacheSpace (Text.trim raw)) _ :: x.world.2) :=
          hlogged.read fun e he => absurd (hmiss.symm.trans he) (by simp)
        have hasked := hread.ask hname (Memo.notMem_of_getElem? hnew) found
        rw [← hfound] at hasked
        refine .ok ⟨?_, trivial⟩
        cases found with
        | none => exact ⟨hfind, hasked⟩
        | some e => exact ⟨h.keep _ _ hfind, hasked⟩
    | failed _ _ _ hfailed =>
        obtain ⟨found, hfound⟩ := (h.find (Text.trim raw) hfetch).1
        exact absurd (hfound.symm.trans hfailed) (by simp)
  parents := fun _ _ _ => trivial
  learn := fun ⟨hlive, hlogged⟩ => ⟨hlive, hlogged.mono fun _ hmem => hmem⟩

/-- A journal does not change what is recognized. -/
theorem Recognizing.journaled {b : Backing σ} {space : String} {used : String → Prop}
    {owner : String → Option Entity} {sound : σ → Prop} (h : Recognizing used owner b space sound) :
    Recognizing used owner b.journaled space (fun w => sound w.1) where
  find := h.find
  fetch := h.fetch
  fetched := h.fetched
  keep := h.keep
  parents := h.parents

/-- A catalogue in memory answers as long as it is up. -/
theorem Deployment.responsive : Responsive backing fun d => d.down = false where
  find name d hup := by
    simp only [backing, Deployment.find, hup]
    exact ⟨⟨_, rfl⟩, trivial⟩
  fetch key d hup := by
    simp only [backing, Deployment.fetch]
    split <;> exact hup
  keep key text d hup := by
    simp only [backing, Deployment.keep]
    split <;> exact hup

theorem orderly_afterCalls {b : Backing σ} {s : ResolverSettings} {live : σ → Prop}
    (h : Responsive b live) {world : σ} (hworld : live world) (calls : List ResolverCall) :
    Orderly s (afterCalls b.journaled s (world, []) calls).world.2 := by
  have hnew : live world ∧ Logged s {} [] :=
    ⟨hworld, orderly_nil s, fun _ hmem => absurd hmem (by simp [questions]),
      fun _ hmem => absurd hmem (by simp)⟩
  let x := afterCalls b.journaled s (world, []) calls
  have hafter : live x.world.1 ∧ Logged s x.memo x.world.2 :=
    afterCalls_induction (fun x : Session (σ × List Event) =>
        live x.world.1 ∧ Logged s x.memo x.world.2) hnew
      fun _ _ _ hx => (h.answering s).after_of_knows trivial hx
  exact hafter.2.orderly

/-- **Each name is looked up at most once.** A catalogue that always answers is asked, whatever the cache
    does, only for names that are looked up, for none twice, and for none that is the identifier of an
    entity found before. And when no two entities share a name, nothing is asked or read for the metadata
    above an entity of which the chains were listed. -/
theorem asked_once {b : Backing σ} (s : ResolverSettings) {live : σ → Prop} (h : Responsive b live)
    {world : σ} (hworld : live world) :
    (∀ calls, Orderly s (afterCalls b.journaled s (world, []) calls).world.2) ∧
    ∀ (entities : List Entity) (used : String → Prop) (sound : σ → Prop),
      Catalogue.NamesApart entities →
      Recognizing used (Catalogue.ofList entities).find? b s.cacheSpace sound → sound world →
      ∀ (before after : List ResolverCall) (name : String) (kind : HierarchyKind)
        (chains : List Chain),
        (∀ call ∈ before, used (Text.trim call.name)) → used (Text.trim name) →
        (∀ call ∈ after, used (Text.trim call.name)) →
        (((ancestorChains b.journaled s name kind).run).run
          (afterCalls b.journaled s (world, []) before)).1 = .ok (some chains) →
        ∀ metadata : MetadataKind,
          let x := afterCalls b.journaled s (world, []) (before ++ .chains name kind :: after)
          ∃ found, ((nearestMetadata b.journaled s name kind metadata).run).run x
            = (.ok (some found), x) := by
  refine ⟨orderly_afterCalls h hworld, ?_⟩
  intro entities used sound hapart hrecognizing hsound before after name kind chains hbefore hname
    hafter hchains metadata
  exact hrecognizing.journaled.nearestMetadata_of_ancestorChains
    (fun _ _ he => hapart.find?_identifier he) hsound hbefore hafter hname hchains metadata

/-- Calls in a barn, before and after its sheep was asked for its chains. -/
def sheepCalls : List ResolverCall × List ResolverCall :=
  ([.resolve " ewe"], [.nearest "animal" .spatial .geo, .resolve "ewe"])

/-- The catalogue is asked for the sheep and for its parent, and for no metadata above the sheep. -/
theorem asked_once_barn :
    Orderly {} (afterCalls Deployment.backing.journaled {} (barnDeployment, [])
      (sheepCalls.1 ++ .chains "ewe" .concept :: sheepCalls.2)).world.2 ∧
    questions (afterCalls Deployment.backing.journaled {} (barnDeployment, [])
      (sheepCalls.1 ++ .chains "ewe" .concept :: sheepCalls.2)).world.2 = ["animal", "ewe"] ∧
    ∃ found, ((nearestMetadata Deployment.backing.journaled {} "ewe" .concept .geo).run).run
        (afterCalls Deployment.backing.journaled {} (barnDeployment, [])
          (sheepCalls.1 ++ .chains "ewe" .concept :: sheepCalls.2))
      = (.ok (some found), afterCalls Deployment.backing.journaled {} (barnDeployment, [])
          (sheepCalls.1 ++ .chains "ewe" .concept :: sheepCalls.2)) := by
  have hdigests : (["ewe", "animal"].map Sha1.hexDigest).Nodup := by decide +kernel
  have hinj : Set.InjOn Sha1.hexDigest {name | name ∈ ["ewe", "animal"]} :=
    fun _ hname _ hname' => List.inj_on_of_nodup_map hdigests hname hname'
  have hparents : ∀ e ∈ barn, ∀ parent ∈ e.parents, Text.trim parent ∈ ["ewe", "animal"] := by
    decide +kernel
  have hsteady := (Deployment.forgetful (.ofList barn)).steady hinj
    (fun _ e e' _ he => eq_of_ofSnapshot?_barn e (Catalogue.mem_of_find?_ofList he).1 e') "entity"
  have hrecognizing := hsteady.recognizing fun _ e _ he =>
    hparents e (Catalogue.mem_of_find?_ofList he).1
  have hempty : ({entry | entry ∈ barnDeployment.cache.entries} : Set (String × String)) = ∅ := by
    simp [barnDeployment, Lru.empty]
  have hsound : (barnDeployment.catalogue = .ofList barn ∧ barnDeployment.down = false) ∧
      {entry | entry ∈ barnDeployment.cache.entries}
        ⊆ Written (· ∈ ["ewe", "animal"]) (Catalogue.ofList barn).find? :=
    ⟨⟨rfl, rfl⟩, hempty ▸ Set.empty_subset _⟩
  have hlisted : (((ancestorChains Deployment.backing.journaled {} "ewe" .concept).run).run
      (afterCalls Deployment.backing.journaled {} (barnDeployment, []) sheepCalls.1)).1.toOption.join.isSome
        = true := by decide +kernel
  obtain ⟨chains, hchains⟩ : ∃ chains,
      (((ancestorChains Deployment.backing.journaled {} "ewe" .concept).run).run
        (afterCalls Deployment.backing.journaled {} (barnDeployment, []) sheepCalls.1)).1
          = .ok (some chains) := by
    generalize (((ancestorChains Deployment.backing.journaled {} "ewe" .concept).run).run
      (afterCalls Deployment.backing.journaled {} (barnDeployment, []) sheepCalls.1)).1 = result
      at hlisted ⊢
    rcases result with _ | _ | chains
    · exact absurd hlisted (by simp [Except.toOption])
    · exact absurd hlisted (by simp [Except.toOption])
    · exact ⟨chains, rfl⟩
  have hup : barnDeployment.down = false := rfl
  obtain ⟨horderly, hsilent⟩ := asked_once {} Deployment.responsive hup
  refine ⟨horderly _, by decide +kernel, ?_⟩
  exact hsilent barn _ _ (by decide +kernel) hrecognizing hsound sheepCalls.1 sheepCalls.2 "ewe"
    .concept _ (by decide +kernel) (by decide +kernel) (by decide +kernel) hchains .geo

end FacetSearch
