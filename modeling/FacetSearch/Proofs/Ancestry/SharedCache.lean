import FacetSearch.Proofs.Ancestry.Uncached

set_option autoImplicit false

/-! # A cache that resolvers share

Resolvers that share a cache reply as if each had none (`replies_eq_uncached`), however their calls are
mixed and whatever the cache loses. Every entry of the cache was written by one of them, and is the
catalogue's answer for the name that its key was made from (`Written`); a key tells which name that is,
since it ends with the digest of the name. So the catalogue is steady for each of them
(`Forgetful.steady`), and each of their calls mirrors one without a cache. -/

namespace FacetSearch

variable {σ ι : Type}

/-! ## Keys -/

namespace Sha1

theorem length_octets (size n : Nat) : (octets size n).length = size := by
  simp [octets]

theorem length_hexDigest (text : String) : (hexDigest text).toList.length = 40 := by
  simp [hexDigest, digest, List.length_flatMap, length_octets]

end Sha1

/-- A key tells the digest of its name, in whichever namespace. -/
theorem Lru.hexDigest_eq_of_key_eq {space space' name name' : String}
    (h : Lru.key space name = Lru.key space' name') :
    Sha1.hexDigest name = Sha1.hexDigest name' := by
  have hkey := congrArg String.toList h
  simp only [Lru.key, String.toList_append] at hkey
  have hlength : (Sha1.hexDigest name).toList.length = (Sha1.hexDigest name').toList.length := by
    rw [Sha1.length_hexDigest, Sha1.length_hexDigest]
  exact String.toList_inj.1 (List.append_inj' hkey hlength).2

/-! ## Forgetful caches -/

/-- In the worlds that are `live`, the catalogue answers every lookup, and the cache holds at most what
    was written to it. It may lose entries with every step, and a read or a write may fail. -/
structure Forgetful (b : Backing σ) (find : String → Option Entity) (live : σ → Prop)
    (contents : σ → Set (String × String)) : Prop where
  find : ∀ name {world}, live world → (b.find name world).1 = .ok (find name) ∧
    live (b.find name world).2 ∧ contents (b.find name world).2 ⊆ contents world
  fetch : ∀ key {world}, live world →
    live (b.fetch key world).2 ∧ contents (b.fetch key world).2 ⊆ contents world
  fetched : ∀ {key world text}, live world → (b.fetch key world).1 = some text →
    (key, text) ∈ contents world
  keep : ∀ key text {world}, live world →
    live (b.keep key text world) ∧ contents (b.keep key text world) ⊆ insert (key, text) (contents world)

/-- What resolvers write to a cache: what the catalogue finds under a name in use, under its key. -/
def Written (used : String → Prop) (find : String → Option Entity) : Set (String × String) :=
  {entry | ∃ space name e, used name ∧ find name = some e ∧ entry = (Lru.key space name, e.snapshot)}

section

variable {b : Backing σ} {used : String → Prop} {find : String → Option Entity} {live : σ → Prop}
  {contents : σ → Set (String × String)}

/-- An entry that was written gives the catalogue's answer for the name of its key, or none. -/
theorem find_of_mem_written (hdigests : Set.InjOn Sha1.hexDigest {name | used name})
    (hsnapshots : ∀ name e e', used name → find name = some e →
      Entity.ofSnapshot? e.snapshot = some e' → e' = e) {space name text : String} {e : Entity}
    (hname : used name) (hwritten : (Lru.key space name, text) ∈ Written used find)
    (he : Entity.ofSnapshot? text = some e) : find name = some e := by
  obtain ⟨_, name', e', hname', hfind, hentry⟩ := hwritten
  obtain ⟨hkey, rfl⟩ := Prod.mk.inj hentry
  obtain rfl := hdigests hname hname' (Lru.hexDigest_eq_of_key_eq hkey)
  rw [hfind, hsnapshots name e' e hname hfind he]

/-- **Over a forgetful cache the catalogue is steady**, for resolvers with any namespace. -/
theorem Forgetful.steady (h : Forgetful b find live contents)
    (hdigests : Set.InjOn Sha1.hexDigest {name | used name})
    (hsnapshots : ∀ name e e', used name → find name = some e →
      Entity.ofSnapshot? e.snapshot = some e' → e' = e) (space : String) :
    Steady b space used (fun name => .ok (find name))
      (fun world => live world ∧ contents world ⊆ Written used find) := by
  constructor
  · rintro name world - ⟨hlive, hwritten⟩
    obtain ⟨hanswer, hlive', hfewer⟩ := h.find name hlive
    exact ⟨hanswer, hlive', hfewer.trans hwritten⟩
  · rintro name world - ⟨hlive, hwritten⟩
    obtain ⟨hlive', hfewer⟩ := h.fetch (Lru.key space name) hlive
    exact ⟨hlive', hfewer.trans hwritten⟩
  · rintro name world e hname ⟨hlive, hwritten⟩ he
    obtain ⟨text, htext, he⟩ := Option.bind_eq_some_iff.1 he
    rw [find_of_mem_written hdigests hsnapshots hname (hwritten (h.fetched hlive htext)) he]
  · rintro name world e hname ⟨hlive, hwritten⟩ he
    obtain ⟨hlive', hfewer⟩ := h.keep (Lru.key space name) e.snapshot hlive
    refine ⟨hlive', hfewer.trans (Set.insert_subset ?_ hwritten)⟩
    exact ⟨space, name, e, hname, Except.ok.inj he, rfl⟩

end

/-! ## Mixed calls -/

/-- What calls come to, one after the other, each to one of several resolvers that have memories and
    settings of their own and the world in common. -/
def replies [DecidableEq ι] (b : Backing σ) (settings : ι → ResolverSettings) :
    List (ι × ResolverCall) → (ι → Memo) → σ → List (Except StoreError ResolverReply)
  | [], _, _ => []
  | (i, call) :: rest, memos, world =>
    let result := ((call.run b (settings i)).run).run ⟨memos i, world⟩
    result.1 :: replies b settings rest (Function.update memos i result.2.memo) result.2.world

section

variable [DecidableEq ι] {b : Backing σ} {settings : ι → ResolverSettings} {used : String → Prop}
  {find : String → Option Entity} {sound : σ → Prop}

/-- Resolvers that start with the same memories as some without a cache keep in step with them. -/
theorem replies_eq_of_mirroring
    (h : ∀ i, Mirroring b (settings i) used find sound fun _ => False)
    {calls : List (ι × ResolverCall)} (hcalls : ∀ call ∈ calls, used (Text.trim call.2.name))
    {memos : ι → Memo} (hmemos : ∀ i, (memos i).Recalls used fun name => .ok (find name)) {world : σ}
    (hworld : sound world) :
    replies b settings calls memos world = replies (.uncached find) settings calls memos () := by
  induction calls generalizing memos world with
  | nil => rfl
  | cons first rest ih =>
      obtain ⟨i, call⟩ := first
      have hcall : used (Text.trim call.name) := hcalls (i, call) (List.mem_cons_self ..)
      have hrun := ((h i).call hcall).alike (memos i) world (hmemos i) hworld
      unfold replies
      generalize ((call.run b (settings i)).run).run ⟨memos i, world⟩ = result at hrun ⊢
      generalize ((call.run (.uncached find) (settings i)).run).run ⟨memos i, ()⟩ = plain at hrun ⊢
      cases hrun with
      | broke hbroken => exact hbroken.elim
      | @same reply memo world' hmemo hworld' _ =>
          refine congrArg (List.cons _) (ih (fun c hc => hcalls c (List.mem_cons_of_mem _ hc))
            (fun j => ?_) hworld')
          by_cases hij : j = i
          · subst hij
            simpa using hmemo
          · simpa [hij] using hmemos j

/-- **The shared cache is invisible**: over a catalogue that answers every lookup and a cache that
    starts empty and may lose anything at any time, calls to any number of resolvers reply as they do
    without a cache, as long as no two names in use have the same digest and entities read back from
    the cache as they are or not at all. -/
theorem replies_eq_uncached {live : σ → Prop} {contents : σ → Set (String × String)}
    (h : Forgetful b find live contents)
    (hdigests : Set.InjOn Sha1.hexDigest {name | used name})
    (hsnapshots : ∀ name e e', used name → find name = some e →
      Entity.ofSnapshot? e.snapshot = some e' → e' = e)
    (hparents : ∀ name e, used name → find name = some e →
      ∀ parent ∈ e.parents, used (Text.trim parent))
    {world : σ} (hlive : live world) (hempty : contents world = ∅)
    {calls : List (ι × ResolverCall)} (hcalls : ∀ call ∈ calls, used (Text.trim call.2.name)) :
    replies b settings calls (fun _ => {}) world
      = replies (.uncached find) settings calls (fun _ => {}) () := by
  have hmirroring : ∀ i, Mirroring b (settings i) used find
      (fun world => live world ∧ contents world ⊆ Written used find) fun _ => False :=
    fun i => (h.steady hdigests hsnapshots (settings i).cacheSpace).faltering.mirroring hparents
  have hworld : live world ∧ contents world ⊆ Written used find := by
    rw [hempty]
    exact ⟨hlive, Set.empty_subset _⟩
  exact replies_eq_of_mirroring hmirroring hcalls (fun _ => Memo.recalls_empty) hworld

end

/-! ## A catalogue in memory -/

/-- A catalogue in memory that is up, with a cache of bounded size, is forgetful. -/
theorem Deployment.forgetful (catalogue : Catalogue) :
    Forgetful backing catalogue.find? (fun d => d.catalogue = catalogue ∧ d.down = false)
      (fun d => {entry | entry ∈ d.cache.entries}) := by
  constructor
  · rintro name d ⟨rfl, hup⟩
    simp [backing, Deployment.find, hup]
  · rintro key d hd
    simp only [backing, Deployment.fetch]
    split
    · exact ⟨hd, subset_rfl⟩
    · exact ⟨hd, fun _ => Lru.mem_entries_read⟩
  · rintro key d text - htext
    simp only [backing, Deployment.fetch] at htext
    split at htext
    · exact absurd htext (by simp)
    · exact Lru.mem_of_read htext
  · rintro key text d hd
    simp only [backing, Deployment.keep]
    split
    · exact ⟨hd, Set.subset_insert _ _⟩
    · exact ⟨hd, fun _ hentry => (Lru.mem_entries_write hentry).imp_right And.left⟩

/-- A concept with a parent. -/
def barn : List Entity :=
  [(Entity.make "sheep" "ewe" "Sheep" .concept).addParent "animal",
    .make "animal" "beast" "Animal" .concept]

/-- Their texts read back as they are. -/
theorem eq_of_ofSnapshot?_barn :
    ∀ e ∈ barn, ∀ e' ∈ Entity.ofSnapshot? e.snapshot, e' = e := by decide +kernel

/-- Their cache has room for one of them. -/
def barnDeployment : Deployment where
  catalogue := .ofList barn
  cache := .empty 1

/-- The names in use there. -/
def barnNames : List String := ["sheep", "ewe", "animal", "missing"]

/-- Settings of two resolvers. -/
def barnSettings (first : Bool) : ResolverSettings := if first then {} else { maxDepth := 1 }

/-- Calls to the two resolvers; the second one finds the first entity in the cache. -/
def barnCalls : List (Bool × ResolverCall) :=
  [(true, .resolve " ewe"), (false, .chains "ewe" .concept), (true, .nearest "sheep" .concept .geo),
    (false, .resolve "missing"), (true, .chains "sheep" .spatial)]

theorem replies_eq_uncached_barn :
    Set.InjOn Sha1.hexDigest {name | name ∈ barnNames} ∧
      replies Deployment.backing barnSettings barnCalls (fun _ => {}) barnDeployment
        = replies (.uncached (Catalogue.ofList barn).find?) barnSettings barnCalls (fun _ => {}) () := by
  have hdigests : (barnNames.map Sha1.hexDigest).Nodup := by decide +kernel
  have hparents : ∀ e ∈ barn, ∀ parent ∈ e.parents, Text.trim parent ∈ barnNames := by decide +kernel
  have hcalls : ∀ call ∈ barnCalls, Text.trim call.2.name ∈ barnNames := by decide +kernel
  have hinj : Set.InjOn Sha1.hexDigest {name | name ∈ barnNames} :=
    fun _ hname _ hname' => List.inj_on_of_nodup_map hdigests hname hname'
  refine ⟨hinj, replies_eq_uncached (Deployment.forgetful (.ofList barn)) hinj ?_ ?_ ⟨rfl, rfl⟩ ?_
    hcalls⟩
  · exact fun _ e e' _ he => eq_of_ofSnapshot?_barn e (Catalogue.mem_of_find?_ofList he).1 e'
  · exact fun _ e _ he => hparents e (Catalogue.mem_of_find?_ofList he).1
  · simp [barnDeployment, Lru.empty]

/-- A second resolver does not ask the catalogue for what it finds in the cache. -/
example :
    (((ResolverCall.resolve "ewe").run Deployment.backing {}).run.run
      { world := (((ResolverCall.resolve "ewe").run Deployment.backing {}).run.run
        { world := barnDeployment }).2.world }).2.world.asked = ["ewe"] := by decide +kernel

end FacetSearch
