import FacetSearch.Proofs.Ancestry.NearestMetadata
import FacetSearch.Proofs.Ancestry.Uncached

set_option autoImplicit false

/-! # Outages

A catalogue that goes down and comes back at any lookup (`Intermittent`). A call may break off in the
middle of a walk, with some of what is above an entity remembered already; but all of that is so, since
only answers of the catalogue and finished walks are remembered (`truthful_afterCalls`). So each call
fails, and there was an outage during it, or it replies what a new resolver would over a catalogue that
never fails (`run_afterCalls_of_intermittent`). What that is follows from the call alone, as long as the
limits cut nothing of what it asks for (`ReplyOf`). -/

namespace FacetSearch

variable {σ : Type}

/-! ## Catalogues that go down -/

/-- In the worlds that are `sound`, the catalogue answers a name in use or is down, and `outages` counts
    how often it was; what the cache holds for such a name is what the catalogue finds. -/
structure Intermittent (b : Backing σ) (space : String) (used : String → Prop)
    (finds : String → Option Entity) (sound : σ → Prop) (outages : σ → Nat) : Prop where
  find : ∀ {name world}, used name → sound world → sound (b.find name world).2 ∧
    (((b.find name world).1 = .ok (finds name) ∧ outages (b.find name world).2 = outages world) ∨
      ∃ error, (b.find name world).1 = .error error ∧
        outages (b.find name world).2 = outages world + 1)
  fetch : ∀ {name world}, used name → sound world →
    sound (b.fetch (Lru.key space name) world).2 ∧
      outages (b.fetch (Lru.key space name) world).2 = outages world
  fetched : ∀ {name world e}, used name → sound world →
    (b.fetch (Lru.key space name) world).1.bind Entity.ofSnapshot? = some e → finds name = some e
  keep : ∀ {name world e}, used name → sound world → finds name = some e →
    sound (b.keep (Lru.key space name) e.snapshot world) ∧
      outages (b.keep (Lru.key space name) e.snapshot world) = outages world

section

variable {b : Backing σ} {space : String} {used : String → Prop} {find : String → Option Entity}
  {sound : σ → Prop} {outages : σ → Nat}

/-- An outage leaves the world sound. -/
theorem Intermittent.faltering (h : Intermittent b space used find sound outages) :
    Faltering b space used (fun name => .ok (find name)) sound sound where
  find hname hworld := by
    obtain ⟨hsound, ⟨hanswer, -⟩ | ⟨error, hanswer, -⟩⟩ := h.find hname hworld
    · exact .inl ⟨hanswer, hsound⟩
    · exact .inr ⟨error, hanswer, hsound⟩
  fetch hname hworld := (h.fetch hname hworld).1
  fetched hname hworld he := congrArg Except.ok (h.fetched hname hworld he)
  keep hname hworld he := (h.keep hname hworld (Except.ok.inj he)).1

/-- An outage is counted, and nothing else is. -/
theorem Intermittent.faltering_counted (h : Intermittent b space used find sound outages)
    (count : Nat) :
    Faltering b space used (fun name => .ok (find name))
      (fun world => sound world ∧ outages world = count) (fun world => count < outages world) where
  find hname hworld := by
    obtain ⟨hsound, ⟨hanswer, hcount⟩ | ⟨error, hanswer, hcount⟩⟩ := h.find hname hworld.1
    · exact .inl ⟨hanswer, hsound, hcount.trans hworld.2⟩
    · exact .inr ⟨error, hanswer, by rw [hcount, hworld.2]; exact Nat.lt_succ_self count⟩
  fetch hname hworld := (h.fetch hname hworld.1).imp_right fun hcount => hcount.trans hworld.2
  fetched hname hworld he := congrArg Except.ok (h.fetched hname hworld.1 he)
  keep hname hworld he :=
    (h.keep hname hworld.1 (Except.ok.inj he)).imp_right fun hcount => hcount.trans hworld.2

/-- A resolver says what the catalogue finds, and fails at an outage. -/
theorem Intermittent.answering {s : ResolverSettings}
    (h : Intermittent b s.cacheSpace used find sound outages)
    (hparents : ∀ name e, used name → find name = some e → ParentsUsed used e) :
    Answering b s used (s.MayAnswer used fun name => .ok (find name))
      (fun x => sound x.world ∧ x.memo.Recalls used fun name => .ok (find name)) True :=
  h.faltering.answering (fun _ _ _ _ => trivial) (fun _ hsound => ⟨trivial, hsound⟩)
    fun name e hname he => hparents name e hname (Except.ok.inj he)

end

/-! ## Replies -/

section

variable (s : ResolverSettings) (answer : String → Option Entity)

/-- The limits cut nothing of what a call asks for. -/
def ResolverCall.FitsLimits : ResolverCall → Prop
  | resolve _ => True
  | chains name kind | nearest name kind _ => ∀ e, answer name = some e → WithinLimits s answer kind e

/-- What a call replies that the limits do not cut, when each name has its answer. -/
inductive ReplyOf : ResolverCall → ResolverReply → Prop where
  | entity (name : String) : ReplyOf (.resolve name) (.entity (answer name))
  | unknown {name : String} {kind : HierarchyKind} (hnone : answer name = none) :
      ReplyOf (.chains name kind) (.chains none)
  | chains {name : String} {kind : HierarchyKind} {e : Entity} {chains : List Chain}
      (he : answer name = some e) (hchains : ChainsOf s answer kind e chains) :
      ReplyOf (.chains name kind) (.chains (some chains))
  | metadata (name : String) (hierarchy : HierarchyKind) (kind : MetadataKind) :
      ReplyOf (.nearest name hierarchy kind) (.metadata ((answer name).map fun e =>
        (e.inherited? kind).or (nearestAbove s answer hierarchy kind e)))

end

section

variable {b : Backing σ} {s : ResolverSettings} {used : String → Prop}
  {gives : String → Option Entity → Prop} {knows : Session σ → Prop} {fails : Prop}
  {answer : String → Option Entity}

theorem ReplyOf.unique {call : ResolverCall} {reply reply' : ResolverReply}
    (h : ReplyOf s answer call reply) (h' : ReplyOf s answer call reply') : reply = reply' := by
  cases h with
  | entity | metadata => cases h'; rfl
  | unknown hnone =>
      cases h' with
      | unknown => rfl
      | chains he' => exact absurd (hnone.symm.trans he') (by simp)
  | chains he hchains =>
      cases h' with
      | unknown hnone' => exact absurd (hnone'.symm.trans he) (by simp)
      | chains he' hchains' =>
          obtain rfl := Option.some.inj (he.symm.trans he')
          rw [hchains.unique hchains']

/-- **A call replies what follows from it alone**, when what is remembered is exact. -/
theorem ensures_run_replyOf (h : Answering b s used gives knows fails)
    (hgives : ∀ raw found, gives raw found → found = answer raw) (hids : Identified answer)
    {call : ResolverCall} (hcall : used (Text.trim call.name)) (hfits : call.FitsLimits s answer) :
    Ensures (Knowing knows (Exact s answer)) (call.run b s)
      (fun reply _ => ReplyOf s answer call reply)
      (fun y => fails ∧ Knowing knows (Exact s answer) y) := by
  cases call with
  | resolve name =>
      refine ensures_bind (h.ensures_resolve? _ hcall) fun found => ensures_pure ?_
      rintro x ⟨-, hgiven⟩
      exact hgives _ _ hgiven ▸ .entity name
  | chains name kind =>
      refine ensures_bind (ensures_ancestorChains_exact h hgives hids hcall kind) fun found =>
        ensures_pure ?_
      rintro x ⟨-, hfound⟩
      cases found with
      | none => exact .unknown (hgives _ _ hfound).symm
      | some chains =>
          obtain ⟨e, he, hchains⟩ := hfound
          have hanswer := (hgives _ _ he).symm
          exact .chains hanswer (hchains (hfits e hanswer))
  | nearest name hierarchy kind =>
      refine ensures_bind (ensures_nearestMetadata_exact h hgives hids hcall hierarchy kind hfits)
        fun found => ensures_pure ?_
      rintro x ⟨-, rfl⟩
      exact .metadata name hierarchy kind

end

/-! ## Calls during outages -/

/-- All that is remembered is so: what names stand for, and the chains of entities within the limits. -/
structure Memo.Truthful (s : ResolverSettings) (find : String → Option Entity) (m : Memo) : Prop where
  names : ∀ name found, m.entities[name]? = some found → found = find name
  chains : ∀ kind raw e chains, s.answer find raw = some e → WithinLimits s (s.answer find) kind e →
    m.chains.get? kind e.identifier = some chains → ChainsOf s (s.answer find) kind e chains

/-- A call replies so, or it fails and there was an outage during it. -/
def RepliesUnlessOut (b : Backing σ) (s : ResolverSettings) (outages : σ → Nat) (x : Session σ)
    (call : ResolverCall) (reply : ResolverReply) : Prop :=
  (((call.run b s).run).run x).1 = .ok reply ∨
    ∃ error, (((call.run b s).run).run x).1 = .error error ∧
      outages x.world < outages (((call.run b s).run).run x).2.world

section

variable {b : Backing σ} {s : ResolverSettings} {used : String → Prop} {entities : List Entity}
  {sound : σ → Prop} {outages : σ → Nat}

/-- Whatever breaks calls off, they leave a sound world and only remember what was said and is exact. -/
theorem knowing_afterCalls (hapart : Catalogue.NamesApart entities)
    (h : Intermittent b s.cacheSpace used (Catalogue.ofList entities).find? sound outages)
    (hparents : ∀ e ∈ entities, ∀ parent ∈ e.parents, used (Text.trim parent))
    {world : σ} (hworld : sound world) {calls : List ResolverCall}
    (hcalls : ∀ call ∈ calls, used (Text.trim call.name)) :
    Knowing (fun x => sound x.world ∧
        x.memo.Recalls used fun name => .ok ((Catalogue.ofList entities).find? name))
      (Exact s (s.answer (Catalogue.ofList entities).find?)) (afterCalls b s world calls) := by
  have hanswering := h.answering fun name e _ he => hparents e (Catalogue.mem_of_find?_ofList he).1
  exact hanswering.afterCalls_of_ensures _ ⟨hworld, Memo.recalls_empty⟩ exact_empty hcalls
    fun name kind hused _ => (ensures_ancestorChains_exact hanswering
      (fun _ _ hgiven => hgiven.eq_answer_of_namesApart hapart) (identified_answer hapart s) hused
        kind).mono (fun _ => id) (fun _ _ => And.left) fun _ => id

/-- **No outage is remembered**, neither as a miss nor as chains that are cut short. -/
theorem truthful_afterCalls (hapart : Catalogue.NamesApart entities)
    (h : Intermittent b s.cacheSpace used (Catalogue.ofList entities).find? sound outages)
    (hparents : ∀ e ∈ entities, ∀ parent ∈ e.parents, used (Text.trim parent))
    {world : σ} (hworld : sound world) {calls : List ResolverCall}
    (hcalls : ∀ call ∈ calls, used (Text.trim call.name)) :
    (afterCalls b s world calls).memo.Truthful s (Catalogue.ofList entities).find? := by
  obtain ⟨⟨-, hrecalls⟩, hexact⟩ := knowing_afterCalls hapart h hparents hworld hcalls
  refine ⟨fun name found hfound => ?_, fun _ _ _ _ he hwithin => hexact.chainsOf he hwithin⟩
  rcases hrecalls name found hfound with ⟨-, hfind⟩ | ⟨e, asked, rfl, rfl, -, hfind⟩
  · exact (Except.ok.inj hfind).symm
  · exact (hapart.find?_identifier (Except.ok.inj hfind)).symm

/-- **An outage never becomes a wrong answer**: after any calls, whatever outages there were, a call
    replies what a new resolver would over a catalogue that never fails, or it fails and there was an
    outage during it. (The entities share no names, and the limits cut nothing of what it asks for.) -/
theorem run_afterCalls_of_intermittent (hapart : Catalogue.NamesApart entities)
    (h : Intermittent b s.cacheSpace used (Catalogue.ofList entities).find? sound outages)
    (hparents : ∀ e ∈ entities, ∀ parent ∈ e.parents, used (Text.trim parent))
    {world : σ} (hworld : sound world) {calls : List ResolverCall}
    (hcalls : ∀ call ∈ calls, used (Text.trim call.name)) {call : ResolverCall}
    (hcall : used (Text.trim call.name))
    (hfits : call.FitsLimits s (s.answer (Catalogue.ofList entities).find?)) :
    (afterCalls b s world calls).memo.Truthful s (Catalogue.ofList entities).find? ∧
    ∃ reply,
      (((call.run (.uncached (Catalogue.ofList entities).find?) s).run).run { world := () }).1
        = .ok reply ∧
      RepliesUnlessOut b s outages (afterCalls b s world calls) call reply := by
  refine ⟨truthful_afterCalls hapart h hparents hworld hcalls, ?_⟩
  obtain ⟨⟨hsound, hrecalls⟩, hexact⟩ := knowing_afterCalls hapart h hparents hworld hcalls
  generalize afterCalls b s world calls = x at hsound hrecalls hexact ⊢
  have hused : ∀ name e, used name → (Catalogue.ofList entities).find? name = some e →
      ParentsUsed used e := fun name e _ he => hparents e (Catalogue.mem_of_find?_ofList he).1
  -- a resolver without a cache replies the same from any exact memory
  have hreply := ensures_run_replyOf ((steady_uncached (Catalogue.ofList entities).find?
      s.cacheSpace used).answering fun name e hname he => hused name e hname (Except.ok.inj he))
    (fun _ _ hgiven => hgiven.eq_answer_of_namesApart hapart) (identified_answer hapart s) hcall hfits
  obtain ⟨reply, _, hfresh, hof⟩ := hreply.exists_ok (by simp) (x := { world := () })
    ⟨⟨trivial, Memo.recalls_empty⟩, exact_empty⟩
  obtain ⟨reply', _, hplain, hof'⟩ := hreply.exists_ok (by simp) (x := ⟨x.memo, ()⟩)
    ⟨⟨trivial, hrecalls⟩, hexact⟩
  obtain rfl := hof'.unique hof
  refine ⟨reply', congrArg Prod.fst hfresh, ?_⟩
  -- and the call mirrors it until there is an outage
  have hrun := (((h.faltering_counted (outages x.world)).mirroring hused).call hcall).alike x.memo
    x.world hrecalls ⟨hsound, rfl⟩
  rw [hplain] at hrun
  unfold RepliesUnlessOut
  generalize ((call.run b s).run).run x = result at hrun ⊢
  cases hrun with
  | same => exact .inl rfl
  | broke hcount => exact .inr ⟨_, rfl, hcount⟩

end

/-! ## A catalogue in memory -/

namespace Deployment

/-- A deployment that is down at the lookups that a schedule tells, the first of which is number zero. -/
def scheduled (outage : Nat → Bool) : Backing Deployment :=
  { backing with find := fun name d => { d with down := outage d.asked.length }.find name }

/-- How many lookups have met an outage. -/
def outages (outage : Nat → Bool) (d : Deployment) : Nat :=
  (List.range d.asked.length).countP outage

/-- The cache holds for the names in use what the catalogue answers when it is up. -/
def SoundWhenUp (space : String) (used : String → Prop) (catalogue : Catalogue) (d : Deployment) :
    Prop :=
  Sound space used catalogue false { d with down := false }

variable {space : String} {used : String → Prop} {catalogue : Catalogue}

theorem soundWhenUp_of_empty {d : Deployment} (h : d.cache.entries = []) :
    SoundWhenUp space used d.catalogue d :=
  sound_of_empty (d := { d with down := false }) h

/-- A lookup is answered by the catalogue, unless the schedule has an outage there. -/
theorem find_scheduled (outage : Nat → Bool) (name : String) (d : Deployment) :
    ((scheduled outage).find name d).1 = answer d.catalogue (outage d.asked.length) name := rfl

theorem outages_find_scheduled (outage : Nat → Bool) (name : String) (d : Deployment) :
    outages outage ((scheduled outage).find name d).2
      = outages outage d + if outage d.asked.length then 1 else 0 := by
  simp only [scheduled, Deployment.find, outages, List.length_cons, List.range_succ,
    List.countP_append, List.countP_singleton]

/-- **A catalogue in memory with a schedule of outages is intermittent**, as long as the names in use
    share no key and their entities read back as they are or not at all. -/
theorem intermittent (outage : Nat → Bool)
    (hkeys : ∀ a b, used a → used b → Lru.key space a = Lru.key space b → a = b)
    (hsnapshots : ∀ name e e', used name → catalogue.find? name = some e →
      Entity.ofSnapshot? e.snapshot = some e' → e' = e) :
    Intermittent (scheduled outage) space used catalogue.find? (SoundWhenUp space used catalogue)
      (outages outage) := by
  have hsteady : Steady backing space used (answer catalogue false) _ :=
    steady_deployment hkeys hsnapshots
  -- whether it is down matters neither to reading the cache nor to writing it, which ask for nothing
  have hfetch : ∀ (key : String) (d : Deployment), ({ d with down := false }).fetch key
      = ((d.fetch key).1, { (d.fetch key).2 with down := false }) ∧ (d.fetch key).2.asked = d.asked := by
    intro key d
    unfold Deployment.fetch
    split <;> exact ⟨rfl, rfl⟩
  have hkeep : ∀ (key text : String) (d : Deployment), ({ d with down := false }).keep key text
      = { d.keep key text with down := false } ∧ (d.keep key text).asked = d.asked := by
    intro key text d
    unfold Deployment.keep
    split <;> exact ⟨rfl, rfl⟩
  constructor
  · intro name d hname hd
    refine ⟨(hsteady.find hname hd).2, ?_⟩
    rw [outages_find_scheduled, find_scheduled, answer, show d.catalogue = _ from hd.asks]
    cases outage d.asked.length with
    | false => exact .inl ⟨rfl, rfl⟩
    | true => exact .inr ⟨_, rfl, rfl⟩
  · intro name d hname hd
    obtain ⟨heq, hasked⟩ := hfetch (Lru.key space name) d
    have hsound := hsteady.fetch hname hd
    rw [show backing.fetch _ _ = _ from heq] at hsound
    exact ⟨hsound, congrArg (fun asked : List String => (List.range asked.length).countP outage) hasked⟩
  · intro name d e hname hd he
    refine Except.ok.inj (hsteady.fetched hname hd ?_)
    rw [show backing.fetch _ _ = _ from (hfetch (Lru.key space name) d).1]
    exact he
  · intro name d e hname hd he
    obtain ⟨heq, hasked⟩ := hkeep (Lru.key space name) e.snapshot d
    have hsound := hsteady.keep hname hd (congrArg Except.ok he)
    rw [show backing.keep _ _ _ = _ from heq] at hsound
    exact ⟨hsound, congrArg (fun asked : List String => (List.range asked.length).countP outage) hasked⟩

/-- While its cache cannot be read, a catalogue in memory with a schedule is intermittent for all
    names. -/
theorem intermittent_of_readsFail (outage : Nat → Bool) :
    Intermittent (scheduled outage) space (fun _ => True) catalogue.find?
      (fun d => d.catalogue = catalogue ∧ d.readsFail = true) (outages outage) := by
  constructor
  · rintro name d - ⟨rfl, hreads⟩
    refine ⟨⟨rfl, hreads⟩, ?_⟩
    rw [outages_find_scheduled, find_scheduled, answer]
    cases outage d.asked.length with
    | false => exact .inl ⟨rfl, rfl⟩
    | true => exact .inr ⟨_, rfl, rfl⟩
  · rintro name d - ⟨hasks, hreads⟩
    simp [scheduled, backing, Deployment.fetch, hasks, hreads]
  · rintro name d e - ⟨-, hreads⟩ he
    simp [scheduled, backing, Deployment.fetch, hreads] at he
  · rintro name d e - ⟨hasks, hreads⟩ -
    simp only [scheduled, backing, Deployment.keep]
    split <;> exact ⟨⟨hasks, hreads⟩, rfl⟩

end Deployment

/-- A concept with two parents. -/
def pasture : List Entity :=
  [.concept "sheep" ["mammal", "domestic"], .concept "mammal" ["root"], .concept "domestic" []]

def pastureDeployment : Deployment where
  catalogue := .ofList pasture
  cache := .empty 2

/-- The names in use there. -/
def pastureNames : List String := ["sheep", "mammal", "domestic", "root"]

/-- The catalogue is down when the walk has finished one of the parents, and once more. -/
def pastureOutage (lookup : Nat) : Bool := lookup = 2 ∨ lookup = 3

def pastureCalls : List ResolverCall := [.chains "sheep" .concept, .nearest "sheep" .concept .chrono]

theorem run_afterCalls_of_intermittent_pasture :
    (afterCalls (Deployment.scheduled pastureOutage) {} pastureDeployment pastureCalls).memo.Truthful {}
        (Catalogue.ofList pasture).find? ∧
    ∃ reply, (((ResolverCall.run (.uncached (Catalogue.ofList pasture).find?) {}
        (.chains "sheep" .concept)).run).run { world := () }).1 = .ok reply ∧
      RepliesUnlessOut (Deployment.scheduled pastureOutage) {} (Deployment.outages pastureOutage)
        (afterCalls (Deployment.scheduled pastureOutage) {} pastureDeployment pastureCalls)
        (.chains "sheep" .concept) reply := by
  have hapart : Catalogue.NamesApart pasture := by decide +kernel
  have hkeys : (pastureNames.map (Lru.key "entity")).Nodup := by decide +kernel
  have hsnapshots : ∀ e ∈ pasture, ∀ e' ∈ Entity.ofSnapshot? e.snapshot, e' = e := by decide +kernel
  have hparents : ∀ e ∈ pasture, ∀ parent ∈ e.parents, Text.trim parent ∈ pastureNames := by
    decide +kernel
  have hcalls : ∀ call ∈ pastureCalls, Text.trim call.name ∈ pastureNames := by decide +kernel
  have hname : Text.trim "sheep" ∈ pastureNames := by decide +kernel
  have hwithin : ∀ e ∈ ResolverSettings.answer {} (Catalogue.ofList pasture).find? "sheep",
      LongestPath {} (ResolverSettings.answer {} (Catalogue.ofList pasture).find?) e 30 ∧
        (upwardPaths {} (ResolverSettings.answer {} (Catalogue.ofList pasture).find?) e).length ≤ 256 := by
    decide +kernel
  have hintermittent := @Deployment.intermittent "entity" (· ∈ pastureNames) (.ofList pasture)
    pastureOutage (fun _ _ ha hb => List.inj_on_of_nodup_map hkeys ha hb)
    fun name e e' _ he => hsnapshots e (Catalogue.mem_of_find?_ofList he).1 e'
  have hsound : Deployment.SoundWhenUp "entity" (· ∈ pastureNames) (.ofList pasture)
      pastureDeployment := Deployment.soundWhenUp_of_empty (d := pastureDeployment) rfl
  refine run_afterCalls_of_intermittent hapart hintermittent hparents hsound hcalls hname ?_
  exact fun e he => ⟨(hwithin e he).1, (hwithin e he).2⟩

/-- The first call fails at its third lookup; the last one needs a single lookup more. -/
example :
    [((ResolverCall.chains "sheep" .concept).run (Deployment.scheduled pastureOutage) {}).run.run
        { world := pastureDeployment },
      ((ResolverCall.chains "sheep" .concept).run (Deployment.scheduled pastureOutage) {}).run.run
        (afterCalls (Deployment.scheduled pastureOutage) {} pastureDeployment pastureCalls)].map
      (fun result => (result.1.isOk, result.2.world.asked.length)) = [(false, 3), (true, 5)] := by
  decide +kernel

end FacetSearch
