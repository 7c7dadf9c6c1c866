import FacetSearch.Ancestry.Deployment
import FacetSearch.Ancestry.Inquiry
import FacetSearch.Proofs.Cache.Entries
import FacetSearch.Proofs.Compilation.Answers
import Mathlib

set_option autoImplicit false

/-! # Steady catalogues

A catalogue is steady when it gives the same answer to a name every time, be it a failure, and when the
cache gives back no entity other than that answer. Then the cache cannot be told from the catalogue:
what a resolver answers follows from its memory alone, as if each new name were put to the catalogue
itself (`Memo.look`). `Steady.resolve?_eq` says so of one name, and `Steady.run_eq` of a whole inquiry.
A catalogue in memory is steady as long as it stays up or stays down, whatever its cache loses
(`steady_deployment`), and all the more when its cache cannot be read (`steady_of_readsFail`).

A catalogue falters when it may also fail now and then. The resolver then answers as if it were steady,
or passes the failure on and remembers nothing of it (`Faltering.resolve?_cases`). -/

namespace FacetSearch

variable {σ : Type}

/-! ## What is steady -/

/-- In the worlds that are `sound`, the catalogue answers the names in use as `store` does, and what the
    cache holds for such a name is its answer. The world stays sound with every step of a resolver. -/
structure Steady (b : Backing σ) (space : String) (used : String → Prop)
    (store : String → Except StoreError (Option Entity)) (sound : σ → Prop) : Prop where
  find : ∀ {name world}, used name → sound world →
    (b.find name world).1 = store name ∧ sound (b.find name world).2
  fetch : ∀ {name world}, used name → sound world → sound (b.fetch (Lru.key space name) world).2
  fetched : ∀ {name world e}, used name → sound world →
    (b.fetch (Lru.key space name) world).1.bind Entity.ofSnapshot? = some e →
    store name = .ok (some e)
  keep : ∀ {name world e}, used name → sound world → store name = .ok (some e) →
    sound (b.keep (Lru.key space name) e.snapshot world)

/-- The same of a catalogue that may fail at any lookup, which leaves the world `broken`. -/
structure Faltering (b : Backing σ) (space : String) (used : String → Prop)
    (store : String → Except StoreError (Option Entity)) (sound broken : σ → Prop) : Prop where
  find : ∀ {name world}, used name → sound world →
    ((b.find name world).1 = store name ∧ sound (b.find name world).2) ∨
      ∃ error, (b.find name world).1 = .error error ∧ broken (b.find name world).2
  fetch : ∀ {name world}, used name → sound world → sound (b.fetch (Lru.key space name) world).2
  fetched : ∀ {name world e}, used name → sound world →
    (b.fetch (Lru.key space name) world).1.bind Entity.ofSnapshot? = some e →
    store name = .ok (some e)
  keep : ∀ {name world e}, used name → sound world → store name = .ok (some e) →
    sound (b.keep (Lru.key space name) e.snapshot world)

/-- What a resolver answers without a cache, and what it remembers then. -/
def Memo.look (s : ResolverSettings) (store : String → Except StoreError (Option Entity))
    (raw : String) (m : Memo) : Except StoreError (Option Entity) × Memo :=
  let name := Text.trim raw
  if name.isEmpty || s.isRoot name then (.ok none, m)
  else
    match m.entities[name]? with
    | some answer => (.ok answer, m)
    | none =>
      match store name with
      | .ok found => (.ok found, m.remember name found)
      | .error error => (.error error, m)

section Steps

variable {α β : Type}

@[simp] theorem run_pure_lookups (a : α) (x : Session σ) :
    ((pure a : Lookups σ α).run).run x = (.ok a, x) := rfl

@[simp] theorem run_throw_lookups (e : StoreError) (x : Session σ) :
    ((throw e : Lookups σ α).run).run x = (.error e, x) := rfl

@[simp] theorem run_get_lookups (x : Session σ) :
    ((get : Lookups σ (Session σ)).run).run x = (.ok x, x) := rfl

@[simp] theorem run_onWorld (f : σ → α × σ) (x : Session σ) :
    ((onWorld f).run).run x = (.ok (f x.world).1, { x with world := (f x.world).2 }) := rfl

@[simp] theorem run_remember (name : String) (answer : Option Entity) (x : Session σ) :
    ((remember name answer : Lookups σ Unit).run).run x
      = (.ok (), { x with memo := x.memo.remember name answer }) := rfl

theorem run_bind_lookups (l : Lookups σ α) (f : α → Lookups σ β) (x : Session σ) :
    ((l >>= f).run).run x = match (l.run).run x with
      | (.ok a, y) => ((f a).run).run y
      | (.error e, y) => (.error e, y) := by
  rw [ExceptT.run_bind, StateT.run_bind]
  rcases (l.run).run x with ⟨_ | _, _⟩ <;> rfl

end Steps

/-! ## Resolving -/

section Resolving

variable {b : Backing σ} {s : ResolverSettings} {used : String → Prop}
  {store : String → Except StoreError (Option Entity)} {sound broken : σ → Prop}

theorem Steady.faltering {space : String} (h : Steady b space used store sound) :
    Faltering b space used store sound fun _ => False where
  find hname hworld := .inl (h.find hname hworld)
  fetch := h.fetch
  fetched := h.fetched
  keep := h.keep

/-- The catalogue answers a name, and the cache keeps what it found; or the catalogue fails. -/
theorem Faltering.consult_cases (h : Faltering b s.cacheSpace used store sound broken)
    {name : String} (hname : used name) {x : Session σ} (hx : sound x.world) :
    (∃ world, sound world ∧ ((consult b (Lru.key s.cacheSpace name) name).run).run x
      = match store name with
        | .ok found => (.ok found, ⟨x.memo.remember name found, world⟩)
        | .error error => (.error error, ⟨x.memo, world⟩)) ∨
      ∃ error world, broken world ∧ ((consult b (Lru.key s.cacheSpace name) name).run).run x
        = (.error error, ⟨x.memo, world⟩) := by
  rcases h.find hname hx with ⟨hanswer, hworld⟩ | ⟨error, hanswer, hworld⟩
  · left
    -- only an entity is written to the cache, neither a miss nor a failure
    cases hstore : store name with
    | error error =>
        refine ⟨(b.find name x.world).2, hworld, ?_⟩
        simp only [consult, run_bind_lookups, run_onWorld, hanswer, hstore, run_throw_lookups]
    | ok found =>
        cases found with
        | none =>
            refine ⟨(b.find name x.world).2, hworld, ?_⟩
            simp only [consult, run_bind_lookups, run_onWorld, hanswer, hstore, run_remember,
              run_pure_lookups]
        | some e =>
            refine ⟨_, h.keep hname hworld hstore, ?_⟩
            simp only [consult, run_bind_lookups, run_onWorld, hanswer, hstore, run_remember,
              run_pure_lookups]
  · refine .inr ⟨error, (b.find name x.world).2, hworld, ?_⟩
    simp only [consult, run_bind_lookups, run_onWorld, hanswer, run_throw_lookups]

/-- **A resolver answers as one without a cache**, or passes on that the catalogue failed. -/
theorem Faltering.resolve?_cases (h : Faltering b s.cacheSpace used store sound broken)
    {raw : String} (hname : used (Text.trim raw)) {x : Session σ} (hx : sound x.world) :
    (∃ world, sound world ∧ ((resolve? b s raw).run).run x
      = ((x.memo.look s store raw).1, ⟨(x.memo.look s store raw).2, world⟩)) ∨
      ∃ error world, broken world ∧
        ((resolve? b s raw).run).run x = (.error error, ⟨x.memo, world⟩) := by
  unfold resolve? Memo.look
  by_cases hskip : ((Text.trim raw).isEmpty || s.isRoot (Text.trim raw)) = true
  · refine .inl ⟨x.world, hx, ?_⟩
    simp only [if_pos hskip, run_pure_lookups]
  · simp only [if_neg hskip, run_bind_lookups, run_get_lookups]
    cases hmemo : x.memo.entities[Text.trim raw]? with
    | some answer => exact .inl ⟨x.world, hx, rfl⟩
    | none =>
        have hfetch := h.fetch hname hx
        simp only [run_bind_lookups, run_onWorld]
        cases hcached : (b.fetch (Lru.key s.cacheSpace (Text.trim raw)) x.world).1.bind
            Entity.ofSnapshot? with
        | some e =>
            -- the cache answers, and what it says is what the catalogue would have said
            refine .inl ⟨_, hfetch, ?_⟩
            simp only [run_bind_lookups, run_remember, run_pure_lookups, h.fetched hname hx hcached]
        | none =>
            refine (h.consult_cases hname
              (x := { x with world := (b.fetch (Lru.key s.cacheSpace (Text.trim raw)) x.world).2 })
              hfetch).imp_left ?_
            rintro ⟨world, hworld, hrun⟩
            refine ⟨world, hworld, ?_⟩
            rw [hrun]
            cases store (Text.trim raw) <;> rfl

/-- **A resolver over a steady catalogue answers as one without a cache.** -/
theorem Steady.resolve?_eq (h : Steady b s.cacheSpace used store sound) {raw : String}
    (hname : used (Text.trim raw)) {x : Session σ} (hx : sound x.world) :
    ∃ world, sound world ∧ ((resolve? b s raw).run).run x
      = ((x.memo.look s store raw).1, ⟨(x.memo.look s store raw).2, world⟩) := by
  rcases h.faltering.resolve?_cases hname hx with hrun | ⟨_, _, hbroken, -⟩
  · exact hrun
  · exact hbroken.elim

/-- What an inquiry comes to has what holds of it under all answers. -/
theorem Inquiry.Obeys.of_run {α : Type} {asked : String → Prop} {P : α → Prop} {i : Inquiry α}
    (hi : i.Obeys asked P) {look : String → Lookups σ (Option Entity)} {x : Session σ} {result : α}
    (h : (((i.run look).run).run x).1 = .ok result) : P result := by
  induction i generalizing x with
  | done result' =>
      obtain rfl := Except.ok.inj h
      exact hi
  | ask name next ih =>
      unfold Inquiry.run at h
      rw [run_bind_lookups] at h
      split at h
      · next answer y _ => exact ih answer (hi.2 answer) h
      · exact absurd h (by simp)

/-- An inquiry comes to what it comes to under the answers that lookups give, when they cannot fail. -/
theorem Inquiry.run_answer {α : Type} (answer : String → Option Entity) (i : Inquiry α) (x : Session σ) :
    ((i.run fun name => (pure (answer name) : Lookups σ (Option Entity))).run).run x
      = (.ok (i.answeredBy answer), x) := by
  induction i with
  | done result => rfl
  | ask name next ih =>
      unfold Inquiry.run
      rw [run_bind_lookups, run_pure_lookups]
      exact ih (answer name)

end Resolving

/-! ## A catalogue in memory -/

namespace Deployment

/-- The answer of a catalogue that is up or down. -/
def answer (catalogue : Catalogue) (down : Bool) (name : String) :
    Except StoreError (Option Entity) :=
  if down then .error (.unavailable "backend offline") else .ok (catalogue.find? name)

/-- A catalogue that is up or down, and a cache that holds for the names in use what it would answer. -/
structure Sound (space : String) (used : String → Prop) (catalogue : Catalogue) (down : Bool)
    (d : Deployment) : Prop where
  asks : d.catalogue = catalogue
  state : d.down = down
  holds : ∀ {name text e}, used name → (Lru.key space name, text) ∈ d.cache.entries →
    Entity.ofSnapshot? text = some e → answer catalogue down name = .ok (some e)

variable {space : String} {used : String → Prop} {catalogue : Catalogue} {down : Bool}

/-- A deployment with an empty cache is sound. -/
theorem sound_of_empty {d : Deployment} (h : d.cache.entries = []) :
    Sound space used d.catalogue d.down d :=
  ⟨rfl, rfl, fun _ hmem => absurd hmem (by simp [h])⟩

theorem Sound.fetch {d : Deployment} (h : Sound space used catalogue down d) (key : String) :
    Sound space used catalogue down (d.fetch key).2 := by
  unfold Deployment.fetch
  split
  · exact h
  · exact ⟨h.asks, h.state, fun hname hmem => h.holds hname (Lru.mem_entries_read hmem)⟩

/-- Names in use that share no key, whose entities read back as they are or not at all, keep a
    deployment sound. -/
theorem Sound.keep {d : Deployment} (h : Sound space used catalogue down d)
    (hkeys : ∀ a b, used a → used b → Lru.key space a = Lru.key space b → a = b)
    (hsnapshots : ∀ name e e', used name → catalogue.find? name = some e →
      Entity.ofSnapshot? e.snapshot = some e' → e' = e) {name : String} {e : Entity}
    (hname : used name) (he : answer catalogue down name = .ok (some e)) :
    Sound space used catalogue down (d.keep (Lru.key space name) e.snapshot) := by
  unfold Deployment.keep
  split
  · exact h
  · refine ⟨h.asks, h.state, fun {name' text e'} hname' hmem htext => ?_⟩
    rcases Lru.mem_entries_write hmem with hnew | ⟨hold, -⟩
    · obtain ⟨hkey, rfl⟩ := Prod.mk.inj hnew
      obtain rfl := hkeys name' name hname' hname hkey
      have hfound : catalogue.find? name' = some e := by
        unfold answer at he
        split at he
        · exact absurd he (by simp)
        · exact Except.ok.inj he
      rw [he, hsnapshots name' e e' hname' hfound htext]
    · exact h.holds hname' hold htext

/-- **A catalogue in memory is steady**, whatever its cache loses, as long as the names in use share no
    key and their entities read back as they are or not at all. -/
theorem steady_deployment
    (hkeys : ∀ a b, used a → used b → Lru.key space a = Lru.key space b → a = b)
    (hsnapshots : ∀ name e e', used name → catalogue.find? name = some e →
      Entity.ofSnapshot? e.snapshot = some e' → e' = e) :
    Steady backing space used (answer catalogue down) (Sound space used catalogue down) := by
  constructor
  · intro name d _ hd
    refine ⟨?_, ⟨hd.asks, hd.state, hd.holds⟩⟩
    show (d.find name).1 = _
    simp only [Deployment.find, answer, hd.asks, hd.state]
  · intro name d _ hd
    exact hd.fetch _
  · intro name d e hname hd he
    obtain ⟨text, htext, he⟩ := Option.bind_eq_some_iff.1 he
    have hmem : (Lru.key space name, text) ∈ d.cache.entries := by
      have htext : (d.fetch (Lru.key space name)).1 = some text := htext
      unfold Deployment.fetch at htext
      split at htext
      · exact absurd htext (by simp)
      · exact Lru.mem_of_read htext
    exact hd.holds hname hmem he
  · intro name d e hname hd he
    exact hd.keep hkeys hsnapshots hname he

/-- While its cache cannot be read, a catalogue in memory is steady for all names. -/
theorem steady_of_readsFail :
    Steady backing space (fun _ => True) (answer catalogue down)
      (fun d => d.catalogue = catalogue ∧ d.down = down ∧ d.readsFail = true) := by
  constructor
  · rintro name d - ⟨rfl, rfl, hreads⟩
    exact ⟨rfl, rfl, rfl, hreads⟩
  · rintro name d - ⟨hasks, hstate, hreads⟩
    simp [backing, Deployment.fetch, hasks, hstate, hreads]
  · rintro name d e - ⟨-, -, hreads⟩ he
    simp [backing, Deployment.fetch, hreads] at he
  · rintro name d e - ⟨hasks, hstate, hreads⟩ -
    simp only [backing, Deployment.keep]
    split <;> exact ⟨hasks, hstate, hreads⟩

end Deployment

end FacetSearch
