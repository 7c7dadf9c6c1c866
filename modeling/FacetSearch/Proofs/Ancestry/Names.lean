import FacetSearch.Proofs.Ancestry.Memory
import FacetSearch.Proofs.Text.Trimming

set_option autoImplicit false

/-! # Names that coincide

An entity that is found is remembered under its identifier as well, whatever the catalogue finds there.
As long as the catalogue finds the entity there too, a resolver that has looked names up before answers
like a new one, and only then: otherwise two lookups tell them apart (`resolve?_afterCalls_iff`).
Other coincidences of names do no harm. -/

namespace FacetSearch

variable {σ : Type}

/-- The name is looked up as it stands: it is trimmed, and neither empty nor the root's. -/
structure ResolverSettings.LooksUp (s : ResolverSettings) (name : String) : Prop where
  trimmed : Text.trim name = name
  skips : (name.isEmpty || s.isRoot name) = false

/-- The entity that is found under a name is also found under its identifier, when both are looked up. -/
def OwnsIdentifiers (s : ResolverSettings) (used : String → Prop) (find : String → Option Entity) :
    Prop :=
  ∀ name e, used name → s.LooksUp name → find name = some e →
    used e.identifier → s.LooksUp e.identifier → find e.identifier = some e

/-- What is remembered of names that are looked up is what the catalogue finds. -/
def Memo.Faithful (m : Memo) (s : ResolverSettings) (used : String → Prop)
    (find : String → Option Entity) : Prop :=
  ∀ name found, m.entities[name]? = some found → used name → s.LooksUp name → found = find name

section

variable {s : ResolverSettings} {used : String → Prop} {find : String → Option Entity} {m : Memo}
  {name raw : String} {e : Entity}

theorem ResolverSettings.looksUp_trim
    (h : ¬ ((Text.trim raw).isEmpty || s.isRoot (Text.trim raw)) = true) :
    s.LooksUp (Text.trim raw) :=
  ⟨Text.trim_trim raw, by simpa using h⟩

theorem Memo.getElem?_remember_name (m : Memo) (name : String) (found : Option Entity) :
    (m.remember name found).entities[name]? = some found := by
  simp [remember]

theorem Memo.getElem?_remember_identifier (m : Memo) (name : String) (e : Entity) :
    (m.remember name (some e)).entities[e.identifier]? = some (some e) := by
  by_cases hsame : e.identifier = name
  · rw [hsame, getElem?_remember_name]
  · rw [remember, Std.ExtTreeMap.getElem?_insert, if_neg (by simpa using Ne.symm hsame)]
    simp [hsame]

theorem Memo.faithful_empty : ({} : Memo).Faithful s used find := by
  intro name found hfound
  exact absurd hfound (by simp)

theorem Memo.Faithful.remember (h : m.Faithful s used find) (howns : OwnsIdentifiers s used find)
    (hused : used name) (hname : s.LooksUp name) :
    (m.remember name (find name)).Faithful s used find := by
  intro name' found hfound hused' hname'
  rcases Memo.of_getElem?_remember hfound with ⟨rfl, rfl | ⟨e, he, rfl⟩⟩ | hold
  · rfl
  · rw [he, howns name e hused hname he hused' hname']
  · exact h name' found hold hused' hname'

/-- Looking a name up in a faithful memory gives what the catalogue finds, and keeps it faithful. -/
theorem Memo.Faithful.look (h : m.Faithful s used find) (howns : OwnsIdentifiers s used find)
    (hraw : used (Text.trim raw)) :
    (m.look s (fun name => .ok (find name)) raw).1 = .ok (s.answer find raw) ∧
      (m.look s (fun name => .ok (find name)) raw).2.Faithful s used find := by
  unfold Memo.look ResolverSettings.answer
  dsimp only
  split
  · exact ⟨rfl, h⟩
  · next hskip =>
    have hname := ResolverSettings.looksUp_trim hskip
    cases hmemo : m.entities[Text.trim raw]? with
    | some found =>
        rw [h _ found hmemo hraw hname]
        exact ⟨rfl, h⟩
    | none => exact ⟨rfl, h.remember howns hraw hname⟩

end

/-- The session after looking names up, one after the other. -/
def afterNames (b : Backing σ) (s : ResolverSettings) (world : σ) (names : List String) : Session σ :=
  afterCalls b s world (names.map .resolve)

section

variable {b : Backing σ} {s : ResolverSettings} {used : String → Prop}
  {find : String → Option Entity} {sound : σ → Prop} {world : σ}

theorem faithful_afterNames (h : Steady b s.cacheSpace used (fun name => .ok (find name)) sound)
    (howns : OwnsIdentifiers s used find) (hworld : sound world) {names : List String}
    (hnames : ∀ name ∈ names, used (Text.trim name)) :
    sound (afterNames b s world names).world ∧
      (afterNames b s world names).memo.Faithful s used find := by
  refine afterCalls_induction (fun x => sound x.world ∧ x.memo.Faithful s used find)
    ⟨hworld, Memo.faithful_empty⟩ ?_
  rintro call hcall x ⟨hsound, hfaithful⟩
  obtain ⟨name, hname, rfl⟩ := List.mem_map.1 hcall
  obtain ⟨world', hworld', hrun⟩ := h.resolve?_eq (hnames name hname) hsound
  rw [ResolverCall.after, hrun]
  exact ⟨hworld', (hfaithful.look howns (hnames name hname)).2⟩

/-- **What was looked up before changes no answer exactly when entities own their identifiers.** -/
theorem resolve?_afterNames_iff
    (h : Steady b s.cacheSpace used (fun name => .ok (find name)) sound) (hworld : sound world) :
    (∀ names raw, (∀ name ∈ names, used (Text.trim name)) → used (Text.trim raw) →
      (((resolve? b s raw).run).run (afterNames b s world names)).1
        = (((resolve? b s raw).run).run { world }).1) ↔
    OwnsIdentifiers s used find := by
  constructor
  · intro hsame name e hused hname he hused' hname'
    have hlooked : ({} : Memo).look s (fun name => .ok (find name)) name
        = (.ok (some e), ({} : Memo).remember name (some e)) := by
      simp [Memo.look, hname.trimmed, hname.skips, he]
    have hused₁ : used (Text.trim name) := by rwa [hname.trimmed]
    have hused₂ : used (Text.trim e.identifier) := by rwa [hname'.trimmed]
    -- the name brings the entity into memory, under its identifier as well
    obtain ⟨world', hworld', hrun⟩ := h.resolve?_eq hused₁ (x := { world }) hworld
    have hnames : afterNames b s world [name] = ⟨({} : Memo).remember name (some e), world'⟩ := by
      show (((resolve? b s name).run).run { world }).2 = _
      rw [hrun, hlooked]
    obtain ⟨_, -, hold⟩ := h.resolve?_eq hused₂
      (x := ⟨({} : Memo).remember name (some e), world'⟩) hworld'
    obtain ⟨_, -, hnew⟩ := h.resolve?_eq hused₂ (x := { world }) hworld
    have hafter := hsame [name] e.identifier (by simpa using hused₁) hused₂
    rw [hnames, hold, hnew] at hafter
    simpa [Memo.look, hname'.trimmed, hname'.skips, Memo.getElem?_remember_identifier, eq_comm]
      using hafter
  · intro howns names raw hnames hraw
    obtain ⟨hsound, hfaithful⟩ := faithful_afterNames h howns hworld hnames
    obtain ⟨_, -, hold⟩ := h.resolve?_eq hraw hsound
    obtain ⟨_, -, hnew⟩ := h.resolve?_eq hraw (x := { world }) hworld
    rw [hold, hnew, (hfaithful.look howns hraw).1, (Memo.faithful_empty.look howns hraw).1]

end

/-- Two concepts, of which one goes by the other's identifier. -/
def namesakes : List Entity :=
  [.make "sheep" "ewe" "Sheep" .concept, .make "lamb" "sheep" "Lamb" .concept]

/-- A catalogue whose cache is empty. -/
def uncachedDeployment (entities : List Entity) : Deployment where
  catalogue := .ofList entities
  cache := .empty 8
  readsFail := true

/-- The shared name belongs to the concept that has it for an identifier, so it does no harm. -/
theorem resolve?_afterNames_namesakes :
    OwnsIdentifiers {} (fun _ => True) (Catalogue.ofList namesakes).find? ∧
    ∀ names raw,
      (((resolve? Deployment.backing {} raw).run).run
        (afterNames Deployment.backing {} (uncachedDeployment namesakes) names)).1
      = (((resolve? Deployment.backing {} raw).run).run { world := uncachedDeployment namesakes }).1 := by
  have hsteady := @Deployment.steady_of_readsFail "entity" (.ofList namesakes) false
  have howned : ∀ e ∈ namesakes,
      (Catalogue.ofList namesakes).find? e.identifier = some e := by decide +kernel
  have howns : OwnsIdentifiers {} (fun _ => True) (Catalogue.ofList namesakes).find? :=
    fun _ e _ _ he _ _ => howned e (Catalogue.mem_of_find?_ofList he).1
  refine ⟨howns, fun names raw => ?_⟩
  exact (resolve?_afterNames_iff hsteady ⟨rfl, rfl, rfl⟩).2 howns names raw (fun _ _ => trivial) trivial

/-- **Looking an entity up may change the answer for its identifier**, when that is the name of one that
    was inserted before it. -/
theorem resolve?_afterNames_namesakes_reverse :
    ∃ sheep lamb, sheep ≠ lamb ∧
      (((resolve? Deployment.backing {} "sheep").run).run
        { world := uncachedDeployment namesakes.reverse }).1 = .ok (some lamb) ∧
      (((resolve? Deployment.backing {} "sheep").run).run
        (afterNames Deployment.backing {} (uncachedDeployment namesakes.reverse) ["ewe"])).1
          = .ok (some sheep) := by
  refine ⟨.make "sheep" "ewe" "Sheep" .concept, .make "lamb" "sheep" "Lamb" .concept, ?_, ?_, ?_⟩
    <;> decide +kernel

end FacetSearch
