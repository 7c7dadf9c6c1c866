import FacetSearch.Proofs.Ancestry.ConceptChains

set_option autoImplicit false

/-! # Chains within the limits

Places and projects have one chain, along their first parents. It is the whole line of the entity when
that ends within the limit on depth: a line that ends has no entity twice, so no climb breaks it off
(`ensures_climb_line`). Together with what is known of concepts this says what the chains of every entity
are that is within the limits, from memory as from a walk (`ensures_ancestorChains_exact`). -/

namespace FacetSearch

variable {σ : Type}

/-! ## Lines -/

/-- The entity behind the first parent name that counts. -/
def firstParent? (s : ResolverSettings) (answer : String → Option Entity) (kind : HierarchyKind)
    (e : Entity) : Option Entity :=
  (parentNames s kind e).head?.bind answer

/-- The line of an entity: itself, its first parent and so on, until there is none. -/
inductive Line (s : ResolverSettings) (answer : String → Option Entity) (kind : HierarchyKind) :
    Entity → List Entity → Prop where
  | top {e : Entity} (hnone : firstParent? s answer kind e = none) : Line s answer kind e [e]
  | climb {e parent : Entity} {line : List Entity}
      (hparent : firstParent? s answer kind e = some parent)
      (hrest : Line s answer kind parent line) : Line s answer kind e (e :: line)

section

variable {s : ResolverSettings} {answer : String → Option Entity} {kind : HierarchyKind}
  {e parent : Entity} {line : List Entity}

theorem Line.unique {line' : List Entity} (h : Line s answer kind e line)
    (h' : Line s answer kind e line') : line = line' := by
  induction h generalizing line' with
  | top hnone =>
      cases h' with
      | top => rfl
      | climb hparent' => exact absurd (hnone.symm.trans hparent') (by simp)
  | climb hparent _ ih =>
      cases h' with
      | top hnone' => exact absurd (hnone'.symm.trans hparent) (by simp)
      | climb hparent' hrest' =>
          obtain rfl := Option.some.inj (hparent.symm.trans hparent')
          rw [ih hrest']

theorem Line.length_pos (h : Line s answer kind e line) : 0 < line.length := by
  cases h <;> simp

/-- An entity on a line has a line of its own, which is no longer. -/
theorem Line.above {a : Entity} (h : Line s answer kind e line) (ha : a ∈ line) :
    ∃ rest, Line s answer kind a rest ∧ rest.length ≤ line.length := by
  induction h with
  | top hnone =>
      obtain rfl := List.mem_singleton.1 ha
      exact ⟨_, .top hnone, Nat.le_refl _⟩
  | climb hparent hrest ih =>
      rcases List.mem_cons.1 ha with rfl | ha
      · exact ⟨_, .climb hparent hrest, Nat.le_refl _⟩
      · obtain ⟨rest, hline, hle⟩ := ih ha
        exact ⟨rest, hline, hle.trans (Nat.le_succ _)⟩

/-- A line does not come back to where it began. -/
theorem Line.not_mem (h : Line s answer kind parent line)
    (hparent : firstParent? s answer kind e = some parent) : e ∉ line := by
  intro hmem
  obtain ⟨rest, hrest, hle⟩ := h.above hmem
  rw [hrest.unique (.climb hparent h), List.length_cons] at hle
  omega

theorem exists_of_firstParent? (h : firstParent? s answer kind e = some parent) :
    ∃ name ∈ (parentNames s kind e).head?, answer name = some parent :=
  Option.bind_eq_some_iff.1 h

theorem Line.answered {raw : String} (h : Line s answer kind e line) (he : answer raw = some e)
    {a : Entity} (ha : a ∈ line) : ∃ raw, answer raw = some a := by
  induction h generalizing raw with
  | top =>
      obtain rfl := List.mem_singleton.1 ha
      exact ⟨raw, he⟩
  | climb hparent _ ih =>
      rcases List.mem_cons.1 ha with rfl | ha
      · exact ⟨raw, he⟩
      · obtain ⟨name, -, hname⟩ := exists_of_firstParent? hparent
        exact ih hname ha

end

/-! ## Chains of every kind -/

/-- The limits cut no chain of the entity. -/
def WithinLimits (s : ResolverSettings) (answer : String → Option Entity) (kind : HierarchyKind)
    (e : Entity) : Prop :=
  match kind with
  | .concept => Within s answer e
  | .spatial | .project => ∃ line, Line s answer kind e line ∧ line.length ≤ s.maxDepth

/-- The chains are all that the entity has: for a concept its maximal paths, for a place or a project
    its line, the root first. -/
def ChainsOf (s : ResolverSettings) (answer : String → Option Entity) (kind : HierarchyKind)
    (e : Entity) (chains : List Chain) : Prop :=
  match kind with
  | .concept => chains = (upwardPaths s answer e).map (⟨.concept, ·⟩)
  | .spatial | .project => ∃ line, Line s answer kind e line ∧ chains = [⟨kind, line.reverse⟩]

/-- What is remembered of a place or a project within the limits is its line. -/
def Lined (s : ResolverSettings) (answer : String → Option Entity) (m : ChainMemo) : Prop :=
  ∀ kind raw e chains, kind ≠ .concept → answer raw = some e → WithinLimits s answer kind e →
    m.get? kind e.identifier = some chains → ChainsOf s answer kind e chains

/-- What is remembered of any entity within the limits are its chains. -/
structure Exact (s : ResolverSettings) (answer : String → Option Entity) (m : ChainMemo) : Prop where
  full : Full s answer m
  lined : Lined s answer m

section

variable {s : ResolverSettings} {answer : String → Option Entity} {kind : HierarchyKind} {e : Entity}
  {m : ChainMemo} {raw : String} {chains : List Chain}

theorem ChainsOf.unique {chains' : List Chain} (h : ChainsOf s answer kind e chains)
    (h' : ChainsOf s answer kind e chains') : chains = chains' := by
  cases kind with
  | concept => exact Eq.trans h (Eq.symm h')
  | spatial | project =>
      obtain ⟨line, hline, rfl⟩ := h
      obtain ⟨line', hline', rfl⟩ := h'
      rw [hline.unique hline']

theorem Lined.insert_concept (h : Lined s answer m) (identifier : String) (chains : List Chain) :
    Lined s answer (m.insert .concept identifier chains) := by
  intro kind raw e chains' hkind he hwithin hget
  rw [ChainMemo.get?_insert, if_neg fun hsame => hkind hsame.1.symm] at hget
  exact h kind raw e chains' hkind he hwithin hget

theorem exact_empty : Exact s answer {} :=
  ⟨full_empty, fun kind _ _ _ _ _ _ hget => absurd hget (by simp)⟩

theorem Exact.chainsOf (h : Exact s answer m) (he : answer raw = some e)
    (hwithin : WithinLimits s answer kind e) (hget : m.get? kind e.identifier = some chains) :
    ChainsOf s answer kind e chains := by
  cases kind with
  | concept => exact h.full raw e chains he hwithin hget
  | spatial | project => exact h.lined _ raw e chains (by simp) he hwithin hget

theorem Exact.insert (h : Exact s answer m) (hids : Identified answer) (he : answer raw = some e)
    (hchains : WithinLimits s answer kind e → ChainsOf s answer kind e chains) :
    Exact s answer (m.insert kind e.identifier chains) := by
  refine ⟨h.full.insert hids he ?_, ?_⟩
  · rintro rfl
    exact hchains
  · intro kind' raw' e' chains' hkind he' hwithin hget
    rw [ChainMemo.get?_insert] at hget
    split at hget
    · next hsame =>
      obtain ⟨rfl, hidentifier⟩ := hsame
      obtain rfl := hids _ _ _ _ he he' hidentifier
      obtain rfl := Option.some.inj hget
      exact hchains hwithin
    · exact h.lined kind' raw' e' chains' hkind he' hwithin hget

end

/-! ## The climb -/

section Resolver

variable {b : Backing σ} {s : ResolverSettings} {used : String → Prop}
  {gives : String → Option Entity → Prop} {knows : Session σ → Prop} {fails : Prop}
  {answer : String → Option Entity}

/-- **Climbing comes to the whole line**, when the hops suffice and it is clear of what was seen. -/
theorem ensures_climb_line (h : Answering b s used gives knows fails)
    (hgives : ∀ raw found, gives raw found → found = answer raw) (hids : Identified answer)
    (known : ChainMemo → Prop) {kind : HierarchyKind} {hops : Nat} {seen : List String} {raw : String}
    {e : Entity} {line : List Entity} (he : gives raw (some e)) (hline : Line s answer kind e line)
    (hlength : line.length ≤ hops + 1) (hclear : ∀ a ∈ line, a.identifier ∉ seen) :
    Ensures (Knowing knows known) (climb b s kind hops seen e)
      (fun path y => Knowing knows known y ∧ path = line) (fun y => fails ∧ Knowing knows known y) := by
  induction hline generalizing hops seen raw with
  | @top e hnone =>
      unfold climb
      cases hname : (parentNames s kind e).head? with
      | none => exact ensures_pure fun x hx => ⟨hx, rfl⟩
      | some name =>
          cases hops with
          | zero => exact ensures_pure fun x hx => ⟨hx, rfl⟩
          | succ hops =>
              have hused := h.used_of_mem_parentNames he (List.mem_of_mem_head? hname)
              refine ensures_bind (h.ensures_resolve? known hused) fun found =>
                ensures_of_fact fun hfound => ?_
              rw [firstParent?, hname, Option.bind_some] at hnone
              obtain rfl := (hgives _ _ hfound).trans hnone
              exact ensures_pure fun x hx => ⟨hx, rfl⟩
  | @climb e parent line hparent hrest ih =>
      obtain ⟨name, hname, hanswer⟩ := exists_of_firstParent? hparent
      obtain ⟨fewer, rfl⟩ : ∃ fewer, hops = fewer + 1 := by
        have hpos := hrest.length_pos
        rw [List.length_cons] at hlength
        exact Nat.exists_eq_add_of_le' (by omega)
      unfold climb
      rw [Option.mem_def.1 hname]
      have hused := h.used_of_mem_parentNames he (List.mem_of_mem_head? hname)
      refine ensures_bind (h.ensures_resolve? known hused) fun found =>
        ensures_of_fact fun hfound => ?_
      obtain rfl := (hgives _ _ hfound).trans hanswer
      -- an entity on the line with the identifier of `e` would be `e`
      have hclear' : ∀ a ∈ line, a.identifier ∉ e.identifier :: seen := by
        intro a ha hmem
        rcases List.mem_cons.1 hmem with hsame | hmem
        · obtain ⟨raw', hraw'⟩ := hrest.answered hanswer ha
          obtain rfl := hids _ _ _ _ hraw' (hgives _ _ he).symm hsame
          exact hrest.not_mem hparent ha
        · exact hclear a (List.mem_cons_of_mem _ ha) hmem
      have hparent_mem : parent ∈ line := by
        cases hrest <;> simp
      have hfresh : parent.identifier ∉ e.identifier :: seen := hclear' parent hparent_mem
      simp only [List.contains_eq_mem, hfresh, decide_false, Bool.false_eq_true, if_false]
      refine ensures_bind (ih hfound (Nat.le_of_succ_le_succ hlength) hclear') fun path =>
        ensures_pure fun x hx => ⟨hx.1, ?_⟩
      rw [hx.2]

/-- Climbing within the limit comes to the line of the entity, if it has one there. -/
theorem ensures_climb_whole (h : Answering b s used gives knows fails)
    (hgives : ∀ raw found, gives raw found → found = answer raw) (hids : Identified answer)
    (known : ChainMemo → Prop) {kind : HierarchyKind} {raw : String} {e : Entity}
    (he : gives raw (some e)) :
    Ensures (Knowing knows known) (climb b s kind (s.maxDepth - 1) [] e)
      (fun path y => Knowing knows known y ∧ ∀ line, Line s answer kind e line →
        line.length ≤ s.maxDepth → path = line)
      (fun y => fails ∧ Knowing knows known y) := by
  by_cases hwhole : ∃ line, Line s answer kind e line ∧ line.length ≤ s.maxDepth
  · obtain ⟨line, hline, hlength⟩ := hwhole
    refine (ensures_climb_line h hgives hids known he hline (by omega) (by simp)).mono (fun _ => id)
      (fun path y hy => ⟨hy.1, fun line' hline' _ => ?_⟩) fun _ => id
    rw [hy.2, hline.unique hline']
  · exact (h.ensures_climb known he).mono (fun _ => id)
      (fun path y hy => ⟨hy.1, fun line hline hlength => absurd ⟨line, hline, hlength⟩ hwhole⟩)
      fun _ => id

/-- A walk comes to the chains of an entity within the limits, and leaves what is remembered exact. -/
theorem ensures_walkChains_exact (h : Answering b s used gives knows fails)
    (hgives : ∀ raw found, gives raw found → found = answer raw) (hids : Identified answer)
    {kind : HierarchyKind} {raw : String} {e : Entity} (he : gives raw (some e)) :
    Ensures (Knowing knows (Exact s answer)) (walkChains b s kind e)
      (fun chains y => Knowing knows (Exact s answer) y ∧
        (WithinLimits s answer kind e → ChainsOf s answer kind e chains))
      (fun y => fails ∧ Knowing knows (Exact s answer) y) := by
  cases kind with
  | concept =>
      have hfull : Ensures (Knowing knows (Full s answer)) (conceptWalk b s s.maxDepth [] e) _ _ :=
        ensures_conceptWalk h hgives hids he
      have hwalk := hfull.and (h.ensures_conceptWalk_of_stable (Lined s answer)
        (fun m identifier chains hm => hm.insert_concept identifier chains) s.maxDepth [] he)
      refine ensures_bind (hwalk.mono ?_ (fun _ _ => id) ?_) fun found => ensures_pure ?_
      · exact fun x hx => ⟨⟨hx.session, hx.chains.full⟩, hx.session, hx.chains.lined⟩
      · exact fun y hy => ⟨hy.1.1, hy.1.2.session, hy.1.2.chains, hy.2.2.chains⟩
      · rintro x ⟨⟨hfull, hcovers⟩, hlined⟩
        refine ⟨⟨hfull.session, hfull.chains, hlined.chains⟩, fun hwithin => ?_⟩
        have huncut : Uncut s answer s.maxDepth [] e := ⟨Within.depth hwithin, by simp⟩
        exact congrArg _ (hcovers hwithin (.inr huncut))
  | spatial | project =>
      refine ensures_bind (ensures_climb_whole h hgives hids _ he) fun path => ensures_pure ?_
      rintro x ⟨hx, hpath⟩
      refine ⟨hx, ?_⟩
      rintro ⟨line, hline, hlength⟩
      exact ⟨line, hline, by rw [hpath line hline hlength]⟩

/-- **Listing chains gives an entity within the limits its chains**, and leaves what is remembered
    exact. -/
theorem ensures_ancestorChains_exact (h : Answering b s used gives knows fails)
    (hgives : ∀ raw found, gives raw found → found = answer raw) (hids : Identified answer)
    {raw : String} (hraw : used (Text.trim raw)) (kind : HierarchyKind) :
    Ensures (Knowing knows (Exact s answer)) (ancestorChains b s raw kind)
      (fun found y => Knowing knows (Exact s answer) y ∧ match found with
        | none => gives raw none
        | some chains => ∃ e, gives raw (some e) ∧
            (WithinLimits s answer kind e → ChainsOf s answer kind e chains))
      (fun y => fails ∧ Knowing knows (Exact s answer) y) :=
  h.ensures_ancestorChains_right hraw
    (fun e chains => WithinLimits s answer kind e → ChainsOf s answer kind e chains)
    (fun _ _ _ hm he hget hwithin => hm.chainsOf (hgives _ _ he).symm hwithin hget)
    (fun _ _ _ hm he hchains => hm.insert hids (hgives _ _ he).symm hchains)
    fun _ he => ensures_walkChains_exact h hgives hids he

end Resolver

end FacetSearch
