import FacetSearch.Proofs.Ancestry.Memory
import Mathlib

set_option autoImplicit false

/-! # Chains without repetition

A walk keeps away from the concepts on its trail, but the chains that it takes from memory were walked
on another trail. What a complete walk left behind does no harm: each concept on it that leads back to
where it began is remembered too (`Held`), and a concept on the trail is not remembered yet. A call,
however, remembers the chains of its own concept even when a cycle cut them.

So no chain has an identifier twice as long as no earlier call asked for a concept on a cycle
(`nodup_identifiers_of_ancestorChains`), and after such a call one may (`ancestorChains_ring`). -/

namespace FacetSearch

variable {σ : Type}

/-! ## Cycles -/

section

variable (s : ResolverSettings) (gives : String → Option Entity → Prop)

/-- The second identifier is that of a parent of an entity with the first. -/
def Above (below above : String) : Prop :=
  ∃ raw e name parent, gives raw (some e) ∧ e.identifier = below ∧
    name ∈ parentNames s .concept e ∧ gives name (some parent) ∧ parent.identifier = above

/-- The identifier leads to another one and back. -/
def OnCycle (identifier : String) : Prop :=
  ∃ other, other ≠ identifier ∧ Relation.ReflTransGen (Above s gives) identifier other ∧
    Relation.ReflTransGen (Above s gives) other identifier

end

variable {s : ResolverSettings} {gives : String → Option Entity → Prop}

/-- An identifier from which a rank decreases is on no cycle. -/
theorem not_onCycle_of_rank (rank : String → Nat) {bound : Nat}
    (hrank : ∀ below above, Above s gives below above → rank below ≤ bound → rank above < rank below)
    {identifier : String} (hidentifier : rank identifier ≤ bound) : ¬ OnCycle s gives identifier := by
  have hdown : ∀ {a c}, Relation.ReflTransGen (Above s gives) a c → rank a ≤ bound →
      c = a ∨ rank c < rank a := by
    intro a c hac ha
    induction hac with
    | refl => exact .inl rfl
    | tail _ hstep ih =>
        rcases ih with rfl | hlt
        · exact .inr (hrank _ _ hstep ha)
        · exact .inr ((hrank _ _ hstep (hlt.le.trans ha)).trans hlt)
  rintro ⟨other, hne, hthere, hback⟩
  have hlt := (hdown hthere hidentifier).resolve_left hne
  have hlt' := (hdown hback (hlt.le.trans hidentifier)).resolve_left (Ne.symm hne)
  omega

/-! ## Straight chains -/

/-- The identifiers of a chain, all different, above its start and off the trail. -/
structure Straight (s : ResolverSettings) (gives : String → Option Entity → Prop)
    (trail : List String) (start : String) (identifiers : List String) : Prop where
  nodup : identifiers.Nodup
  clear : ∀ t ∈ identifiers, t ∉ trail
  reach : ∀ t ∈ identifiers, Relation.ReflTransGen (Above s gives) start t

/-- Whatever of a chain leads back to its start is remembered. -/
def Held (s : ResolverSettings) (gives : String → Option Entity → Prop) (m : ChainMemo)
    (start : String) (identifiers : List String) : Prop :=
  ∀ t ∈ identifiers, t ≠ start → Relation.ReflTransGen (Above s gives) t start →
    (m.get? .concept t).isSome

/-- The remembered chains of concepts are straight and held. -/
def Untwisted (s : ResolverSettings) (gives : String → Option Entity → Prop) (m : ChainMemo) : Prop :=
  ∀ start chains, m.get? .concept start = some chains → ∀ chain ∈ chains,
    Straight s gives [] start chain.identifiers ∧ Held s gives m start chain.identifiers

/-- The paths of a walk are straight, and those of a complete walk are held. -/
def Fair (s : ResolverSettings) (gives : String → Option Entity → Prop) (m : ChainMemo)
    (trail : List String) (start : String) (found : Walk) : Prop :=
  ∀ path ∈ found.paths, Straight s gives trail start (path.map (·.identifier)) ∧
    (found.complete = true → Held s gives m start (path.map (·.identifier)))

/-- What is remembered while the concepts of `here` are walked: nothing of them, and everything that
    was kept before. -/
structure Walking (s : ResolverSettings) (gives : String → Option Entity → Prop)
    (here : List String) (kept : String → Prop) (m : ChainMemo) : Prop where
  untwisted : Untwisted s gives m
  absent : ∀ t ∈ here, m.get? .concept t = none
  keeps : ∀ t, kept t → (m.get? .concept t).isSome

section Chains

variable {m m' : ChainMemo} {trail identifiers : List String} {start : String} {e parent : Entity}
  {kept : String → Prop}

theorem Straight.singleton (hfresh : start ∉ trail) : Straight s gives trail start [start] := by
  refine ⟨List.nodup_singleton _, fun t ht => ?_, fun t ht => ?_⟩
  · obtain rfl := List.mem_singleton.1 ht
    exact hfresh
  · obtain rfl := List.mem_singleton.1 ht
    exact .refl

theorem Straight.cons {below : String} (h : Straight s gives (trail ++ [below]) start identifiers)
    (habove : Above s gives below start) (hfresh : below ∉ trail) :
    Straight s gives trail below (below :: identifiers) := by
  refine ⟨List.nodup_cons.2 ⟨fun hmem => h.clear _ hmem (by simp), h.nodup⟩, ?_, ?_⟩
  · intro t ht
    rcases List.mem_cons.1 ht with rfl | ht
    · exact hfresh
    · exact fun hmem => h.clear t ht (List.mem_append_left _ hmem)
  · intro t ht
    rcases List.mem_cons.1 ht with rfl | ht
    · exact .refl
    · exact .head habove (h.reach t ht)

theorem held_singleton : Held s gives m start [start] :=
  fun _ ht hne _ => absurd (List.mem_singleton.1 ht) hne

theorem Held.mono (h : Held s gives m start identifiers)
    (hgrow : ∀ t, (m.get? .concept t).isSome → (m'.get? .concept t).isSome) :
    Held s gives m' start identifiers :=
  fun t ht hne hback => hgrow t (h t ht hne hback)

theorem Held.cons {below : String} (h : Held s gives m start identifiers)
    (habove : Above s gives below start) (hstart : (m.get? .concept start).isSome) :
    Held s gives m below (below :: identifiers) := by
  intro t ht hne hback
  have ht := (List.mem_cons.1 ht).resolve_left hne
  by_cases hsame : t = start
  · exact hsame ▸ hstart
  · exact h t ht hsame (hback.tail habove)

/-- Remembering more forgets nothing. -/
theorem isSome_get?_insert {kind : HierarchyKind} {identifier : String} {chains : List Chain}
    {t : String} (h : (m.get? .concept t).isSome) :
    ((m.insert kind identifier chains).get? .concept t).isSome := by
  rw [ChainMemo.get?_insert]
  split
  · rfl
  · exact h

theorem untwisted_empty : Untwisted s gives {} := by
  intro start chains hchains
  exact absurd hchains (by simp)

theorem Untwisted.insert (h : Untwisted s gives m) {kind : HierarchyKind} {chains : List Chain}
    (hchains : kind = .concept → ∀ chain ∈ chains, Straight s gives [] start chain.identifiers ∧
      Held s gives m start chain.identifiers) :
    Untwisted s gives (m.insert kind start chains) := by
  intro start' chains' hget chain hchain
  rw [ChainMemo.get?_insert] at hget
  have hboth : Straight s gives [] start' chain.identifiers ∧
      Held s gives m start' chain.identifiers := by
    split at hget
    · next hsame =>
      obtain ⟨rfl, rfl⟩ := hsame
      obtain rfl := Option.some.inj hget
      exact hchains rfl chain hchain
    · exact h start' chains' hget chain hchain
  exact ⟨hboth.1, hboth.2.mono fun _ => isSome_get?_insert⟩

/-- Off the trail, remembered chains are off it all the way: what leads back would be remembered. -/
theorem Walking.straight {here : List String} (h : Walking s gives here kept m)
    (hstart : start ∉ here) (hhere : ∀ t ∈ here, Relation.ReflTransGen (Above s gives) t start)
    {chains : List Chain} (hchains : m.get? .concept start = some chains) {chain : Chain}
    (hchain : chain ∈ chains) : Straight s gives here start chain.identifiers := by
  obtain ⟨hstraight, hheld⟩ := h.untwisted start chains hchains chain hchain
  refine ⟨hstraight.nodup, fun t ht hmem => ?_, hstraight.reach⟩
  have hsome := hheld t ht (fun hsame => hstart (hsame ▸ hmem)) (hhere t hmem)
  rw [h.absent t hmem] at hsome
  exact absurd hsome (by simp)

theorem Walking.enter {here : List String} (h : Walking s gives here kept m)
    (hstart : m.get? .concept start = none) : Walking s gives (here ++ [start]) kept m := by
  refine ⟨h.untwisted, fun t ht => ?_, h.keeps⟩
  rcases List.mem_append.1 ht with ht | ht
  · exact h.absent t ht
  · exact List.mem_singleton.1 ht ▸ hstart

theorem Walking.leave {here : List String} (h : Walking s gives (here ++ [start]) kept m) :
    Walking s gives here kept m :=
  ⟨h.untwisted, fun t ht => h.absent t (List.mem_append_left _ ht), h.keeps⟩

theorem Walking.insert {here : List String} (h : Walking s gives here kept m) (hstart : start ∉ here)
    {chains : List Chain} (hchains : ∀ chain ∈ chains, Straight s gives [] start chain.identifiers ∧
      Held s gives m start chain.identifiers) :
    Walking s gives here kept (m.insert .concept start chains) := by
  refine ⟨h.untwisted.insert fun _ => hchains, fun t ht => ?_, fun t ht => ?_⟩
  · rw [ChainMemo.get?_insert, if_neg, h.absent t ht]
    exact fun hsame => hstart (hsame.2 ▸ ht)
  · exact isSome_get?_insert (h.keeps t ht)

/-- The chains that a walk comes to. -/
theorem Fair.straight {found : Walk} (h : Fair s gives m trail start found) {chain : Chain}
    (hchain : chain ∈ found.paths.map (⟨.concept, ·⟩)) :
    Straight s gives [] start chain.identifiers ∧
      (found.complete = true → Held s gives m start chain.identifiers) := by
  obtain ⟨path, hpath, rfl⟩ := List.mem_map.1 hchain
  obtain ⟨hstraight, hheld⟩ := h path hpath
  exact ⟨⟨hstraight.nodup, by simp, hstraight.reach⟩, hheld⟩

theorem Fair.mono {found : Walk} (h : Fair s gives m trail start found)
    (hgrow : ∀ t, (m.get? .concept t).isSome → (m'.get? .concept t).isSome) :
    Fair s gives m' trail start found :=
  fun path hpath => ⟨(h path hpath).1, fun hcomplete => ((h path hpath).2 hcomplete).mono hgrow⟩

/-- The paths that one more parent adds are straight too. -/
theorem Fair.extend {done above : Walk} (h : Fair s gives m trail e.identifier done)
    (habove : Fair s gives m (trail ++ [e.identifier]) parent.identifier above)
    (hheld : above.complete = true → (m.get? .concept parent.identifier).isSome)
    (hparent : Above s gives e.identifier parent.identifier) (hfresh : e.identifier ∉ trail)
    (room : Nat) : Fair s gives m trail e.identifier (done.extend e room above) := by
  intro path hpath
  rcases List.mem_append.1 hpath with hpath | hpath
  · obtain ⟨hstraight, hcomplete⟩ := h path hpath
    exact ⟨hstraight, fun hboth => hcomplete ((Bool.and_eq_true _ _).mp hboth).1⟩
  · obtain ⟨rest, hrest, rfl⟩ := List.mem_map.1 hpath
    obtain ⟨hstraight, hcomplete⟩ := habove rest (List.mem_of_mem_take hrest)
    refine ⟨hstraight.cons hparent hfresh, fun hboth => ?_⟩
    have hdone := ((Bool.and_eq_true _ _).mp hboth).2
    exact (hcomplete hdone).cons hparent (hheld hdone)

/-- A walk without paths comes to the one that stays. -/
theorem Fair.stay {found : Walk} (h : Fair s gives m trail e.identifier found)
    (hfresh : e.identifier ∉ trail) :
    Fair s gives m trail e.identifier
      (if found.paths.isEmpty then { found with paths := [[e]] } else found) := by
  split
  · intro path hpath
    obtain rfl := List.mem_singleton.1 hpath
    exact ⟨.singleton hfresh, fun _ => held_singleton⟩
  · exact h

end Chains

/-! ## Walks -/

section Walks

variable {b : Backing σ} {used : String → Prop} {knows : Session σ → Prop} {fails : Prop}
  {e parent : Entity} {raw : String}

/-- The paths above a parent off the trail are straight, from memory as from the walk. -/
theorem ensures_pathsAbove_fair (h : Answering b s used gives knows fails)
    {walk : Entity → Lookups σ Walk} {here : List String} (hfresh : parent.identifier ∉ here)
    (hhere : ∀ t ∈ here, Relation.ReflTransGen (Above s gives) t parent.identifier)
    (kept : String → Prop)
    (hwalk : Ensures (Knowing knows (Walking s gives (here ++ [parent.identifier]) kept)) (walk parent)
      (fun found y => Knowing knows (Walking s gives (here ++ [parent.identifier]) kept) y ∧
        Fair s gives y.memo.chains here parent.identifier found)
      (fun y => fails ∧ Knowing knows (Untwisted s gives) y)) :
    Ensures (Knowing knows (Walking s gives here kept)) (pathsAbove walk parent)
      (fun above y => Knowing knows (Walking s gives here kept) y ∧
        Fair s gives y.memo.chains here parent.identifier above ∧
        (above.complete = true → (y.memo.chains.get? .concept parent.identifier).isSome))
      (fun y => fails ∧ Knowing knows (Untwisted s gives) y) := by
  refine ensures_pathsAbove ?_ ?_
  · intro x chains hx hchains
    refine ⟨hx, fun path hpath => ?_, fun _ => by rw [hchains]; rfl⟩
    obtain ⟨chain, hchain, rfl⟩ := List.mem_map.1 hpath
    exact ⟨hx.chains.straight hfresh hhere hchains hchain,
      fun _ => (hx.chains.untwisted _ _ hchains _ hchain).2⟩
  · refine hwalk.mono (fun x hx => ⟨hx.1.session, hx.1.chains.enter hx.2⟩) ?_ fun _ => id
    rintro found y ⟨⟨hknows, hwalking⟩, hfair⟩
    split
    · next hcomplete =>
      refine ⟨⟨h.learn hknows, hwalking.leave.insert hfresh fun chain hchain => ?_⟩,
        hfair.mono fun _ => isSome_get?_insert, fun _ => ?_⟩
      · exact (hfair.straight hchain).imp_right fun hheld => hheld hcomplete
      · simp [Session.learn, ChainMemo.get?_insert]
    · next hincomplete =>
      exact ⟨⟨hknows, hwalking.leave⟩, hfair, fun hcomplete => absurd hcomplete hincomplete⟩

/-- **The paths of a walk are straight**, and so is what it remembers. -/
theorem ensures_conceptWalk_fair (h : Answering b s used gives knows fails) (levels : Nat)
    (trail : List String) (he : gives raw (some e)) (hfresh : e.identifier ∉ trail)
    (htrail : ∀ t ∈ trail, Relation.ReflTransGen (Above s gives) t e.identifier)
    (kept : String → Prop) :
    Ensures (Knowing knows (Walking s gives (trail ++ [e.identifier]) kept))
      (conceptWalk b s levels trail e)
      (fun found y => Knowing knows (Walking s gives (trail ++ [e.identifier]) kept) y ∧
        Fair s gives y.memo.chains trail e.identifier found)
      (fun y => fails ∧ Knowing knows (Untwisted s gives) y) := by
  induction levels generalizing trail raw e kept with
  | zero =>
      refine ensures_pure fun x hx => ⟨hx, fun path hpath => ?_⟩
      obtain rfl := List.mem_singleton.1 hpath
      exact ⟨.singleton hfresh, fun _ => held_singleton⟩
  | succ levels ih =>
      unfold conceptWalk
      refine ensures_bind (Ensures.mono (h.ensures_pathsThrough (fun _ done m =>
          Walking s gives (trail ++ [e.identifier]) kept m ∧ Fair s gives m trail e.identifier done)
        (fun _ _ _ hm => hm.1.untwisted) he ?unknown ?cut ?above) ?begins (fun _ _ => id) fun _ => id)
        fun done => ensures_pure ?ends
      case begins => exact fun x hx => ⟨hx.session, hx.chains, by simp [Fair]⟩
      case ends => exact fun x hx => ⟨⟨hx.session, hx.chains.1⟩, hx.chains.2.stay hfresh⟩
      case unknown => exact fun _ _ _ _ hm _ => hm
      case cut =>
        rintro _ _ done m _ ⟨hwalking, hfair⟩ _ _ _
        exact ⟨hwalking, fun path hpath => ⟨(hfair path hpath).1, by simp⟩⟩
      case above =>
        intro _ name _ done parent hsplit hparent hoff
        have hstep : Above s gives e.identifier parent.identifier := by
          refine ⟨raw, e, name, parent, he, rfl, ?_, hparent, rfl⟩
          rw [hsplit]
          simp
        have hhere : ∀ t ∈ trail ++ [e.identifier],
            Relation.ReflTransGen (Above s gives) t parent.identifier := by
          intro t ht
          rcases List.mem_append.1 ht with ht | ht
          · exact (htrail t ht).tail hstep
          · exact List.mem_singleton.1 ht ▸ .single hstep
        -- what is remembered when the parent's turn comes stays remembered, and holds the paths so far
        refine ensures_of_each ?_
        rintro x ⟨hknows, hwalking, hfair⟩
        refine (ensures_pathsAbove_fair h hoff hhere
          (fun t => (x.memo.chains.get? .concept t).isSome) (ih _ hparent hoff hhere _)).mono ?_ ?_
          fun _ => id
        · rintro _ rfl
          exact ⟨hknows, hwalking.untwisted, hwalking.absent, fun _ => id⟩
        · rintro above y ⟨⟨hknows', hwalking'⟩, hfair', hheld⟩
          have hgrow := hwalking'.keeps
          refine ⟨hknows', ⟨hwalking'.untwisted, hwalking'.absent,
            fun t ht => hgrow t (hwalking.keeps t ht)⟩, ?_⟩
          exact (hfair.mono hgrow).extend hfair' hheld hstep hfresh _

/-- Chains of concepts have no identifier twice when what is remembered is straight, and what is
    remembered stays so unless the concept is on a cycle. -/
theorem ensures_ancestorChains_untwisted (h : Answering b s used gives knows fails)
    (hraw : used (Text.trim raw)) (kind : HierarchyKind) :
    Ensures (Knowing knows (Untwisted s gives)) (ancestorChains b s raw kind)
      (fun found y =>
        (kind = .concept → ∀ chains, found = some chains → ∀ chain ∈ chains,
          chain.identifiers.Nodup) ∧
        ((kind = .concept → ∀ e, gives raw (some e) → ¬ OnCycle s gives e.identifier) →
          Knowing knows (Untwisted s gives) y))
      (fun y => fails ∧ Knowing knows (Untwisted s gives) y) := by
  refine h.ensures_ancestorChains hraw (fun x hx _ => ⟨by simp, fun _ => hx⟩) ?_ ?_
  · intro e chains x hx _ hget
    refine ⟨?_, fun _ => hx⟩
    rintro rfl _ hsame chain hchain
    obtain rfl := Option.some.inj hsame
    exact (hx.chains _ _ hget chain hchain).1.nodup
  · intro e he
    have hclimb : Ensures (Knowing knows (Untwisted s gives))
        (climb b s kind (s.maxDepth - 1) [] e) (fun _ => Knowing knows (Untwisted s gives))
        (fun y => fails ∧ Knowing knows (Untwisted s gives) y) :=
      (h.ensures_climb (Untwisted s gives) he).mono (fun _ => id) (fun _ _ => And.left) fun _ => id
    cases kind with
    | concept =>
        have hwalk := ensures_conceptWalk_fair h s.maxDepth [] he (by simp) (by simp) fun _ => False
        refine ensures_bind (hwalk.of_imp ?_) fun found => ensures_pure ?_
        · rintro x ⟨⟨hknows, huntwisted⟩, habsent⟩
          exact ⟨hknows, Walking.enter ⟨huntwisted, by simp, by simp⟩ habsent⟩
        · rintro x ⟨⟨hknows, hwalking⟩, hfair⟩
          constructor
          · rintro - chains hchains chain hchain
            obtain rfl := Option.some.inj hchains
            exact (hfair.straight hchain).1.nodup
          · intro hcycle
            refine ⟨h.learn hknows, hwalking.untwisted.insert fun _ chain hchain => ?_⟩
            obtain ⟨hstraight, -⟩ := hfair.straight hchain
            -- nothing of the chains leads back, so it need not be remembered
            refine ⟨hstraight, fun t ht hne hback => ?_⟩
            exact absurd ⟨t, hne, hstraight.reach t ht, hback⟩ (hcycle rfl e he)
    | spatial | project =>
        refine ensures_bind (hclimb.of_imp fun _ => And.left) fun path => ensures_pure ?_
        exact fun x hx => ⟨by simp, fun _ => ⟨h.learn hx.session, hx.chains.insert (by simp)⟩⟩

/-! ## Places and projects -/

/-- The remembered chains of places and projects have no identifier twice. -/
def Climbed (m : ChainMemo) : Prop :=
  ∀ kind, kind ≠ .concept → ∀ identifier chains, m.get? kind identifier = some chains →
    ∀ chain ∈ chains, chain.identifiers.Nodup

theorem climbed_empty : Climbed {} := by
  intro kind _ identifier chains hchains
  exact absurd hchains (by simp)

theorem Climbed.insert {m : ChainMemo} (h : Climbed m) {kind : HierarchyKind} {identifier : String}
    {chains : List Chain}
    (hchains : kind ≠ .concept → ∀ chain ∈ chains, chain.identifiers.Nodup) :
    Climbed (m.insert kind identifier chains) := by
  intro kind' hkind' identifier' chains' hget
  rw [ChainMemo.get?_insert] at hget
  split at hget
  · next hsame =>
    obtain rfl := Option.some.inj hget
    exact hchains (hsame.1 ▸ hkind')
  · exact h kind' hkind' identifier' chains' hget

/-- Chains of places and projects have no identifier twice, whatever is remembered of concepts. -/
theorem ensures_ancestorChains_climbed (h : Answering b s used gives knows fails)
    (hraw : used (Text.trim raw)) (kind : HierarchyKind) :
    Ensures (Knowing knows Climbed) (ancestorChains b s raw kind)
      (fun found y => Knowing knows Climbed y ∧
        (kind ≠ .concept → ∀ chains, found = some chains → ∀ chain ∈ chains,
          chain.identifiers.Nodup))
      (fun y => fails ∧ Knowing knows Climbed y) := by
  refine (h.ensures_ancestorChains_right hraw (fun _ chains => kind ≠ .concept →
    ∀ chain ∈ chains, chain.identifiers.Nodup) ?_ ?_ ?_).mono (fun _ => id) ?_ fun _ => id
  · exact fun e chains m hm _ hget hkind => hm kind hkind _ _ hget
  · exact fun e chains m hm _ hchains => Climbed.insert hm hchains
  · intro e he
    cases kind with
    | concept =>
        have hwalk := h.ensures_conceptWalk_of_stable Climbed
          (fun m _ _ hm => hm.insert (by simp)) s.maxDepth [] he
        exact ensures_bind hwalk fun found => ensures_pure fun x hx => ⟨hx, by simp⟩
    | spatial | project =>
        refine ensures_bind (h.ensures_climb Climbed he) fun path => ensures_pure ?_
        rintro x ⟨hx, hpath⟩
        refine ⟨hx, fun _ chain hchain => ?_⟩
        obtain rfl := List.mem_singleton.1 hchain
        rw [Chain.identifiers, List.map_reverse, List.nodup_reverse]
        exact (hpath (by simp)).1
  · rintro _ y ⟨hy, hfound⟩
    refine ⟨hy, ?_⟩
    rintro hkind chains rfl
    obtain ⟨e, -, hnodup⟩ := hfound
    exact hnodup hkind

end Walks

/-! ## Chains over a catalogue -/

/-- **No chain has an identifier twice**, over any steady catalogue, be it one with cycles: no chain of
    a place or a project after any calls, and no chain of a concept as long as no earlier call asked for
    the chains of a concept on a cycle. -/
theorem nodup_identifiers_of_ancestorChains {b : Backing σ} {used : String → Prop}
    {store : String → Except StoreError (Option Entity)} {sound : σ → Prop}
    (hsteady : Steady b s.cacheSpace used store sound)
    (hparents : ∀ name e, used name → store name = .ok (some e) →
      ∀ parent ∈ e.parents, used (Text.trim parent))
    {world : σ} (hworld : sound world) {calls : List ResolverCall}
    (hcalls : ∀ call ∈ calls, used (Text.trim call.name)) {name : String}
    (hname : used (Text.trim name)) {kind : HierarchyKind}
    (hcycles : kind = .concept → ∀ asked e, .chains asked .concept ∈ calls →
      s.MayAnswer used store asked (some e) →
      ¬ OnCycle s (s.MayAnswer used store) e.identifier)
    {chains : List Chain}
    (hchains : (((ancestorChains b s name kind).run).run (afterCalls b s world calls)).1
      = .ok (some chains)) :
    ∀ chain ∈ chains, chain.identifiers.Nodup := by
  have hanswering := hsteady.answering hparents
  by_cases hkind : kind = .concept
  · have hafter := hanswering.afterCalls_of_ensures (Untwisted s (s.MayAnswer used store))
      ⟨hworld, Memo.recalls_empty⟩ untwisted_empty hcalls fun asked kind' hused hmem =>
        (ensures_ancestorChains_untwisted hanswering hused kind').mono (fun _ => id)
          (fun _ _ hy => hy.2 fun hkind' e => hcycles hkind asked e (hkind' ▸ hmem)) fun _ => id
    have hresult := (ensures_ancestorChains_untwisted hanswering hname kind).of_ok hafter hchains
    exact hresult.1 hkind chains rfl
  · have hafter := hanswering.afterCalls_of_ensures Climbed ⟨hworld, Memo.recalls_empty⟩
      climbed_empty hcalls fun asked kind' hused _ =>
        (ensures_ancestorChains_climbed hanswering hused kind').mono (fun _ => id)
          (fun _ _ => And.left) fun _ => id
    have hresult := (ensures_ancestorChains_climbed hanswering hname kind).of_ok hafter hchains
    exact hresult.2 hkind chains rfl

/-- Two concepts that are above each other, of which one has another parent. -/
def strayConcepts : List Entity :=
  [(Entity.make "feral" "feral-slug" "Feral" .concept).addParent "stray",
    ((Entity.make "stray" "stray-slug" "Stray" .concept).addParent "feral").addParent "dog",
    (Entity.make "dog" "dog-slug" "Dog" .concept).addParent "animal",
    Entity.make "animal" "animal-slug" "Animal" .concept]

def strayDeployment : Deployment where
  catalogue := .ofList strayConcepts
  cache := .empty 8
  readsFail := true

/-- How far the concepts are below the topmost one, as far as they are on no cycle. -/
def strayRank (identifier : String) : Nat :=
  if identifier = "animal" then 0 else if identifier = "dog" then 1 else 2

/-- Asking for a concept above the cycle does no harm. -/
theorem nodup_identifiers_of_ancestorChains_stray :
    ∃ chains, (((ancestorChains Deployment.backing {} "stray" .concept).run).run
        (afterCalls Deployment.backing {} strayDeployment
          [.chains "dog-slug" .concept, .chains "feral" .spatial])).1 = .ok (some chains) ∧
      ∀ chain ∈ chains, chain.identifiers.Nodup := by
  have hsteady := @Deployment.steady_of_readsFail "entity" (.ofList strayConcepts) false
  have hapart : Catalogue.NamesApart strayConcepts := by decide +kernel
  have hdog : ∀ e ∈ ResolverSettings.answer {} (Catalogue.ofList strayConcepts).find? "dog-slug",
      strayRank e.identifier ≤ 1 := by decide +kernel
  have hranks : ∀ e ∈ strayConcepts, ∀ name ∈ parentNames {} .concept e,
      ∀ parent ∈ ResolverSettings.answer {} (Catalogue.ofList strayConcepts).find? name,
        strayRank e.identifier ≤ 1 → strayRank parent.identifier < strayRank e.identifier := by
    decide +kernel
  obtain ⟨chains, hchains⟩ : ∃ chains, (((ancestorChains Deployment.backing {} "stray" .concept).run).run
      (afterCalls Deployment.backing {} strayDeployment
        [.chains "dog-slug" .concept, .chains "feral" .spatial])).1 = .ok (some chains) := ⟨_, rfl⟩
  refine ⟨chains, hchains, ?_⟩
  refine nodup_identifiers_of_ancestorChains hsteady (fun _ _ _ _ _ _ => trivial) ⟨rfl, rfl, rfl⟩
    (fun _ _ => trivial) trivial (fun _ asked e hasked he => ?_) hchains
  have hsame : asked = "dog-slug" := by simpa using hasked
  subst hsame
  refine not_onCycle_of_rank strayRank ?_ (hdog e (he.eq_answer_of_namesApart hapart).symm)
  rintro _ _ ⟨raw, e', name, parent, he', rfl, hname, hparent, rfl⟩ hle
  obtain ⟨asked', -, hasked'⟩ := he'.said.found
  have hmem := (Catalogue.mem_of_find?_ofList (Except.ok.inj hasked')).1
  exact hranks e' hmem name hname parent (hparent.eq_answer_of_namesApart hapart).symm hle

/-- Two concepts that are above each other. -/
def ringDeployment : Deployment where
  catalogue := .ofList [(Entity.make "a" "a" "a" .concept).addParent "b",
    (Entity.make "b" "b" "b" .concept).addParent "a"]
  cache := .empty 8

/-- **A cycle enters a chain** when its concepts are asked for one after the other. -/
theorem ancestorChains_ring :
    ∃ chains, (((ancestorChains Deployment.backing {} "b" .concept).run).run
        (afterCalls Deployment.backing {} ringDeployment [.chains "a" .concept])).1
          = .ok (some chains) ∧
      chains.map Chain.identifiers = [["b", "a", "b"]] ∧
      ¬ ∀ chain ∈ chains, chain.identifiers.Nodup := by
  refine ⟨[⟨.concept, [(Entity.make "b" "b" "b" .concept).addParent "a",
    (Entity.make "a" "a" "a" .concept).addParent "b",
    (Entity.make "b" "b" "b" .concept).addParent "a"]⟩], ?_, ?_, ?_⟩ <;> decide +kernel

end FacetSearch
