import FacetSearch.Ancestry.Inheritance
import FacetSearch.Proofs.Ancestry.Steady

set_option autoImplicit false

/-! # Calls to a resolver

A resolver is asked by resolving names, by listing chains and by searching for metadata, in any order
(`ResolverCall`). What holds of its session after every run of calls is shown of one call at a time:
`Ensures` says what steps lead to from the sessions that something holds of, whether they succeed or
fail, and its rules follow the shape of the steps.

Nothing here depends on what stands behind the resolver. How names are answered is a law of its own,
`Answering`. What is known of the remembered chains is kept by every call when listing chains keeps it
(`afterCalls_of_ensures`), and listing the chains of a concept is shown right by what one parent adds
(`ensures_pathsThrough`). -/

namespace FacetSearch

variable {σ : Type}

/-! ## Calls -/

/-- A call to a resolver. -/
inductive ResolverCall where
  | resolve (name : String)
  | chains (name : String) (kind : HierarchyKind)
  | nearest (name : String) (hierarchy : HierarchyKind) (kind : MetadataKind)
deriving DecidableEq, Repr

namespace ResolverCall

/-- The name that is asked for. -/
def name : ResolverCall → String
  | resolve name | chains name _ | nearest name _ _ => name

/-- The session after a call, whatever it came to. -/
def after (b : Backing σ) (s : ResolverSettings) (x : Session σ) : ResolverCall → Session σ
  | resolve name => (((resolve? b s name).run).run x).2
  | chains name kind => (((ancestorChains b s name kind).run).run x).2
  | nearest name hierarchy kind => (((nearestMetadata b s name hierarchy kind).run).run x).2

end ResolverCall

/-- What a call comes to; `none` when there is no entity behind the name. -/
inductive ResolverReply where
  | entity (found : Option Entity)
  | chains (found : Option (List Chain))
  | metadata (found : Option (Option Inherited))
deriving DecidableEq, Repr

/-- A call with its reply. -/
def ResolverCall.run (b : Backing σ) (s : ResolverSettings) : ResolverCall → Lookups σ ResolverReply
  | resolve name => do return .entity (← resolve? b s name)
  | chains name kind => do return .chains (← ancestorChains b s name kind)
  | nearest name hierarchy kind => do return .metadata (← nearestMetadata b s name hierarchy kind)

theorem ResolverCall.after_eq (b : Backing σ) (s : ResolverSettings) (x : Session σ)
    (call : ResolverCall) : call.after b s x = (((call.run b s).run).run x).2 := by
  have hreply : ∀ {α β : Type} (l : Lookups σ α) (reply : α → β),
      (((l >>= fun a => pure (reply a)).run).run x).2 = ((l.run).run x).2 := by
    intro α β l reply
    rw [run_bind_lookups]
    rcases (l.run).run x with ⟨_ | _, _⟩ <;> rfl
  cases call <;> exact (hreply ..).symm

/-- The session of a new resolver after a list of calls. -/
def afterCalls (b : Backing σ) (s : ResolverSettings) (world : σ) (calls : List ResolverCall) :
    Session σ :=
  calls.foldl (fun x call => call.after b s x) { world }

theorem afterCalls_append (b : Backing σ) (s : ResolverSettings) (world : σ)
    (calls later : List ResolverCall) : afterCalls b s world (calls ++ later)
      = later.foldl (fun x call => call.after b s x) (afterCalls b s world calls) :=
  List.foldl_append

/-- What holds of a session and is kept by every call holds after all of them. -/
theorem foldl_after_induction (inv : Session σ → Prop) {b : Backing σ} {s : ResolverSettings}
    {x : Session σ} {calls : List ResolverCall} (hx : inv x)
    (hcall : ∀ call ∈ calls, ∀ x, inv x → inv (call.after b s x)) :
    inv (calls.foldl (fun x call => call.after b s x) x) := by
  induction calls generalizing x with
  | nil => exact hx
  | cons call rest ih =>
      exact ih (hcall call (List.mem_cons_self ..) x hx)
        fun c hc => hcall c (List.mem_cons_of_mem _ hc)

/-- What holds of a new session and is kept by every call holds after all of them. -/
theorem afterCalls_induction (inv : Session σ → Prop) {b : Backing σ} {s : ResolverSettings}
    {world : σ} {calls : List ResolverCall} (hnew : inv { world })
    (hcall : ∀ call ∈ calls, ∀ x, inv x → inv (call.after b s x)) :
    inv (afterCalls b s world calls) :=
  foldl_after_induction inv hnew hcall

/-! ## Remembered chains -/

namespace ChainMemo

theorem get?_insert (m : ChainMemo) (kind kind' : HierarchyKind) (identifier identifier' : String)
    (chains : List Chain) :
    (m.insert kind identifier chains).get? kind' identifier'
      = if kind = kind' ∧ identifier = identifier' then some chains
        else m.get? kind' identifier' := by
  cases kind <;> cases kind' <;>
    simp [ChainMemo.insert, ChainMemo.get?, table, Std.ExtTreeMap.getElem?_insert]

@[simp] theorem get?_empty (kind : HierarchyKind) (identifier : String) :
    ({} : ChainMemo).get? kind identifier = none := by
  cases kind <;> simp [ChainMemo.get?, table]

end ChainMemo

/-- The session with chains remembered. -/
def Session.learn (x : Session σ) (kind : HierarchyKind) (identifier : String)
    (chains : List Chain) : Session σ :=
  { x with memo := { x.memo with chains := x.memo.chains.insert kind identifier chains } }

/-- Something is known of the session, and something of the chains that it remembers. -/
structure Knowing (knows : Session σ → Prop) (known : ChainMemo → Prop) (x : Session σ) : Prop where
  session : knows x
  chains : known x.memo.chains

/-! ## What steps lead to -/

section Ensures

variable {α β : Type} {pre pre' : Session σ → Prop} {post post' : α → Session σ → Prop}
  {broken broken' : Session σ → Prop}

/-- What steps came to: a result and a session with `post`, or a failure and a session with `broken`. -/
inductive Outcome (post : α → Session σ → Prop) (broken : Session σ → Prop) :
    Except StoreError α × Session σ → Prop where
  | ok {a : α} {y : Session σ} (h : post a y) : Outcome post broken (.ok a, y)
  | error {e : StoreError} {y : Session σ} (h : broken y) : Outcome post broken (.error e, y)

/-- From every session that `pre` holds of, the steps come to a result and a session that `post` holds
    of, or they fail and leave one that `broken` holds of. -/
structure Ensures (pre : Session σ → Prop) (l : Lookups σ α) (post : α → Session σ → Prop)
    (broken : Session σ → Prop) : Prop where
  outcome : ∀ x, pre x → Outcome post broken ((l.run).run x)

theorem Ensures.mono {l : Lookups σ α} (h : Ensures pre l post broken) (hpre : ∀ x, pre' x → pre x)
    (hpost : ∀ a y, post a y → post' a y) (hbroken : ∀ y, broken y → broken' y) :
    Ensures pre' l post' broken' := by
  refine ⟨fun x hx => ?_⟩
  have hrun := h.outcome x (hpre x hx)
  generalize (l.run).run x = result at hrun ⊢
  cases hrun with
  | ok hy => exact .ok (hpost _ _ hy)
  | error hy => exact .error (hbroken _ hy)

theorem Ensures.of_imp {l : Lookups σ α} (h : Ensures pre l post broken)
    (hpre : ∀ x, pre' x → pre x) : Ensures pre' l post broken :=
  ⟨fun x hx => h.outcome x (hpre x hx)⟩

/-- Steps that cannot fail come to a result. -/
theorem Ensures.exists_ok {l : Lookups σ α} (h : Ensures pre l post broken)
    (hbroken : ∀ y, ¬ broken y) {x : Session σ} (hx : pre x) :
    ∃ a y, (l.run).run x = (.ok a, y) ∧ post a y := by
  have hrun := h.outcome x hx
  generalize (l.run).run x = result at hrun ⊢
  cases hrun with
  | ok hy => exact ⟨_, _, rfl, hy⟩
  | error hy => exact absurd hy (hbroken _)

theorem Ensures.of_ok {l : Lookups σ α} (h : Ensures pre l post broken) {x : Session σ} (hx : pre x)
    {a : α} (ha : ((l.run).run x).1 = .ok a) : post a ((l.run).run x).2 := by
  have hrun := h.outcome x hx
  generalize (l.run).run x = result at hrun ha ⊢
  cases hrun with
  | ok hy => exact Except.ok.inj ha ▸ hy
  | error => exact absurd ha (by simp)

/-- What two laws say of the same steps holds together. -/
theorem Ensures.and {l : Lookups σ α} (h : Ensures pre l post broken)
    (h' : Ensures pre' l post' broken') :
    Ensures (fun x => pre x ∧ pre' x) l (fun a y => post a y ∧ post' a y)
      (fun y => broken y ∧ broken' y) := by
  refine ⟨fun x hx => ?_⟩
  have hrun := h.outcome x hx.1
  have hrun' := h'.outcome x hx.2
  generalize (l.run).run x = result at hrun hrun' ⊢
  cases hrun with
  | ok hy =>
      cases hrun' with
      | ok hy' => exact .ok ⟨hy, hy'⟩
  | error hy =>
      cases hrun' with
      | error hy' => exact .error ⟨hy, hy'⟩

/-- The session that steps begin with may be fixed. -/
theorem ensures_of_each {l : Lookups σ α} (h : ∀ x, pre x → Ensures (· = x) l post broken) :
    Ensures pre l post broken := ⟨fun x hx => (h x hx).outcome x rfl⟩

/-- What does not depend on the session may be taken for granted. -/
theorem ensures_of_fact {l : Lookups σ α} {fact : Prop} (h : fact → Ensures pre l post broken) :
    Ensures (fun x => pre x ∧ fact) l post broken := ⟨fun x hx => (h hx.2).outcome x hx.1⟩

theorem ensures_pure {a : α} (h : ∀ x, pre x → post a x) :
    Ensures pre (pure a : Lookups σ α) post broken := ⟨fun x hx => .ok (h x hx)⟩

theorem ensures_bind {l : Lookups σ α} {f : α → Lookups σ β} {post : β → Session σ → Prop}
    {middle : α → Session σ → Prop} (hl : Ensures pre l middle broken)
    (hf : ∀ a, Ensures (middle a) (f a) post broken) : Ensures pre (l >>= f) post broken := by
  refine ⟨fun x hx => ?_⟩
  have hrun := hl.outcome x hx
  rw [run_bind_lookups]
  generalize (l.run).run x = result at hrun ⊢
  cases hrun with
  | ok hy => exact (hf _).outcome _ hy
  | error hy => exact .error hy

theorem ensures_knownChains (kind : HierarchyKind) (identifier : String) :
    Ensures pre (knownChains kind identifier)
      (fun found y => pre y ∧ found = y.memo.chains.get? kind identifier) broken :=
  ⟨fun _ hx => .ok ⟨hx, rfl⟩⟩

theorem ensures_rememberChains (after : Session σ → Prop) {kind : HierarchyKind}
    {identifier : String} {chains : List Chain}
    (h : ∀ x, pre x → after (x.learn kind identifier chains)) :
    Ensures pre (rememberChains kind identifier chains) (fun _ => after) broken :=
  ⟨fun x hx => .ok (h x hx)⟩

end Ensures

/-! ## Walks of concepts -/

/-- A walk with the paths that one more parent adds, as far as there is room for them. -/
def Walk.extend (done : Walk) (e : Entity) (room : Nat) (above : Walk) : Walk where
  paths := done.paths ++ extendPaths e room above.paths
  complete := done.complete && above.complete

section Walks

variable {inv broken : Session σ → Prop}

/-- The paths above a parent are those that are remembered, or else those of the walk, which are
    remembered when it is complete. -/
theorem ensures_pathsAbove {walk : Entity → Lookups σ Walk} {parent : Entity}
    {post : Walk → Session σ → Prop}
    (hknown : ∀ x chains, inv x → x.memo.chains.get? .concept parent.identifier = some chains →
      post { paths := chains.map (·.entities), complete := true } x)
    (hwalk : Ensures (fun x => inv x ∧ x.memo.chains.get? .concept parent.identifier = none)
      (walk parent)
      (fun found y => if found.complete = true then
          post found (y.learn .concept parent.identifier (found.paths.map (⟨.concept, ·⟩)))
        else post found y) broken) :
    Ensures inv (pathsAbove walk parent) post broken := by
  unfold pathsAbove
  refine ensures_bind (ensures_knownChains .concept parent.identifier) fun found => ?_
  cases found with
  | some chains => exact ensures_pure fun x hx => hknown x chains hx.1 hx.2.symm
  | none =>
      refine ensures_bind (hwalk.of_imp fun x hx => ⟨hx.1, hx.2.symm⟩) fun found => ?_
      by_cases hcomplete : found.complete = true
      · simp only [hcomplete, if_true]
        exact ensures_bind (ensures_rememberChains (post found) fun x hx => hx)
          fun _ => ensures_pure fun x hx => hx
      · simp only [hcomplete]
        exact ensures_pure fun x hx => hx

end Walks

/-! ## Answers to names -/

/-- The parents that count are parents. -/
theorem mem_parents_of_mem_parentNames {s : ResolverSettings} {kind : HierarchyKind} {e : Entity}
    {name : String} (h : name ∈ parentNames s kind e) : name ∈ e.parents := by
  unfold parentNames at h
  dsimp only at h
  split at h
  · exact (List.mem_filter.1 h).1
  · exact (List.mem_filter.1 (List.mem_of_mem_take h)).1

/-- How a resolver answers the names in use: with what it may give for them, from sessions of which
    something is known that concerns no chains and that every lookup keeps. -/
structure Answering (b : Backing σ) (s : ResolverSettings) (used : String → Prop)
    (gives : String → Option Entity → Prop) (knows : Session σ → Prop) (fails : Prop) : Prop where
  resolve : ∀ {raw}, used (Text.trim raw) → Ensures knows (resolve? b s raw)
    (fun found y => knows y ∧ gives raw found) (fun y => fails ∧ knows y)
  parents : ∀ {raw e}, gives raw (some e) → ∀ parent ∈ e.parents, used (Text.trim parent)
  learn : ∀ {x kind identifier chains}, knows x → knows (x.learn kind identifier chains)

/-- Resolving a name remembers no chains. -/
theorem chains_resolve? (b : Backing σ) (s : ResolverSettings) (raw : String) (x : Session σ) :
    (((resolve? b s raw).run).run x).2.memo.chains = x.memo.chains := by
  have hconsult : ∀ (key name : String) (y : Session σ),
      (((consult b key name).run).run y).2.memo.chains = y.memo.chains := by
    intro key name y
    simp only [consult, run_bind_lookups, run_onWorld]
    rcases (b.find name y.world).1 with error | found
    · rfl
    · cases found <;> rfl
  unfold resolve?
  by_cases hskip : ((Text.trim raw).isEmpty || s.isRoot (Text.trim raw)) = true
  · simp only [if_pos hskip, run_pure_lookups]
  · simp only [if_neg hskip, run_bind_lookups, run_get_lookups]
    cases x.memo.entities[Text.trim raw]? with
    | some answer => rfl
    | none =>
        simp only [run_bind_lookups, run_onWorld]
        cases (b.fetch (Lru.key s.cacheSpace (Text.trim raw)) x.world).1.bind
            Entity.ofSnapshot? with
        | some e => simp only [run_bind_lookups, run_remember, run_pure_lookups, Memo.remember]
        | none => exact hconsult _ _ _

namespace Answering

variable {b : Backing σ} {s : ResolverSettings} {used : String → Prop}
  {gives : String → Option Entity → Prop} {knows : Session σ → Prop} {fails : Prop}

/-- What is known of the remembered chains stays known when a name is resolved. -/
theorem ensures_resolve? (h : Answering b s used gives knows fails) (known : ChainMemo → Prop)
    {raw : String} (hraw : used (Text.trim raw)) :
    Ensures (Knowing knows known) (resolve? b s raw)
      (fun found y => Knowing knows known y ∧ gives raw found)
      (fun y => fails ∧ Knowing knows known y) := by
  refine ⟨fun x ⟨hx, hknown⟩ => ?_⟩
  have hrun := (h.resolve hraw).outcome x hx
  rw [← chains_resolve? b s raw x] at hknown
  generalize ((resolve? b s raw).run).run x = result at hrun hknown ⊢
  cases hrun with
  | ok hy => exact .ok ⟨⟨hy.1, hknown⟩, hy.2⟩
  | error hy => exact .error ⟨hy.1, hy.2, hknown⟩

/-- The parents of an entity that was given are in use. -/
theorem used_of_mem_parentNames (h : Answering b s used gives knows fails) {raw name : String}
    {e : Entity} {kind : HierarchyKind} (he : gives raw (some e))
    (hname : name ∈ parentNames s kind e) : used (Text.trim name) :=
  h.parents he name (mem_parents_of_mem_parentNames hname)

/-! ## Metadata -/

variable (known : ChainMemo → Prop)

/-- Looking the parents of a level up keeps what is known of the chains, and goes on with entities that
    were given. -/
theorem ensures_searchParents (h : Answering b s used gives knows fails) {kind : MetadataKind}
    {names : List String} (hnames : ∀ name ∈ names, used (Text.trim name)) {f : Frontier}
    (hf : ∀ e ∈ f.next, ∃ raw, gives raw (some e)) :
    Ensures (Knowing knows known) (searchParents b s kind names f)
      (fun found y => Knowing knows known y ∧
        ∀ f', found = .inr f' → ∀ e ∈ f'.next, ∃ raw, gives raw (some e))
      (fun y => fails ∧ Knowing knows known y) := by
  induction names generalizing f with
  | nil =>
      refine ensures_pure fun x hx => ⟨hx, fun f' hf' => ?_⟩
      obtain rfl := Sum.inr.inj hf'
      exact hf
  | cons name rest ih =>
      have hrest : ∀ name ∈ rest, used (Text.trim name) :=
        fun n hn => hnames n (List.mem_cons_of_mem _ hn)
      unfold searchParents
      refine ensures_bind (h.ensures_resolve? known (hnames name (List.mem_cons_self ..)))
        fun found => ensures_of_fact fun hgives => ?_
      cases found with
      | none => exact ih hrest hf
      | some parent =>
          dsimp only
          split
          · exact ih hrest hf
          · cases parent.inherited? kind with
            | some hit => exact ensures_pure fun x hx => ⟨hx, fun f' hf' => absurd hf' (by simp)⟩
            | none =>
                refine ih hrest fun e he => ?_
                rcases List.mem_append.1 he with he | he
                · exact hf e he
                · obtain rfl := List.mem_singleton.1 he
                  exact ⟨name, hgives⟩

theorem ensures_searchLevels (h : Answering b s used gives knows fails) {hierarchy : HierarchyKind}
    {kind : MetadataKind} {levels : Nat} {seen : List String} {frontier : List Entity}
    (hfrontier : ∀ e ∈ frontier, ∃ raw, gives raw (some e)) :
    Ensures (Knowing knows known) (searchLevels b s hierarchy kind levels seen frontier)
      (fun _ => Knowing knows known) (fun y => fails ∧ Knowing knows known y) := by
  induction levels generalizing seen frontier with
  | zero => exact ensures_pure fun x hx => hx
  | succ levels ih =>
      have hnames : ∀ name ∈ frontier.flatMap (parentNames s hierarchy), used (Text.trim name) := by
        intro name hname
        obtain ⟨e, he, hname⟩ := List.mem_flatMap.1 hname
        obtain ⟨raw, hraw⟩ := hfrontier e he
        exact h.used_of_mem_parentNames hraw hname
      unfold searchLevels
      split
      · exact ensures_pure fun x hx => hx
      · refine ensures_bind (h.ensures_searchParents known hnames (by simp)) fun found =>
          ensures_of_fact fun hfound => ?_
        cases found with
        | inl hit => exact ensures_pure fun x hx => hx
        | inr f => exact ih (hfound f rfl)

variable {known} in
/-- Metadata is that of the entity, or else read from chains that are remembered, or else searched for. -/
theorem ensures_nearestMetadata_cases (h : Answering b s used gives knows fails) {raw : String}
    (hraw : used (Text.trim raw)) {hierarchy : HierarchyKind} {kind : MetadataKind}
    {post : Option (Option Inherited) → Session σ → Prop}
    (hnone : ∀ x, Knowing knows known x → gives raw none → post none x)
    (hown : ∀ e hit x, Knowing knows known x → gives raw (some e) → e.inherited? kind = some hit →
      post (some (some hit)) x)
    (hlisted : ∀ e chains x, Knowing knows known x → gives raw (some e) → e.inherited? kind = none →
      x.memo.chains.get? hierarchy e.identifier = some chains →
      post (some (nearestInChains kind chains)) x)
    (hsearch : ∀ e, gives raw (some e) → e.inherited? kind = none →
      Ensures (fun x => Knowing knows known x ∧ x.memo.chains.get? hierarchy e.identifier = none)
        (searchLevels b s hierarchy kind s.maxDepth [e.identifier] [e])
        (fun found => post (some found)) (fun y => fails ∧ Knowing knows known y)) :
    Ensures (Knowing knows known) (nearestMetadata b s raw hierarchy kind) post
      (fun y => fails ∧ Knowing knows known y) := by
  unfold nearestMetadata
  refine ensures_bind (h.ensures_resolve? known hraw) fun found =>
    ensures_of_fact fun hgives => ?_
  cases found with
  | none => exact ensures_pure fun x hx => hnone x hx hgives
  | some e =>
      dsimp only
      cases hinherited : e.inherited? kind with
      | some hit => exact ensures_pure fun x hx => hown e hit x hx hgives hinherited
      | none =>
          refine ensures_bind (ensures_knownChains hierarchy e.identifier) fun chains => ?_
          cases chains with
          | some chains =>
              exact ensures_pure fun x hx => hlisted e chains x hx.1 hgives hinherited hx.2.symm
          | none =>
              exact ensures_bind ((hsearch e hgives hinherited).of_imp fun x hx => ⟨hx.1, hx.2.symm⟩)
                fun _ => ensures_pure fun x hx => hx

/-- **Searching for metadata remembers no chains.** -/
theorem ensures_nearestMetadata (h : Answering b s used gives knows fails) {raw : String}
    (hraw : used (Text.trim raw)) (hierarchy : HierarchyKind) (kind : MetadataKind) :
    Ensures (Knowing knows known) (nearestMetadata b s raw hierarchy kind)
      (fun _ => Knowing knows known) (fun y => fails ∧ Knowing knows known y) := by
  refine h.ensures_nearestMetadata_cases hraw (fun _ hx _ => hx) (fun _ _ _ hx _ _ => hx)
    (fun _ _ _ hx _ _ _ => hx) fun e he _ => ?_
  have hsingle : ∀ e' ∈ [e], ∃ raw, gives raw (some e') := by
    intro e' he'
    obtain rfl := List.mem_singleton.1 he'
    exact ⟨raw, he⟩
  exact (h.ensures_searchLevels known hsingle).of_imp fun x hx => hx.1

/-! ## Concepts -/

/-- **The walk through the parents of a concept**, by what holds when the paths through some of them are
    listed: an unknown parent is skipped, one on the trail is cut, and any other one adds its paths;
    without room for all of them it is the last. -/
theorem ensures_pathsThrough (h : Answering b s used gives knows fails)
    (K : List String → Walk → ChainMemo → Prop) {left : ChainMemo → Prop}
    (hleft : ∀ before done m, K before done m → left m) {e : Entity} {raw : String}
    (he : gives raw (some e)) {trail : List String} {walk : Entity → Lookups σ Walk}
    (hunknown : ∀ before name done m, K before done m → gives name none →
      K (before ++ [name]) done m)
    (hcut : ∀ before name done m parent, K before done m → name ∈ parentNames s .concept e →
      gives name (some parent) → parent.identifier ∈ trail →
      K (before ++ [name]) { done with complete := false } m)
    (habove : ∀ before name rest done parent, parentNames s .concept e = before ++ name :: rest →
      gives name (some parent) → parent.identifier ∉ trail →
      Ensures (Knowing knows (K before done)) (pathsAbove walk parent)
        (fun above => Knowing knows (K
          (if s.maxChains - done.paths.length < above.paths.length then parentNames s .concept e
            else before ++ [name])
          (done.extend e (s.maxChains - done.paths.length) above)))
        (fun y => fails ∧ Knowing knows left y)) :
    Ensures (Knowing knows (K [] { paths := [], complete := true }))
      (pathsThrough b s e trail walk (parentNames s .concept e) { paths := [], complete := true })
      (fun done => Knowing knows (K (parentNames s .concept e) done))
      (fun y => fails ∧ Knowing knows left y) := by
  have hloop : ∀ names before done, parentNames s .concept e = before ++ names →
      Ensures (Knowing knows (K before done)) (pathsThrough b s e trail walk names done)
        (fun done => Knowing knows (K (parentNames s .concept e) done))
        (fun y => fails ∧ Knowing knows left y) := by
    intro names
    induction names with
    | nil =>
        intro before done hsplit
        rw [hsplit, List.append_nil]
        exact ensures_pure fun x hx => hx
    | cons name rest ih =>
        intro before done hsplit
        have hname : name ∈ parentNames s .concept e := by
          rw [hsplit]
          simp
        have hsplit' : parentNames s .concept e = (before ++ [name]) ++ rest := by
          rw [hsplit, List.append_assoc]
          rfl
        unfold pathsThrough
        have hresolve := (h.ensures_resolve? (K before done)
          (h.used_of_mem_parentNames he hname)).mono (fun _ => id) (fun _ _ => id)
          fun y hy => And.intro hy.1 (Knowing.mk hy.2.session (hleft _ _ _ hy.2.chains))
        refine ensures_bind hresolve fun found => ensures_of_fact fun hgives => ?_
        cases found with
        | none =>
            exact (ih _ done hsplit').of_imp
              fun x hx => ⟨hx.session, hunknown _ _ _ _ hx.chains hgives⟩
        | some parent =>
            by_cases htrail : parent.identifier ∈ trail
            · simp only [List.contains_eq_mem, htrail, decide_true, if_true]
              exact (ih _ { done with complete := false } hsplit').of_imp
                fun x hx => ⟨hx.session, hcut _ _ _ _ _ hx.chains hname hgives htrail⟩
            · simp only [List.contains_eq_mem, htrail, decide_false, Bool.false_eq_true, if_false]
              refine ensures_bind (habove _ _ _ done _ hsplit hgives htrail) fun above => ?_
              split
              · exact ensures_pure fun y hy => hy
              · exact ih _ _ hsplit'
  exact hloop _ [] _ rfl

/-- A walk remembers nothing but chains of concepts. -/
theorem ensures_conceptWalk_of_stable (h : Answering b s used gives knows fails)
    (hstable : ∀ m identifier chains, known m → known (m.insert .concept identifier chains))
    (levels : Nat) (trail : List String) {raw : String} {e : Entity} (he : gives raw (some e)) :
    Ensures (Knowing knows known) (conceptWalk b s levels trail e)
      (fun _ => Knowing knows known) (fun y => fails ∧ Knowing knows known y) := by
  induction levels generalizing trail raw e with
  | zero => exact ensures_pure fun x hx => hx
  | succ levels ih =>
      unfold conceptWalk
      refine ensures_bind (h.ensures_pathsThrough (fun _ _ => known) (fun _ _ _ => id) he
        (fun _ _ _ _ hm _ => hm) (fun _ _ _ _ _ hm _ _ _ => hm) ?_) fun _ => ensures_pure fun x hx => hx
      intro _ name _ done parent _ hparent _
      refine ensures_pathsAbove (fun x _ hx _ => hx) ?_
      refine (ih _ hparent).mono (fun _ => And.left) (fun found y hy => ?_) fun _ => id
      split
      · exact ⟨h.learn hy.session, hstable _ _ _ hy.chains⟩
      · exact hy

/-! ## Places and projects -/

/-- Climbing remembers no chains, and comes to a path without an identifier twice. -/
theorem ensures_climb (h : Answering b s used gives knows fails) {kind : HierarchyKind} {hops : Nat}
    {seen : List String} {e : Entity} {raw : String} (he : gives raw (some e)) :
    Ensures (Knowing knows known) (climb b s kind hops seen e)
      (fun path y => Knowing knows known y ∧ (e.identifier ∉ seen →
        (path.map (·.identifier)).Nodup ∧ ∀ a ∈ path, a.identifier ∉ seen))
      (fun y => fails ∧ Knowing knows known y) := by
  -- a path may always end here
  have hstop : ∀ {seen : List String} {e : Entity}, e.identifier ∉ seen →
      ([e].map (·.identifier)).Nodup ∧ ∀ a ∈ [e], a.identifier ∉ seen := by
    intro seen e hfresh
    simpa using hfresh
  induction hops generalizing seen e raw with
  | zero =>
      unfold climb
      cases (parentNames s kind e).head? <;> exact ensures_pure fun x hx => ⟨hx, hstop⟩
  | succ hops ih =>
      unfold climb
      cases hname : (parentNames s kind e).head? with
      | none => exact ensures_pure fun x hx => ⟨hx, hstop⟩
      | some name =>
          have hused := h.used_of_mem_parentNames he (List.mem_of_mem_head? hname)
          refine ensures_bind (h.ensures_resolve? known hused) fun found =>
            ensures_of_fact fun hgives => ?_
          cases found with
          | none => exact ensures_pure fun x hx => ⟨hx, hstop⟩
          | some parent =>
              by_cases hseen : parent.identifier ∈ e.identifier :: seen
              · simp only [List.contains_eq_mem, hseen, decide_true, if_true]
                exact ensures_pure fun x hx => ⟨hx, hstop⟩
              · simp only [List.contains_eq_mem, hseen, decide_false, Bool.false_eq_true, if_false]
                refine ensures_bind (ih hgives) fun path => ensures_pure fun x hx => ⟨hx.1, ?_⟩
                intro hfresh
                obtain ⟨hnodup, hclear⟩ := hx.2 hseen
                refine ⟨List.nodup_cons.2 ⟨fun hmem => ?_, hnodup⟩, ?_⟩
                · obtain ⟨a, ha, hsame⟩ := List.mem_map.1 hmem
                  exact hclear a ha (hsame ▸ List.mem_cons_self ..)
                · intro a ha
                  rcases List.mem_cons.1 ha with rfl | ha
                  · exact hfresh
                  · exact fun hmem => hclear a ha (List.mem_cons_of_mem _ hmem)

/-! ## Chains and whole calls -/

variable {known}

/-- Listing chains gives those that are remembered, or else walks for them and remembers the result. -/
theorem ensures_ancestorChains (h : Answering b s used gives knows fails) {raw : String}
    {kind : HierarchyKind} (hraw : used (Text.trim raw))
    {post : Option (List Chain) → Session σ → Prop}
    (hnone : ∀ x, Knowing knows known x → gives raw none → post none x)
    (hknown : ∀ e chains x, Knowing knows known x → gives raw (some e) →
      x.memo.chains.get? kind e.identifier = some chains → post (some chains) x)
    (hwalk : ∀ e, gives raw (some e) →
      Ensures (fun x => Knowing knows known x ∧ x.memo.chains.get? kind e.identifier = none)
        (walkChains b s kind e)
        (fun chains y => post (some chains) (y.learn kind e.identifier chains))
        (fun y => fails ∧ Knowing knows known y)) :
    Ensures (Knowing knows known) (ancestorChains b s raw kind) post
      (fun y => fails ∧ Knowing knows known y) := by
  unfold ancestorChains
  refine ensures_bind (h.ensures_resolve? known hraw) fun found =>
    ensures_of_fact fun hgives => ?_
  cases found with
  | none => exact ensures_pure fun x hx => hnone x hx hgives
  | some e =>
      refine ensures_bind (ensures_knownChains kind e.identifier) fun chains => ?_
      cases chains with
      | some chains => exact ensures_pure fun x hx => hknown e chains x hx.1 hgives hx.2.symm
      | none =>
          refine ensures_bind ((hwalk e hgives).of_imp fun x hx => ⟨hx.1, hx.2.symm⟩)
            fun chains => ?_
          exact ensures_bind (ensures_rememberChains (post (some chains)) fun x hx => hx)
            fun _ => ensures_pure fun x hx => hx

/-- Listing chains gives chains that are right for the entity, when those that are remembered are right
    and a walk comes to right ones. -/
theorem ensures_ancestorChains_right (h : Answering b s used gives knows fails) {raw : String}
    {kind : HierarchyKind} (hraw : used (Text.trim raw)) (right : Entity → List Chain → Prop)
    (hget : ∀ e chains m, known m → gives raw (some e) → m.get? kind e.identifier = some chains →
      right e chains)
    (hinsert : ∀ e chains m, known m → gives raw (some e) → right e chains →
      known (m.insert kind e.identifier chains))
    (hwalk : ∀ e, gives raw (some e) → Ensures (Knowing knows known) (walkChains b s kind e)
      (fun chains y => Knowing knows known y ∧ right e chains)
      (fun y => fails ∧ Knowing knows known y)) :
    Ensures (Knowing knows known) (ancestorChains b s raw kind)
      (fun found y => Knowing knows known y ∧ match found with
        | none => gives raw none
        | some chains => ∃ e, gives raw (some e) ∧ right e chains)
      (fun y => fails ∧ Knowing knows known y) := by
  refine h.ensures_ancestorChains hraw (fun x hx hnone => ⟨hx, hnone⟩) ?_ ?_
  · exact fun e chains x hx he hchains => ⟨hx, e, he, hget e chains _ hx.chains he hchains⟩
  · intro e he
    refine (hwalk e he).mono (fun _ => And.left) ?_ fun _ => id
    rintro chains y ⟨hy, hright⟩
    exact ⟨⟨h.learn hy.session, hinsert e chains _ hy.chains he hright⟩, e, he, hright⟩

variable (known) in
/-- Walking for chains keeps what every chain that is remembered leaves true. -/
theorem ensures_walkChains_of_stable (h : Answering b s used gives knows fails)
    (hstable : ∀ m kind identifier chains, known m → known (m.insert kind identifier chains))
    (raw : String) {e : Entity} (he : gives raw (some e)) (kind : HierarchyKind) :
    Ensures (Knowing knows known) (walkChains b s kind e)
      (fun _ => Knowing knows known) (fun y => fails ∧ Knowing knows known y) := by
  cases kind with
  | concept =>
      exact ensures_bind (h.ensures_conceptWalk_of_stable known (fun m => hstable m .concept)
        s.maxDepth [] he) fun _ => ensures_pure fun x hx => hx
  | spatial | project =>
      exact ensures_bind (h.ensures_climb known he) fun _ => ensures_pure fun x hx => hx.1

variable (known) in
/-- Listing chains keeps it too, and remembers what it lists. -/
theorem ensures_ancestorChains_of_stable (h : Answering b s used gives knows fails)
    (hstable : ∀ m kind identifier chains, known m → known (m.insert kind identifier chains))
    {raw : String} (hraw : used (Text.trim raw)) (kind : HierarchyKind) :
    Ensures (Knowing knows known) (ancestorChains b s raw kind)
      (fun found y => Knowing knows known y ∧ ∀ chains, found = some chains →
        ∃ e, gives raw (some e) ∧ y.memo.chains.get? kind e.identifier = some chains)
      (fun y => fails ∧ Knowing knows known y) := by
  refine h.ensures_ancestorChains hraw ?_ ?_ ?_
  · exact fun x hx _ => ⟨hx, fun _ hchains => absurd hchains (by simp)⟩
  · rintro e chains x hx he hchains
    exact ⟨hx, fun _ hfound => ⟨e, he, hfound ▸ hchains⟩⟩
  · intro e he
    refine (h.ensures_walkChains_of_stable known hstable _ he kind).mono (fun _ => And.left) ?_ fun _ => id
    intro chains y hy
    refine ⟨⟨h.learn hy.session, hstable _ _ _ _ hy.chains⟩, fun _ hfound => ⟨e, he, ?_⟩⟩
    rw [Session.learn, ChainMemo.get?_insert, if_pos ⟨rfl, rfl⟩, hfound]

/-- A call keeps what is known of the remembered chains when listing chains does. -/
theorem after_of_ensures (h : Answering b s used gives knows fails) {call : ResolverCall}
    (hcall : used (Text.trim call.name))
    (hchains : ∀ name kind, call = .chains name kind →
      Ensures (Knowing knows known) (ancestorChains b s name kind)
        (fun _ => Knowing knows known) (fun y => fails ∧ Knowing knows known y))
    {x : Session σ} (hx : Knowing knows known x) :
    Knowing knows known (call.after b s x) := by
  -- whatever the steps come to, they leave a session of which the same is known
  have hleft : ∀ {α : Type} {l : Lookups σ α},
      Ensures (Knowing knows known) l (fun _ => Knowing knows known)
        (fun y => fails ∧ Knowing knows known y) →
      Knowing knows known ((l.run).run x).2 := by
    intro α l hl
    have hrun := hl.outcome x hx
    generalize (l.run).run x = result at hrun ⊢
    cases hrun with
    | ok hy => exact hy
    | error hy => exact hy.2
  cases call with simp only [ResolverCall.after, ResolverCall.name] at hcall ⊢
  | resolve name =>
      exact hleft ((h.ensures_resolve? known hcall).mono (fun _ => id) (fun _ _ => And.left)
        fun _ => id)
  | chains name kind => exact hleft (hchains name kind rfl)
  | nearest name hierarchy kind => exact hleft (h.ensures_nearestMetadata known hcall hierarchy kind)

variable (known) in
/-- A call keeps what every chain that is remembered leaves true. -/
theorem after_of_stable (h : Answering b s used gives knows fails)
    (hstable : ∀ m kind identifier chains, known m → known (m.insert kind identifier chains))
    {call : ResolverCall} (hcall : used (Text.trim call.name)) {x : Session σ}
    (hx : Knowing knows known x) : Knowing knows known (call.after b s x) := by
  refine h.after_of_ensures hcall (fun name kind hasked => ?_) hx
  subst hasked
  exact (h.ensures_ancestorChains_of_stable known hstable hcall kind).mono (fun _ => id)
    (fun _ _ => And.left) fun _ => id

/-- A call keeps what every lookup keeps. -/
theorem after_of_knows (h : Answering b s used gives knows fails) {call : ResolverCall}
    (hcall : used (Text.trim call.name)) {x : Session σ} (hx : knows x) :
    knows (call.after b s x) :=
  (h.after_of_stable (fun _ => True) (fun _ _ _ _ => id) hcall ⟨hx, trivial⟩).session

variable (known) in
/-- **Calls keep what is known of the remembered chains** when listing chains does. -/
theorem afterCalls_of_ensures (h : Answering b s used gives knows fails) {world : σ}
    {calls : List ResolverCall} (hworld : knows { world }) (hnew : known {})
    (hcalls : ∀ call ∈ calls, used (Text.trim call.name))
    (hchains : ∀ name kind, used (Text.trim name) → .chains name kind ∈ calls →
      Ensures (Knowing knows known) (ancestorChains b s name kind)
        (fun _ => Knowing knows known) (fun y => fails ∧ Knowing knows known y)) :
    Knowing knows known (afterCalls b s world calls) := by
  refine afterCalls_induction (Knowing knows known) ⟨hworld, hnew⟩ ?_
  intro call hcall x hx
  refine h.after_of_ensures (hcalls call hcall) (fun name kind hasked => ?_) hx
  subst hasked
  exact hchains name kind (hcalls (.chains name kind) hcall) hcall

end Answering

end FacetSearch
