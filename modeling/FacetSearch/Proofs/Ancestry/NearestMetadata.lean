import FacetSearch.Proofs.Ancestry.Lines

set_option autoImplicit false

/-! # The nearest metadata

What a search for inherited metadata comes to, told without searching: the first entity that has any, on
the lowest level above the entity, and on one level in the order of the parents (`nearestAbove`). The
search level by level finds it, though it looks at no entity twice (`ensures_searchLevels_nearest`): an
entity that was seen before has no metadata, and whatever is above it would have been found from where it
was seen. Chains from memory give the same when they are all chains of the entity
(`nearestInChains_of_chainsOf`). -/

namespace FacetSearch

variable {σ : Type}

/-- The first metadata so many levels above an entity, the parents in order. -/
def hitAfter (s : ResolverSettings) (answer : String → Option Entity) (hierarchy : HierarchyKind)
    (kind : MetadataKind) : Nat → Entity → Option Inherited
  | 0, e => e.inherited? kind
  | levels + 1, e => (parentNames s hierarchy e).findSome? fun name =>
    (answer name).bind (hitAfter s answer hierarchy kind levels)

/-- The first metadata so many levels above some entities. -/
def hitAbove (s : ResolverSettings) (answer : String → Option Entity) (hierarchy : HierarchyKind)
    (kind : MetadataKind) (entities : List Entity) (levels : Nat) : Option Inherited :=
  entities.findSome? (hitAfter s answer hierarchy kind levels)

/-- The nearest metadata above an entity, as far as the limit on depth reaches. -/
def nearestAbove (s : ResolverSettings) (answer : String → Option Entity) (hierarchy : HierarchyKind)
    (kind : MetadataKind) (e : Entity) : Option Inherited :=
  (List.range s.maxDepth).findSome? fun levels => hitAfter s answer hierarchy kind (levels + 1) e

/-! ## Searching a range -/

section

variable {α : Type}

/-- A search along a range may be compared step by step as long as nothing is found. -/
theorem findSome?_range_congr {f g : Nat → Option α} {n : Nat}
    (h : ∀ k < n, (∀ j < k, f j = none) → f k = g k) :
    (List.range n).findSome? f = (List.range n).findSome? g := by
  induction n with
  | zero => rfl
  | succ n ih =>
      have hbefore := ih fun k hk => h k (Nat.lt_succ_of_lt hk)
      rw [List.range_succ, List.findSome?_append, List.findSome?_append, ← hbefore]
      cases hfound : (List.range n).findSome? f with
      | some a => rfl
      | none =>
          have hnone : ∀ j < n, f j = none := fun j hj =>
            List.findSome?_eq_none_iff.1 hfound j (List.mem_range.2 hj)
          simp [h n (Nat.lt_succ_self n) hnone]

/-- What comes after the last hit does not count. -/
theorem findSome?_range_of_le {f : Nat → Option α} {m n : Nat} (hle : m ≤ n)
    (h : ∀ k, m ≤ k → f k = none) : (List.range m).findSome? f = (List.range n).findSome? f := by
  obtain ⟨more, rfl⟩ := Nat.exists_eq_add_of_le hle
  have hmore : ((List.range more).map (m + ·)).findSome? f = none := by
    simp only [List.findSome?_eq_none_iff, List.mem_map]
    rintro _ ⟨k, -, rfl⟩
    exact h _ (Nat.le_add_right m k)
  rw [List.range_add, List.findSome?_append, hmore, Option.or_none]

theorem findSome?_range_succ (f : Nat → Option α) (n : Nat) :
    (List.range (n + 1)).findSome? f
      = (f 0).or ((List.range n).findSome? fun k => f (k + 1)) := by
  rw [List.range_succ_eq_map, List.findSome?_cons, List.findSome?_map]
  cases f 0 <;> rfl

end

/-! ## One level -/

section

variable {s : ResolverSettings} {answer : String → Option Entity} {hierarchy : HierarchyKind}
  {kind : MetadataKind} {gives : String → Option Entity → Prop}

/-- Two levels are one through the parents. -/
theorem findSome?_parents (frontier : List Entity) (levels : Nat) :
    (frontier.flatMap (parentNames s hierarchy)).findSome? (fun name =>
        (answer name).bind (hitAfter s answer hierarchy kind levels))
      = hitAbove s answer hierarchy kind frontier (levels + 1) := by
  induction frontier with
  | nil => rfl
  | cons e rest ih =>
      rw [List.flatMap_cons, List.findSome?_append, ih, hitAbove, hitAbove, List.findSome?_cons,
        hitAfter]
      cases (parentNames s hierarchy e).findSome? _ <;> rfl

/-- Looking some names up, in order, takes one frontier to another: an entity that was not seen before is
    seen now, and is to be searched next. -/
inductive Scanned (answer : String → Option Entity) (gives : String → Option Entity → Prop) :
    List String → Frontier → Frontier → Prop where
  | done (f : Frontier) : Scanned answer gives [] f f
  | unknown {name : String} {rest : List String} {f f' : Frontier} (hnone : answer name = none)
      (hrest : Scanned answer gives rest f f') : Scanned answer gives (name :: rest) f f'
  | again {name : String} {rest : List String} {f f' : Frontier} {e : Entity}
      (he : answer name = some e) (hseen : e.identifier ∈ f.seen)
      (hrest : Scanned answer gives rest f f') : Scanned answer gives (name :: rest) f f'
  | first {name : String} {rest : List String} {f f' : Frontier} {e : Entity}
      (he : answer name = some e) (hgives : gives name (some e))
      (hrest : Scanned answer gives rest { seen := e.identifier :: f.seen, next := f.next ++ [e] } f') :
      Scanned answer gives (name :: rest) f f'

namespace Scanned

variable {names : List String} {f f' : Frontier}

/-- All entities behind the names are seen, besides those from before. -/
theorem mem_seen_iff (h : Scanned answer gives names f f') {t : String} :
    t ∈ f'.seen ↔ t ∈ f.seen ∨ ∃ name ∈ names, ∃ e, answer name = some e ∧ e.identifier = t := by
  induction h with
  | done => simp
  | unknown hnone _ ih => simpa [hnone] using ih
  | again he hseen _ ih =>
      rw [ih]
      simp only [List.exists_mem_cons_iff, he, Option.some.injEq]
      grind
  | first he _ _ ih =>
      rw [ih]
      simp only [List.mem_cons]
      grind

/-- What is to be searched next was to be searched before, or is behind one of the names. -/
theorem given (h : Scanned answer gives names f f') {e : Entity} (he : e ∈ f'.next) :
    e ∈ f.next ∨ ∃ name ∈ names, gives name (some e) := by
  induction h with
  | done => exact .inl he
  | unknown _ _ ih | again _ _ _ ih =>
      rcases ih he with hnext | ⟨name, hname, hgives⟩
      · exact .inl hnext
      · exact .inr ⟨name, List.mem_cons_of_mem _ hname, hgives⟩
  | first _ hgives _ ih =>
      rcases ih he with hnext | ⟨name, hname, hgives'⟩
      · rcases List.mem_append.1 hnext with hnext | hnew
        · exact .inl hnext
        · obtain rfl := List.mem_singleton.1 hnew
          exact .inr ⟨_, List.mem_cons_self .., hgives⟩
      · exact .inr ⟨name, List.mem_cons_of_mem _ hname, hgives'⟩

theorem kept (h : Scanned answer gives names f f') {e : Entity} (he : e ∈ f.next) : e ∈ f'.next := by
  induction h with
  | done => exact he
  | unknown _ _ ih | again _ _ _ ih => exact ih he
  | first _ _ _ ih => exact ih (List.mem_append_left _ he)

/-- What was not seen before is to be searched next. -/
theorem fresh (h : Scanned answer gives names f f') {t : String} (ht : t ∈ f'.seen) :
    t ∈ f.seen ∨ ∃ e ∈ f'.next, e.identifier = t := by
  induction h with
  | done => exact .inl ht
  | unknown _ _ ih | again _ _ _ ih => exact ih ht
  | @first _ _ _ _ e _ _ hrest ih =>
      rcases ih ht with hseen | hnext
      · rcases List.mem_cons.1 hseen with rfl | hseen
        · exact .inr ⟨e, hrest.kept (by simp), rfl⟩
        · exact .inl hseen
      · exact .inr hnext

/-- A search that finds nothing in what was seen finds the same in what is next as behind the names. -/
theorem findSome?_next (h : Scanned answer gives names f f') (hids : Identified answer)
    {hit : Entity → Option Inherited}
    (hseen : ∀ raw e, answer raw = some e → e.identifier ∈ f.seen → e ∈ f.next ∨ hit e = none) :
    f'.next.findSome? hit
      = (f.next.findSome? hit).or (names.findSome? fun name => (answer name).bind hit) := by
  induction h with
  | done => simp
  | unknown hnone _ ih => rw [ih hseen, List.findSome?_cons, hnone, Option.bind_none]
  | @again name _ f _ e he hagain _ ih =>
      rw [ih hseen, List.findSome?_cons, he, Option.bind_some]
      -- what the entity has is found before, or is nothing
      rcases hseen name e he hagain with hnext | hnothing
      · cases hbefore : f.next.findSome? hit with
        | some found => rfl
        | none => rw [List.findSome?_eq_none_iff.1 hbefore e hnext]
      · rw [hnothing]
  | @first name _ f _ e he _ _ ih =>
      rw [ih, List.findSome?_append, List.findSome?_singleton, List.findSome?_cons, he,
        Option.bind_some, Option.or_assoc]
      · cases hit e <;> rfl
      · intro raw e' he' hmem
        rcases List.mem_cons.1 hmem with hsame | hmem
        · obtain rfl := hids _ _ _ _ he' he hsame
          exact .inl (by simp)
        · exact (hseen raw e' he' hmem).imp_left (List.mem_append_left _)

end Scanned

/-- Where a search stands: no entity that was seen has the metadata, and the parents of each were seen
    too, unless it is on the frontier. -/
structure Explored (s : ResolverSettings) (answer : String → Option Entity)
    (gives : String → Option Entity → Prop) (hierarchy : HierarchyKind) (kind : MetadataKind)
    (seen : List String) (frontier : List Entity) : Prop where
  given : ∀ e ∈ frontier, ∃ raw, gives raw (some e)
  begun : ∀ e ∈ frontier, e.identifier ∈ seen
  bare : ∀ raw e, answer raw = some e → e.identifier ∈ seen → e.inherited? kind = none
  closed : ∀ raw e, answer raw = some e → e.identifier ∈ seen → e ∈ frontier ∨
    ∀ name ∈ parentNames s hierarchy e, ∀ parent, answer name = some parent → parent.identifier ∈ seen

namespace Explored

variable {seen : List String} {frontier : List Entity}

theorem start (hids : Identified answer) {raw : String} {e : Entity} (hgives : gives raw (some e))
    (he : answer raw = some e) (hbare : e.inherited? kind = none) :
    Explored s answer gives hierarchy kind [e.identifier] [e] where
  given := by
    intro e' he'
    obtain rfl := List.mem_singleton.1 he'
    exact ⟨raw, hgives⟩
  begun := by simp
  bare := by
    intro raw' e' he' hseen
    obtain rfl := hids _ _ _ _ he' he (List.mem_singleton.1 hseen)
    exact hbare
  closed := by
    intro raw' e' he' hseen
    obtain rfl := hids _ _ _ _ he' he (List.mem_singleton.1 hseen)
    exact .inl (by simp)

/-- When the frontier has nothing above it up to some level, nothing that was seen has anything on that
    level: the way there leaves what was seen through the frontier. -/
theorem hitAfter_eq_none (h : Explored s answer gives hierarchy kind seen frontier) {levels : Nat}
    (hnone : ∀ k ≤ levels, hitAbove s answer hierarchy kind frontier k = none) {raw : String}
    {e : Entity} (he : answer raw = some e) (hseen : e.identifier ∈ seen) :
    hitAfter s answer hierarchy kind levels e = none := by
  induction levels generalizing raw e with
  | zero => exact h.bare raw e he hseen
  | succ levels ih =>
      rcases h.closed raw e he hseen with hfrontier | hparents
      · exact List.findSome?_eq_none_iff.1 (hnone (levels + 1) (Nat.le_refl _)) e hfrontier
      · rw [hitAfter, List.findSome?_eq_none_iff]
        intro name hname
        cases hanswer : answer name with
        | none => rfl
        | some parent =>
            exact ih (fun k hk => hnone k (Nat.le_succ_of_le hk)) hanswer
              (hparents name hname parent hanswer)

/-- A level without metadata takes the search one level up. -/
theorem step (h : Explored s answer gives hierarchy kind seen frontier) (hids : Identified answer)
    (hgives : ∀ raw found, gives raw found → found = answer raw) {f : Frontier}
    (hscan : Scanned answer gives (frontier.flatMap (parentNames s hierarchy)) { seen, next := [] } f)
    (hnone : hitAbove s answer hierarchy kind frontier 1 = none) :
    Explored s answer gives hierarchy kind f.seen f.next where
  given := by
    intro e he
    obtain ⟨name, -, hname⟩ := (hscan.given he).resolve_left (by simp)
    exact ⟨name, hname⟩
  begun := by
    intro e he
    obtain ⟨name, hname, hgiven⟩ := (hscan.given he).resolve_left (by simp)
    exact hscan.mem_seen_iff.2 (.inr ⟨name, hname, e, (hgives _ _ hgiven).symm, rfl⟩)
  bare := by
    intro raw e he hseen
    rcases hscan.mem_seen_iff.1 hseen with hold | ⟨name, hname, e', he', hsame⟩
    · exact h.bare raw e he hold
    · obtain rfl := hids _ _ _ _ he' he hsame
      rw [← findSome?_parents, List.findSome?_eq_none_iff] at hnone
      simpa [he', hitAfter] using hnone name hname
  closed := by
    intro raw e he hseen
    rcases hscan.fresh hseen with hold | ⟨e', he', hsame⟩
    · right
      intro name hname parent hparent
      rcases h.closed raw e he hold with hfrontier | hparents
      · exact hscan.mem_seen_iff.2
          (.inr ⟨name, List.mem_flatMap.2 ⟨e, hfrontier, hname⟩, parent, hparent, rfl⟩)
      · exact hscan.mem_seen_iff.2 (.inl (hparents name hname parent hparent))
    · obtain ⟨name, -, hgiven⟩ := (hscan.given he').resolve_left (by simp)
      obtain rfl := hids _ _ _ _ (hgives _ _ hgiven).symm he hsame
      exact .inl he'

/-- What is found above the next level is what is found above all parents of this one. -/
theorem hitAbove_next (h : Explored s answer gives hierarchy kind seen frontier)
    (hids : Identified answer) {f : Frontier}
    (hscan : Scanned answer gives (frontier.flatMap (parentNames s hierarchy)) { seen, next := [] } f)
    {levels : Nat} (hnone : ∀ k ≤ levels, hitAbove s answer hierarchy kind frontier k = none) :
    hitAbove s answer hierarchy kind f.next levels
      = hitAbove s answer hierarchy kind frontier (levels + 1) := by
  rw [hitAbove, hscan.findSome?_next hids, findSome?_parents]
  · rfl
  · exact fun raw e he hseen => .inr (h.hitAfter_eq_none hnone he hseen)

end Explored

end

/-! ## The search -/

section Resolver

variable {b : Backing σ} {s : ResolverSettings} {used : String → Prop}
  {gives : String → Option Entity → Prop} {knows : Session σ → Prop} {fails : Prop}
  {answer : String → Option Entity} {hierarchy : HierarchyKind} {kind : MetadataKind}

/-- The first metadata behind some names is found, or else all of them are searched next that were not
    seen before. -/
theorem ensures_searchParents_scanned (h : Answering b s used gives knows fails)
    (hgives : ∀ raw found, gives raw found → found = answer raw) (hids : Identified answer)
    (known : ChainMemo → Prop) {names : List String} (hnames : ∀ name ∈ names, used (Text.trim name))
    {f : Frontier} (hbare : ∀ raw e, answer raw = some e → e.identifier ∈ f.seen →
      e.inherited? kind = none) :
    Ensures (Knowing knows known) (searchParents b s kind names f)
      (fun found y => Knowing knows known y ∧ match found with
        | .inl hit => names.findSome? (fun name => (answer name).bind (Entity.inherited? kind)) = some hit
        | .inr f' => names.findSome? (fun name => (answer name).bind (Entity.inherited? kind)) = none ∧
            Scanned answer gives names f f')
      (fun y => fails ∧ Knowing knows known y) := by
  induction names generalizing f with
  | nil => exact ensures_pure fun x hx => ⟨hx, rfl, .done f⟩
  | cons name rest ih =>
      have hrest : ∀ name ∈ rest, used (Text.trim name) :=
        fun n hn => hnames n (List.mem_cons_of_mem _ hn)
      unfold searchParents
      refine ensures_bind (h.ensures_resolve? known (hnames name (List.mem_cons_self ..)))
        fun found => ensures_of_fact fun hgiven => ?_
      have hanswer := (hgives _ _ hgiven).symm
      rw [List.findSome?_cons, hanswer]
      cases found with
      | none =>
          refine (ih hrest hbare).mono (fun _ => id) ?_ fun _ => id
          rintro (hit | f') y ⟨hy, hfound⟩
          · exact ⟨hy, hfound⟩
          · exact ⟨hy, hfound.1, .unknown hanswer hfound.2⟩
      | some e =>
          by_cases hseen : e.identifier ∈ f.seen
          · simp only [List.contains_eq_mem, hseen, decide_true, if_true, Option.bind_some,
              hbare name e hanswer hseen]
            refine (ih hrest hbare).mono (fun _ => id) ?_ fun _ => id
            rintro (hit | f') y ⟨hy, hfound⟩
            · exact ⟨hy, hfound⟩
            · exact ⟨hy, hfound.1, .again hanswer hseen hfound.2⟩
          · simp only [List.contains_eq_mem, hseen, decide_false, Bool.false_eq_true, if_false,
              Option.bind_some]
            cases hinherited : e.inherited? kind with
            | some hit => exact ensures_pure fun x hx => ⟨hx, rfl⟩
            | none =>
                refine (ih hrest ?_).mono (fun _ => id) ?_ fun _ => id
                · intro raw e' he' hmem
                  rcases List.mem_cons.1 hmem with hsame | hmem
                  · obtain rfl := hids _ _ _ _ he' hanswer hsame
                    exact hinherited
                  · exact hbare raw e' he' hmem
                · rintro (hit | f') y ⟨hy, hfound⟩
                  · exact ⟨hy, hfound⟩
                  · exact ⟨hy, hfound.1, .first hanswer hgiven hfound.2⟩

/-- **The search level by level finds the nearest metadata** above the frontier. -/
theorem ensures_searchLevels_nearest (h : Answering b s used gives knows fails)
    (hgives : ∀ raw found, gives raw found → found = answer raw) (hids : Identified answer)
    (known : ChainMemo → Prop) {levels : Nat} {seen : List String} {frontier : List Entity}
    (hexplored : Explored s answer gives hierarchy kind seen frontier) :
    Ensures (Knowing knows known) (searchLevels b s hierarchy kind levels seen frontier)
      (fun found y => Knowing knows known y ∧ found
        = (List.range levels).findSome? fun k => hitAbove s answer hierarchy kind frontier (k + 1))
      (fun y => fails ∧ Knowing knows known y) := by
  induction levels generalizing seen frontier with
  | zero => exact ensures_pure fun x hx => ⟨hx, rfl⟩
  | succ levels ih =>
      have hnames : ∀ name ∈ frontier.flatMap (parentNames s hierarchy), used (Text.trim name) := by
        intro name hname
        obtain ⟨e, he, hname⟩ := List.mem_flatMap.1 hname
        obtain ⟨raw, hraw⟩ := hexplored.given e he
        exact h.used_of_mem_parentNames hraw hname
      unfold searchLevels
      split
      · next hempty =>
        obtain rfl := List.isEmpty_iff.1 hempty
        exact ensures_pure fun x hx => ⟨hx, (List.findSome?_eq_none_iff.2 fun _ _ => rfl).symm⟩
      · refine ensures_bind (ensures_searchParents_scanned h hgives hids known hnames
          hexplored.bare) fun found => ensures_of_fact fun hfound => ?_
        have hparents : (frontier.flatMap (parentNames s hierarchy)).findSome? (fun name =>
            (answer name).bind (Entity.inherited? kind)) = hitAbove s answer hierarchy kind frontier 1 :=
          findSome?_parents frontier 0
        rw [findSome?_range_succ, Nat.zero_add, ← hparents]
        cases found with
        | inl hit =>
            refine ensures_pure fun x hx => ⟨hx, ?_⟩
            rw [hfound, Option.some_or]
        | inr f =>
            obtain ⟨hnone, hscan⟩ := hfound
            have hfirst := hparents.symm.trans hnone
            refine (ih (hexplored.step hids hgives hscan hfirst)).mono (fun _ => id) ?_ fun _ => id
            rintro found y ⟨hy, rfl⟩
            refine ⟨hy, ?_⟩
            rw [hnone, Option.none_or]
            refine (findSome?_range_congr fun k _ hbefore => ?_).symm
            refine (hexplored.hitAbove_next hids hscan fun j hj => ?_).symm
            -- nothing on the frontier itself, on the level above it and on those before
            rcases j with _ | _ | j
            · refine List.findSome?_eq_none_iff.2 fun e he => ?_
              obtain ⟨raw, hraw⟩ := hexplored.given e he
              exact hexplored.bare raw e (hgives _ _ hraw).symm (hexplored.begun e he)
            · exact hfirst
            · exact hbefore j (by omega)

/-- The search above one entity. -/
theorem ensures_searchLevels_above (h : Answering b s used gives knows fails)
    (hgives : ∀ raw found, gives raw found → found = answer raw) (hids : Identified answer)
    (known : ChainMemo → Prop) {raw : String} {e : Entity} (he : gives raw (some e))
    (hbare : e.inherited? kind = none) :
    Ensures (Knowing knows known) (searchLevels b s hierarchy kind s.maxDepth [e.identifier] [e])
      (fun found y => Knowing knows known y ∧ found = nearestAbove s answer hierarchy kind e)
      (fun y => fails ∧ Knowing knows known y) := by
  have hstart : Explored s answer gives hierarchy kind [e.identifier] [e] :=
    .start hids he (hgives _ _ he).symm hbare
  refine (ensures_searchLevels_nearest h hgives hids known hstart).mono (fun _ => id)
    (fun found y hy => ⟨hy.1, hy.2.trans ?_⟩) fun _ => id
  simp only [hitAbove, List.findSome?_singleton, nearestAbove]

end Resolver

/-! ## Chains from memory -/

section

variable {s : ResolverSettings} {answer : String → Option Entity} {hierarchy : HierarchyKind}
  {kind : MetadataKind} {e : Entity}

theorem foldl_max_le_iff {paths : List (List Entity)} {least bound : Nat} :
    paths.foldl (fun n path => max n path.length) least ≤ bound ↔
      least ≤ bound ∧ ∀ path ∈ paths, path.length ≤ bound := by
  induction paths generalizing least with
  | nil => simp
  | cons path rest ih => simp [ih, and_assoc]

/-- The metadata so many levels above the start of some paths, the paths in order. -/
def hitAlong (kind : MetadataKind) (paths : List (List Entity)) (level : Nat) : Option Inherited :=
  paths.findSome? fun path => path[level]?.bind (Entity.inherited? kind)

/-- Paths that begin with an entity have its metadata first. -/
theorem hitAlong_zero {paths : List (List Entity)} (hne : paths ≠ [])
    (hstarts : ∀ path ∈ paths, path[0]? = some e) :
    hitAlong kind paths 0 = e.inherited? kind := by
  have hsame : ∀ path ∈ paths, path[0]?.bind (Entity.inherited? kind) = e.inherited? kind :=
    fun path hpath => by rw [hstarts path hpath, Option.bind_some]
  obtain ⟨first, rest, rfl⟩ := List.exists_cons_of_ne_nil hne
  rw [hitAlong]
  cases hinherited : e.inherited? kind with
  | none => exact List.findSome?_eq_none_iff.2 fun path hpath => (hsame path hpath).trans hinherited
  | some hit => rw [List.findSome?_cons, hsame first (List.mem_cons_self ..), hinherited]

/-- Chains are read as far as they reach. -/
theorem nearestInChains_eq {chains : List Chain} {bound : Nat}
    (hbound : ∀ path ∈ chains.map (·.nearestFirst), path.length ≤ bound + 1) :
    nearestInChains kind chains
      = (List.range bound).findSome? fun k => hitAlong kind (chains.map (·.nearestFirst)) (k + 1) := by
  unfold nearestInChains
  dsimp only
  generalize chains.map (·.nearestFirst) = paths at hbound ⊢
  generalize hlongest : paths.foldl (fun n path => max n path.length) 0 = longest
  have hle : longest ≤ bound + 1 := hlongest ▸ foldl_max_le_iff.2 ⟨Nat.zero_le _, hbound⟩
  have hreach : ∀ path ∈ paths, path.length ≤ longest := (foldl_max_le_iff.1 hlongest.le).2
  have hdrop : (List.range longest).drop 1 = (List.range (longest - 1)).map (· + 1) := by
    cases longest with
    | zero => rfl
    | succ longest => rw [List.range_succ_eq_map]; rfl
  rw [hdrop, List.findSome?_map]
  refine findSome?_range_of_le (by omega) fun k hk => List.findSome?_eq_none_iff.2 fun path hpath => ?_
  have hlength := hreach path hpath
  show path[k + 1]?.bind (Entity.inherited? kind) = none
  rw [List.getElem?_eq_none (by omega), Option.bind_none]

theorem hitAlong_pathsVia {names : List String} {level : Nat}
    (h : ∀ name ∈ names, ∀ parent, answer name = some parent →
      hitAlong kind (upwardPaths s answer parent) level = hitAfter s answer .concept kind level parent) :
    hitAlong kind (pathsVia s answer e names) (level + 1)
      = names.findSome? fun name => (answer name).bind (hitAfter s answer .concept kind level) := by
  induction names with
  | nil => rfl
  | cons name rest ih =>
      have hrest := ih fun n hn => h n (List.mem_cons_of_mem _ hn)
      rw [hitAlong, pathsVia] at hrest ⊢
      rw [List.flatMap_cons, List.findSome?_append, hrest, List.findSome?_cons]
      cases hparent : answer name with
      | none => rfl
      | some parent =>
          rw [Option.elim_some, List.findSome?_map, Option.bind_some,
            ← h name (List.mem_cons_self ..) parent hparent]
          simp only [hitAlong, Function.comp_def, List.getElem?_cons_succ]
          cases (upwardPaths s answer parent).findSome? _ <;> rfl

/-- **Along the paths of a concept** the metadata is found as through its parents. -/
theorem hitAlong_upwardPaths (he : LongestPath s answer e s.maxDepth) (level : Nat) :
    hitAlong kind (upwardPaths s answer e) level = hitAfter s answer .concept kind level e := by
  induction level generalizing e with
  | zero =>
      refine hitAlong_zero (upwardPaths_ne_nil s answer e) fun path hpath => ?_
      obtain ⟨⟨route, path⟩, hway, rfl⟩ := List.mem_map.1 hpath
      cases ((mem_waysUp he).1 hway).upward <;> rfl
  | succ level ih =>
      have hvia : hitAlong kind (pathsVia s answer e (parentNames s .concept e)) (level + 1)
          = hitAfter s answer .concept kind (level + 1) e :=
        hitAlong_pathsVia fun name hname parent hparent =>
          ih (he.above (.single (isParent_of_mem_parentNames hname hparent)))
      rw [upwardPaths_eq he]
      split
      · next hempty =>
        rw [← hvia, List.isEmpty_iff.1 hempty]
        simp [hitAlong]
      · exact hvia

theorem length_of_mem_upwardPaths (he : LongestPath s answer e s.maxDepth) {path : List Entity}
    (hpath : path ∈ upwardPaths s answer e) : path.length ≤ s.maxDepth + 1 := by
  have hlength : ∀ {e route path}, UpwardPath s answer e route path → path.length = route.length + 1 := by
    intro e route path h
    induction h with
    | stay => rfl
    | climb _ _ ih => rw [List.length_cons, ih, List.length_cons]
  obtain ⟨⟨route, path⟩, hway, rfl⟩ := List.mem_map.1 hpath
  have hupward := ((mem_waysUp he).1 hway).upward
  rw [hlength hupward]
  exact Nat.succ_le_succ (he route path hupward)

/-- A place or a project has at most one parent that counts. -/
theorem findSome?_parentNames (hkind : hierarchy ≠ .concept) (hit : Entity → Option Inherited) :
    (parentNames s hierarchy e).findSome? (fun name => (answer name).bind hit)
      = (firstParent? s answer hierarchy e).bind hit := by
  have hone : (parentNames s hierarchy e).length ≤ 1 := by
    cases hierarchy with
    | concept => exact absurd rfl hkind
    | spatial | project => exact List.length_take_le 1 _
  unfold firstParent?
  match hnames : parentNames s hierarchy e, hone with
  | [], _ => rfl
  | [name], _ => rw [List.findSome?_singleton, List.head?_cons, Option.bind_some]

/-- **Along the line of a place or a project** the metadata is found as through its parents. -/
theorem hitAlong_line (hkind : hierarchy ≠ .concept) {line : List Entity}
    (h : Line s answer hierarchy e line) (level : Nat) :
    hitAlong kind [line] level = hitAfter s answer hierarchy kind level e := by
  rw [hitAlong, List.findSome?_singleton]
  induction h generalizing level with
  | top hnone =>
      cases level with
      | zero => rfl
      | succ level => rw [hitAfter, findSome?_parentNames hkind, hnone]; rfl
  | climb hparent _ ih =>
      cases level with
      | zero => rfl
      | succ level =>
          rw [hitAfter, findSome?_parentNames hkind, hparent, List.getElem?_cons_succ, ih,
            Option.bind_some]

/-- The paths of an entity within the limits, nearest first. -/
theorem ChainsOf.paths {chains : List Chain} (h : ChainsOf s answer hierarchy e chains)
    (hwithin : WithinLimits s answer hierarchy e) (kind : MetadataKind) :
    (∀ path ∈ chains.map (·.nearestFirst), path.length ≤ s.maxDepth + 1) ∧
      ∀ level, hitAlong kind (chains.map (·.nearestFirst)) level
        = hitAfter s answer hierarchy kind level e := by
  cases hierarchy with
  | concept =>
      have hdepth : LongestPath s answer e s.maxDepth := Within.depth hwithin
      have hpaths : chains.map (·.nearestFirst) = upwardPaths s answer e := by
        obtain rfl : chains = (upwardPaths s answer e).map (⟨.concept, ·⟩) := h
        rw [List.map_map]
        exact List.map_id _
      rw [hpaths]
      exact ⟨fun path => length_of_mem_upwardPaths hdepth, hitAlong_upwardPaths hdepth⟩
  | spatial | project =>
      obtain ⟨line, hline, rfl⟩ := h
      obtain ⟨line', hline', hlength⟩ := hwithin
      obtain rfl := hline.unique hline'
      rw [List.map_singleton, Chain.nearestFirst, if_neg (by simp [HierarchyKind.isDag]),
        List.reverse_reverse]
      exact ⟨by simpa using Nat.le_succ_of_le hlength, hitAlong_line (by simp) hline⟩

/-- **The chains of an entity within the limits tell its nearest metadata.** -/
theorem nearestInChains_of_chainsOf {chains : List Chain} (h : ChainsOf s answer hierarchy e chains)
    (hwithin : WithinLimits s answer hierarchy e) :
    nearestInChains kind chains = nearestAbove s answer hierarchy kind e := by
  obtain ⟨hlength, hhits⟩ := h.paths hwithin kind
  rw [nearestInChains_eq hlength, nearestAbove]
  simp only [hhits]

end

/-! ## Calls -/

section

variable {b : Backing σ} {s : ResolverSettings} {used : String → Prop}
  {gives : String → Option Entity → Prop} {knows : Session σ → Prop} {fails : Prop}
  {answer : String → Option Entity}

/-- **The metadata of an entity within the limits is its own or the nearest above it**, from memory as
    from a search. -/
theorem ensures_nearestMetadata_exact (h : Answering b s used gives knows fails)
    (hgives : ∀ raw found, gives raw found → found = answer raw) (hids : Identified answer)
    {raw : String} (hraw : used (Text.trim raw)) (hierarchy : HierarchyKind) (kind : MetadataKind)
    (hwithin : ∀ e, answer raw = some e → WithinLimits s answer hierarchy e) :
    Ensures (Knowing knows (Exact s answer)) (nearestMetadata b s raw hierarchy kind)
      (fun found y => Knowing knows (Exact s answer) y ∧ found = (answer raw).map fun e =>
        (e.inherited? kind).or (nearestAbove s answer hierarchy kind e))
      (fun y => fails ∧ Knowing knows (Exact s answer) y) := by
  refine h.ensures_nearestMetadata_cases hraw ?_ ?_ ?_ ?_
  · intro x hx hnone
    exact ⟨hx, by rw [← hgives _ _ hnone, Option.map_none]⟩
  · intro e hit x hx he hinherited
    exact ⟨hx, by rw [← hgives _ _ he, Option.map_some, hinherited, Option.some_or]⟩
  · intro e chains x hx he hinherited hget
    have hanswer := (hgives _ _ he).symm
    have hchains := hx.chains.chainsOf hanswer (hwithin e hanswer) hget
    refine ⟨hx, ?_⟩
    rw [hanswer, Option.map_some, hinherited, Option.none_or,
      nearestInChains_of_chainsOf hchains (hwithin e hanswer)]
  · intro e he hinherited
    rw [← hgives _ _ he, Option.map_some, hinherited, Option.none_or]
    refine (ensures_searchLevels_above h hgives hids (Exact s answer) he hinherited).mono
      (fun _ => And.left) (fun found y hy => ⟨hy.1, congrArg some hy.2⟩) fun _ => id

end

end FacetSearch
