import FacetSearch.Proofs.Ancestry.NearestMetadata

set_option autoImplicit false

/-! # The levels that a walk shows

A walk comes to paths that have metadata on the same levels as a search through the parents would find
it, up to the first level that has any (`ensures_conceptWalk_tells`, `ensures_climb_tells`). A walk does
not follow a parent that is on its trail, nor one that is too far away; but the nearest metadata is not
reached through them (`Unhidden`), since what is on the trail is nearer. Only the limit on chains may keep
the metadata out, when as many paths were listed (`Shows`).

Paths that were put together from memory may be longer than the limit on depth. They hold nothing that is
farther away than a search goes, and so they have no metadata when there is none within the limit. -/

namespace FacetSearch

variable {σ : Type}

/-! ## Levels of paths -/

/-- The paths have on a level what is expected there, unless the limit on chains kept it out. -/
def Shows (s : ResolverSettings) (kind : MetadataKind) (paths : List (List Entity)) (level : Nat)
    (expected : Option Inherited) : Prop :=
  hitAlong kind paths level = expected ∨
    (hitAlong kind paths level = none ∧ s.maxChains ≤ paths.length)

/-- No entity on the paths has metadata. -/
def Bare (kind : MetadataKind) (paths : List (List Entity)) : Prop :=
  ∀ path ∈ paths, ∀ a ∈ path, a.inherited? kind = none

/-- Neither the levels of a walk nor its trail get in the way of what is on a level above an entity, when
    nothing is nearer. -/
structure Unhidden (s : ResolverSettings) (answer : String → Option Entity) (hierarchy : HierarchyKind)
    (kind : MetadataKind) (levels : Nat) (trail : List String) (e : Entity) (level : Nat) : Prop where
  reach : level ≤ levels
  nothing : ∀ fewer < level, hitAfter s answer hierarchy kind fewer e = none
  trail : ∀ raw t, answer raw = some t → t.identifier ∈ trail →
    ∀ fewer ≤ level, hitAfter s answer hierarchy kind fewer t = none

section

variable {s : ResolverSettings} {answer : String → Option Entity} {hierarchy : HierarchyKind}
  {kind : MetadataKind} {e parent : Entity} {raw name : String} {level levels : Nat}
  {trail trail' : List String} {paths above : List (List Entity)} {expected : Option Inherited}

/-- What has nothing on a level has parents with nothing on the one below. -/
theorem hitAfter_parent_eq_none (h : hitAfter s answer hierarchy kind (level + 1) e = none)
    (hname : name ∈ parentNames s hierarchy e) (hparent : answer name = some parent) :
    hitAfter s answer hierarchy kind level parent = none := by
  have hnone := List.findSome?_eq_none_iff.1 h name hname
  rwa [hparent, Option.bind_some] at hnone

/-- What is not hidden above an entity is not hidden above its parents. -/
theorem Unhidden.of_parent (h : Unhidden s answer hierarchy kind (levels + 1) trail e (level + 1))
    (hids : Identified answer) (he : answer raw = some e) (hname : name ∈ parentNames s hierarchy e)
    (hparent : answer name = some parent)
    (htrail : ∀ t ∈ trail', t ∈ trail ∨ t = e.identifier) :
    Unhidden s answer hierarchy kind levels trail' parent level where
  reach := Nat.le_of_succ_le_succ h.reach
  nothing fewer hlt := hitAfter_parent_eq_none (h.nothing _ (Nat.succ_lt_succ hlt)) hname hparent
  trail raw' t ht hmem fewer hle := by
    rcases htrail _ hmem with hmem | hsame
    · exact h.trail raw' t ht hmem fewer (Nat.le_succ_of_le hle)
    · obtain rfl := hids _ _ _ _ ht he hsame
      exact h.nothing fewer (Nat.lt_succ_of_le hle)

/-- A parent on the trail has nothing that is nearer. -/
theorem Unhidden.hitAfter_eq_none (h : Unhidden s answer hierarchy kind levels trail e (level + 1))
    (hids : Identified answer) (he : answer raw = some e) (hparent : answer name = some parent)
    (hmem : parent.identifier ∈ trail ∨ parent.identifier = e.identifier) :
    hitAfter s answer hierarchy kind level parent = none := by
  rcases hmem with hmem | hsame
  · exact h.trail name parent hparent hmem level (Nat.le_succ _)
  · obtain rfl := hids _ _ _ _ hparent he hsame
    exact h.nothing level (Nat.lt_succ_self _)

/-- Putting an entity in front of paths raises their levels by one. -/
theorem hitAlong_extendPaths (e : Entity) (room : Nat) :
    hitAlong kind (paths ++ extendPaths e room above) (level + 1)
      = (hitAlong kind paths (level + 1)).or (hitAlong kind (above.take room) level) := by
  simp only [hitAlong, extendPaths, List.findSome?_append, List.findSome?_map, Function.comp_def,
    List.getElem?_cons_succ]

theorem hitAlong_take {hit : Inherited} {room : Nat} (h : hitAlong kind (above.take room) level = some hit) :
    hitAlong kind above level = some hit := by
  unfold hitAlong at h ⊢
  conv_lhs => rw [← List.take_append_drop room above]
  rw [List.findSome?_append, h, Option.some_or]

/-- **The paths of one more parent** show the level above what they showed, as far as there is room; a
    parent whose paths do not fit is the last. -/
theorem Shows.extend {names before rest : List String} {f : String → Option Inherited}
    (h : Shows s kind paths (level + 1) (before.findSome? f)) (hsplit : names = before ++ name :: rest)
    (habove : Shows s kind above level (f name)) (e : Entity) :
    Shows s kind (paths ++ extendPaths e (s.maxChains - paths.length) above) (level + 1)
      ((if s.maxChains - paths.length < above.length then names else before ++ [name]).findSome? f) := by
  have hlength : (paths ++ extendPaths e (s.maxChains - paths.length) above).length
      = paths.length + min (s.maxChains - paths.length) above.length := by
    simp [extendPaths]
  unfold Shows
  rw [hlength, hitAlong_extendPaths]
  rcases h with hsame | ⟨hnone, hfull⟩
  · cases hbefore : before.findSome? f with
    | some hit =>
        -- what was found before stays first
        left
        rw [hsame, hbefore, Option.some_or]
        split
        · rw [hsplit, List.findSome?_append, hbefore, Option.some_or]
        · rw [List.findSome?_append, hbefore, Option.some_or]
    | none =>
        rw [hsame, hbefore, Option.none_or]
        split
        · next hroom =>
          cases htake : hitAlong kind (above.take (s.maxChains - paths.length)) level with
          | none => exact .inr ⟨rfl, by omega⟩
          | some hit =>
              left
              have hfound := habove.resolve_right fun hcapped =>
                absurd ((hitAlong_take htake).symm.trans hcapped.1) (by simp)
              rw [hsplit, List.findSome?_append, hbefore, Option.none_or, List.findSome?_cons,
                ← hfound, hitAlong_take htake]
        · next hroom =>
          rw [List.take_of_length_le (Nat.not_lt.1 hroom), List.findSome?_append, hbefore,
            Option.none_or, List.findSome?_singleton]
          exact habove.imp_right fun hcapped => ⟨hcapped.1, by omega⟩
  · right
    rw [hnone, Nat.sub_eq_zero_of_le hfull, List.take_zero]
    exact ⟨rfl, by omega⟩

end

/-! ## Walks -/

/-- The paths of an entity show its levels, of which `right` tells on which they do; and they are bare
    when all is `quiet`. -/
structure Tells (s : ResolverSettings) (answer : String → Option Entity) (kind : MetadataKind)
    (quiet : Prop) (right : Nat → Prop) (e : Entity) (paths : List (List Entity)) : Prop where
  shows : ∀ level, right level →
    Shows s kind paths level (hitAfter s answer .concept kind level e)
  bare : quiet → Bare kind paths

/-- The same of its paths through some of its parents. -/
structure TellsVia (s : ResolverSettings) (answer : String → Option Entity) (kind : MetadataKind)
    (quiet : Prop) (right : Nat → Prop) (e : Entity) (names : List String)
    (paths : List (List Entity)) : Prop where
  starts : ∀ path ∈ paths, path[0]? = some e
  shows : ∀ level, right (level + 1) → Shows s kind paths (level + 1)
    (names.findSome? fun name => (answer name).bind (hitAfter s answer .concept kind level))
  bare : quiet → Bare kind paths

/-- What is remembered of concepts shows all levels. -/
def Telling (s : ResolverSettings) (answer : String → Option Entity) (kind : MetadataKind)
    (quiet : Prop) (m : ChainMemo) : Prop :=
  ∀ raw e chains, answer raw = some e → m.get? .concept e.identifier = some chains →
    ∃ paths, chains = paths.map (⟨.concept, ·⟩) ∧ Tells s answer kind quiet (fun _ => True) e paths

/-- The levels that a walk shows: all when it is complete, and else those that it does not hide. -/
def Walk.Right (s : ResolverSettings) (answer : String → Option Entity) (kind : MetadataKind)
    (levels : Nat) (trail : List String) (e : Entity) (found : Walk) (level : Nat) : Prop :=
  found.complete = true ∨ Unhidden s answer .concept kind levels trail e level

section

variable {s : ResolverSettings} {answer : String → Option Entity} {kind : MetadataKind} {quiet : Prop}
  {right right' : Nat → Prop} {e parent : Entity} {raw name : String} {levels : Nat}
  {trail : List String} {names before rest : List String} {paths : List (List Entity)}
  {m : ChainMemo}

theorem telling_empty : Telling s answer kind quiet {} := by
  intro raw e chains _ hget
  exact absurd hget (by simp)

theorem Telling.insert (h : Telling s answer kind quiet m) (hids : Identified answer)
    (he : answer raw = some e) (htells : Tells s answer kind quiet (fun _ => True) e paths) :
    Telling s answer kind quiet (m.insert .concept e.identifier (paths.map (⟨.concept, ·⟩))) := by
  intro raw' e' chains he' hget
  rw [ChainMemo.get?_insert] at hget
  split at hget
  · next hsame =>
    obtain rfl := hids _ _ _ _ he he' hsame.2
    exact ⟨paths, (Option.some.inj hget).symm, htells⟩
  · exact h raw' e' chains he' hget

theorem Tells.mono (h : Tells s answer kind quiet right e paths) (hright : ∀ level, right' level → right level) :
    Tells s answer kind quiet right' e paths :=
  ⟨fun level hlevel => h.shows level (hright level hlevel), h.bare⟩

theorem tellsVia_nil : TellsVia s answer kind quiet right e [] [] :=
  ⟨by simp, fun _ _ => .inl rfl, fun _ => by simp [Bare]⟩

/-- A parent that has nothing on the levels in question adds nothing. -/
theorem TellsVia.skip (h : TellsVia s answer kind quiet right e before paths)
    (hright : ∀ level, right' level → right level)
    (hnone : ∀ level, right' (level + 1) →
      (answer name).bind (hitAfter s answer .concept kind level) = none) :
    TellsVia s answer kind quiet right' e (before ++ [name]) paths where
  starts := h.starts
  shows level hlevel := by
    rw [List.findSome?_append, List.findSome?_singleton, hnone level hlevel, Option.or_none]
    exact h.shows level (hright _ hlevel)
  bare := h.bare

/-- The paths of a parent add what they show. -/
theorem TellsVia.extend {above : List (List Entity)} {rightAbove : Nat → Prop}
    (h : TellsVia s answer kind quiet right e before paths) (hsplit : names = before ++ name :: rest)
    (hparent : answer name = some parent)
    (habove : Tells s answer kind quiet rightAbove parent above)
    (hright : ∀ level, right' level → right level)
    (hrightAbove : ∀ level, right' (level + 1) → rightAbove level)
    (hbare : quiet → e.inherited? kind = none) :
    TellsVia s answer kind quiet right' e
      (if s.maxChains - paths.length < above.length then names else before ++ [name])
      (paths ++ extendPaths e (s.maxChains - paths.length) above) where
  starts path hpath := by
    rcases List.mem_append.1 hpath with hpath | hpath
    · exact h.starts path hpath
    · obtain ⟨_, -, rfl⟩ := List.mem_map.1 hpath
      rfl
  shows level hlevel := by
    refine (h.shows level (hright _ hlevel)).extend hsplit ?_ e
    rw [hparent, Option.bind_some]
    exact habove.shows level (hrightAbove level hlevel)
  bare hquiet path hpath := by
    rcases List.mem_append.1 hpath with hpath | hpath
    · exact h.bare hquiet path hpath
    · obtain ⟨rest, hrest, rfl⟩ := List.mem_map.1 hpath
      refine List.forall_mem_cons.2 ⟨hbare hquiet, ?_⟩
      exact habove.bare hquiet rest (List.mem_of_mem_take hrest)

/-- With all of its parents, the paths show the levels of the entity. -/
theorem TellsVia.tells (h : TellsVia s answer kind quiet right e (parentNames s .concept e) paths)
    (hbare : quiet → e.inherited? kind = none) :
    Tells s answer kind quiet right e (if paths.isEmpty then [[e]] else paths) := by
  cases paths with
  | nil =>
      refine ⟨fun level hlevel => ?_, fun hquiet => by simpa [Bare] using hbare hquiet⟩
      cases level with
      | zero => exact .inl (by simp [hitAlong, hitAfter])
      | succ level =>
          refine (h.shows level hlevel).imp (fun hsame => ?_) fun hcapped => ?_
          · rw [hitAfter, ← hsame]
            simp [hitAlong]
          · exact ⟨by simp [hitAlong], Nat.le_succ_of_le hcapped.2⟩
  | cons path others =>
      refine ⟨fun level hlevel => ?_, h.bare⟩
      cases level with
      | zero => exact .inl (hitAlong_zero (by simp) h.starts)
      | succ level => exact h.shows level hlevel

end

/-- A climb shows the levels that it does not hide, and its path is no longer than its hops allow. -/
structure ClimbTells (s : ResolverSettings) (answer : String → Option Entity) (hierarchy : HierarchyKind)
    (kind : MetadataKind) (quiet : Prop) (hops : Nat) (seen : List String) (e : Entity)
    (path : List Entity) : Prop where
  length : path.length ≤ hops + 1
  shows : ∀ level, Unhidden s answer hierarchy kind hops seen e level →
    path[level]?.bind (Entity.inherited? kind) = hitAfter s answer hierarchy kind level e
  bare : quiet → ∀ a ∈ path, a.inherited? kind = none

section

variable {s : ResolverSettings} {answer : String → Option Entity} {hierarchy : HierarchyKind}
  {kind : MetadataKind} {quiet : Prop} {hops : Nat} {seen : List String} {e parent : Entity}
  {path : List Entity}

/-- A climb may end where nothing is above. -/
theorem climbTells_stay (hbare : quiet → e.inherited? kind = none)
    (hnone : ∀ level, Unhidden s answer hierarchy kind hops seen e (level + 1) →
      hitAfter s answer hierarchy kind (level + 1) e = none) :
    ClimbTells s answer hierarchy kind quiet hops seen e [e] where
  length := by simp
  shows level hlevel := by
    cases level with
    | zero => rfl
    | succ level => exact (hnone level hlevel).symm
  bare hquiet := by simpa using hbare hquiet

theorem ClimbTells.cons {seen' : List String} (h : ClimbTells s answer hierarchy kind quiet hops seen' parent path)
    (hkind : hierarchy ≠ .concept) (hparent : firstParent? s answer hierarchy e = some parent)
    (hclear : ∀ level, Unhidden s answer hierarchy kind (hops + 1) seen e (level + 1) →
      Unhidden s answer hierarchy kind hops seen' parent level)
    (hbare : quiet → e.inherited? kind = none) :
    ClimbTells s answer hierarchy kind quiet (hops + 1) seen e (e :: path) where
  length := Nat.succ_le_succ h.length
  shows level hlevel := by
    cases level with
    | zero => rfl
    | succ level =>
        rw [hitAfter, findSome?_parentNames hkind, hparent, Option.bind_some, List.getElem?_cons_succ]
        exact h.shows level (hclear level hlevel)
  bare hquiet := List.forall_mem_cons.2 ⟨hbare hquiet, h.bare hquiet⟩

end

section Resolver

variable {b : Backing σ} {s : ResolverSettings} {used : String → Prop}
  {gives : String → Option Entity → Prop} {knows : Session σ → Prop} {fails : Prop}
  {answer : String → Option Entity} {hierarchy : HierarchyKind} {kind : MetadataKind} {quiet : Prop}
  {raw : String} {e parent : Entity} {levels hops : Nat} {trail seen : List String}

/-- The paths above a parent show its levels, from memory as from the walk. -/
theorem ensures_pathsAbove_tells (h : Answering b s used gives knows fails) (hids : Identified answer)
    {walk : Entity → Lookups σ Walk} (hparent : answer raw = some parent)
    (hwalk : Ensures (Knowing knows (Telling s answer kind quiet)) (walk parent)
      (fun found y => Knowing knows (Telling s answer kind quiet) y ∧
        Tells s answer kind quiet (found.Right s answer kind levels trail parent) parent found.paths)
      (fun y => fails ∧ Knowing knows (Telling s answer kind quiet) y)) :
    Ensures (Knowing knows (Telling s answer kind quiet)) (pathsAbove walk parent)
      (fun above y => Knowing knows (Telling s answer kind quiet) y ∧
        Tells s answer kind quiet (above.Right s answer kind levels trail parent) parent above.paths)
      (fun y => fails ∧ Knowing knows (Telling s answer kind quiet) y) := by
  refine ensures_pathsAbove ?_ ?_
  · intro x chains hx hchains
    obtain ⟨paths, rfl, htells⟩ := hx.chains _ _ _ hparent hchains
    have hpaths : (paths.map fun path => (⟨.concept, path⟩ : Chain)).map (·.entities) = paths := by
      simp [Function.comp_def]
    rw [hpaths]
    exact ⟨hx, htells.mono fun _ _ => trivial⟩
  · refine hwalk.mono (fun _ => And.left) ?_ fun _ => id
    rintro found y ⟨hy, htells⟩
    split
    · next hcomplete =>
      have hall : Tells s answer kind quiet (fun _ => True) parent found.paths :=
        htells.mono fun _ _ => .inl hcomplete
      exact ⟨⟨h.learn hy.session, hy.chains.insert hids hparent hall⟩, htells⟩
    · exact ⟨hy, htells⟩

/-- **The walk of a concept shows the levels that it does not hide**, and what it remembers shows all. -/
theorem ensures_conceptWalk_tells (h : Answering b s used gives knows fails)
    (hgives : ∀ raw found, gives raw found → found = answer raw) (hids : Identified answer)
    (he : gives raw (some e))
    (hquiet : quiet → ∀ level ≤ levels, hitAfter s answer .concept kind level e = none) :
    Ensures (Knowing knows (Telling s answer kind quiet)) (conceptWalk b s levels trail e)
      (fun found y => Knowing knows (Telling s answer kind quiet) y ∧
        Tells s answer kind quiet (found.Right s answer kind levels trail e) e found.paths)
      (fun y => fails ∧ Knowing knows (Telling s answer kind quiet) y) := by
  have hbare : quiet → e.inherited? kind = none := fun hq => hquiet hq 0 (Nat.zero_le _)
  induction levels generalizing trail raw e with
  | zero =>
      refine ensures_pure fun x hx => ⟨hx, ?_, fun hq => by simpa [Bare] using hbare hq⟩
      rintro level (habsurd | hlevel)
      · exact absurd habsurd (by simp)
      · obtain rfl := Nat.le_zero.1 hlevel.reach
        exact .inl (hitAlong_zero (by simp) (by simp))
  | succ levels ih =>
      have hanswer := (hgives _ _ he).symm
      unfold conceptWalk
      refine ensures_bind (Ensures.mono (h.ensures_pathsThrough (fun before done m =>
          Telling s answer kind quiet m ∧ TellsVia s answer kind quiet
            (done.Right s answer kind (levels + 1) trail e) e before done.paths)
        (fun _ _ _ => And.left) he ?unknown ?cut ?above) ?begins (fun _ _ => id) fun _ => id)
        fun done => ensures_pure ?ends
      case begins => exact fun x hx => ⟨hx.session, hx.chains, tellsVia_nil⟩
      case ends =>
        rintro x ⟨hknows, htelling, hvia⟩
        have htells := hvia.tells hbare
        refine ⟨⟨hknows, htelling⟩, ?_⟩
        cases hempty : done.paths.isEmpty with
        | true => rwa [hempty] at htells
        | false => rwa [hempty] at htells
      case unknown =>
        rintro before name done m ⟨htelling, hvia⟩ hnone
        refine ⟨htelling, hvia.skip (fun _ => id) fun level _ => ?_⟩
        rw [← hgives _ _ hnone, Option.bind_none]
      case cut =>
        rintro before name done m parent ⟨htelling, hvia⟩ hname hparent hmem
        have hanswer' := (hgives _ _ hparent).symm
        have hclear : ∀ level, Walk.Right s answer kind (levels + 1) trail e
            { done with complete := false } level →
            Unhidden s answer .concept kind (levels + 1) trail e level :=
          fun level hlevel => hlevel.resolve_left (by simp)
        refine ⟨htelling, hvia.skip (fun level hlevel => .inr (hclear level hlevel)) ?_⟩
        intro level hlevel
        rw [hanswer', Option.bind_some]
        exact (hclear _ hlevel).hitAfter_eq_none hids hanswer hanswer' (by simpa using hmem)
      case above =>
        intro before name rest done parent hsplit hparent _
        have hanswer' := (hgives _ _ hparent).symm
        have hname : name ∈ parentNames s .concept e := by
          rw [hsplit]
          simp
        have hquiet' : quiet → ∀ level ≤ levels, hitAfter s answer .concept kind level parent = none :=
          fun hq level hle =>
            hitAfter_parent_eq_none (hquiet hq _ (Nat.succ_le_succ hle)) hname hanswer'
        refine ensures_of_each ?_
        rintro x ⟨hknows, htelling, hvia⟩
        refine (ensures_pathsAbove_tells h hids hanswer'
          (ih hparent hquiet' fun hq => hquiet' hq 0 (Nat.zero_le _))).mono ?_ ?_ fun _ => id
        · rintro _ rfl
          exact ⟨hknows, htelling⟩
        · rintro above y ⟨hy, habove⟩
          refine ⟨hy.session, hy.chains, hvia.extend hsplit hanswer' habove ?_ ?_ hbare⟩
          · exact fun level hlevel => hlevel.imp_left fun hcomplete =>
              ((Bool.and_eq_true _ _).mp hcomplete).1
          · refine fun level hlevel => hlevel.imp (fun hcomplete => ?_) fun hunhidden => ?_
            · exact ((Bool.and_eq_true _ _).mp hcomplete).2
            · exact hunhidden.of_parent hids hanswer hname hanswer' (by simp)

/-- **A climb shows the levels that it does not hide.** -/
theorem ensures_climb_tells (h : Answering b s used gives knows fails)
    (hgives : ∀ raw found, gives raw found → found = answer raw) (hids : Identified answer)
    (known : ChainMemo → Prop) (hkind : hierarchy ≠ .concept) (he : gives raw (some e))
    (hquiet : quiet → ∀ level ≤ hops, hitAfter s answer hierarchy kind level e = none) :
    Ensures (Knowing knows known) (climb b s hierarchy hops seen e)
      (fun path y => Knowing knows known y ∧ ClimbTells s answer hierarchy kind quiet hops seen e path)
      (fun y => fails ∧ Knowing knows known y) := by
  have hbare : quiet → e.inherited? kind = none := fun hq => hquiet hq 0 (Nat.zero_le _)
  have hanswer := (hgives _ _ he).symm
  induction hops generalizing seen e raw with
  | zero =>
      have hstay : ClimbTells s answer hierarchy kind quiet 0 seen e [e] :=
        climbTells_stay hbare fun level hlevel => absurd hlevel.reach (by simp)
      unfold climb
      cases (parentNames s hierarchy e).head? <;> exact ensures_pure fun x hx => ⟨hx, hstay⟩
  | succ hops ih =>
      unfold climb
      cases hhead : (parentNames s hierarchy e).head? with
      | none =>
          refine ensures_pure fun x hx => ⟨hx, climbTells_stay hbare fun level _ => ?_⟩
          rw [hitAfter, List.head?_eq_none_iff.1 hhead, List.findSome?_nil]
      | some name =>
          have hname := List.mem_of_mem_head? hhead
          have hused := h.used_of_mem_parentNames he hname
          refine ensures_bind (h.ensures_resolve? known hused) fun found =>
            ensures_of_fact fun hgiven => ?_
          have hanswer' := (hgives _ _ hgiven).symm
          have hfirst : firstParent? s answer hierarchy e = found := by
            rw [firstParent?, hhead, Option.bind_some, hanswer']
          cases found with
          | none =>
              refine ensures_pure fun x hx => ⟨hx, climbTells_stay hbare fun level _ => ?_⟩
              rw [hitAfter, findSome?_parentNames hkind, hfirst, Option.bind_none]
          | some parent =>
              by_cases hseen : parent.identifier ∈ e.identifier :: seen
              · simp only [List.contains_eq_mem, hseen, decide_true, if_true]
                refine ensures_pure fun x hx => ⟨hx, climbTells_stay hbare fun level hlevel => ?_⟩
                rw [hitAfter, findSome?_parentNames hkind, hfirst, Option.bind_some]
                exact hlevel.hitAfter_eq_none hids hanswer hanswer' (List.mem_cons.1 hseen).symm
              · simp only [List.contains_eq_mem, hseen, decide_false, Bool.false_eq_true, if_false]
                have hquiet' : quiet → ∀ level ≤ hops,
                    hitAfter s answer hierarchy kind level parent = none := fun hq level hle =>
                  hitAfter_parent_eq_none (hquiet hq _ (Nat.succ_le_succ hle)) hname hanswer'
                refine ensures_bind (ih hgiven hquiet' (fun hq => hquiet' hq 0 (Nat.zero_le _))
                  hanswer') fun path => ensures_pure fun x hx => ⟨hx.1, hx.2.cons hkind hfirst ?_ hbare⟩
                exact fun level hlevel => hlevel.of_parent hids hanswer hname hanswer' fun t ht =>
                  (List.mem_cons.1 ht).symm

end Resolver

end FacetSearch
