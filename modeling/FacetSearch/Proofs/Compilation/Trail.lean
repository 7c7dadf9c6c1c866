import FacetSearch.Proofs.Compilation.Answers

set_option autoImplicit false

/-! # Trails of paths

What a path means, apart from the fragment it compiles to. Under fixed answers a path leads through
entities, each required in the field that the entities before it name, until it ends or reaches a field
of literals, where the next name is a value. `Compiler.trail` follows a path, `Compiler.texts` lists the
clauses of a trail, level by level, and `Trail.range?` is the range that it ends in. `yields_path` says
that compiling a path follows its trail and keeps just these. -/

namespace FacetSearch

/-! ## Trails -/

/-- Where a path leads. -/
structure Trail where
  /-- The entities on the way, each with the field that it is required in. -/
  levels : List (FieldPath × Entity) := []
  /-- The field that the path reaches. -/
  field : FieldPath
  /-- The value that it gives for the field. -/
  value : Option String := none

namespace Compiler

/-- The mark that every field below an entity has, when the path has come through `raw`. -/
def markBelow (c : Compiler) (raw : String) (e : Entity) : Option String :=
  if (c.unmarked raw).2 || e.related then some c.settings.relatedMark else none

/-- Follow a path from `field` on, up to the first name that no entity answers to. -/
def trail (c : Compiler) (answer : String → Option Entity) :
    FieldPath → List String → Except String Trail
  | field, [] => .ok { field }
  | field, raw :: rest =>
    if field.kind.isLiteral then .ok { field, value := some raw }
    else
      match answer (c.unmarked raw).1 with
      | none => .error (c.unmarked raw).1
      | some e =>
        (c.trail answer (field.child e (c.markBelow raw e)) rest).map fun t =>
          { t with levels := (field, e) :: t.levels }

end Compiler

/-! ## Ranges of trails -/

/-- The axis of a field whose values are queried as ranges. -/
def DataKind.axis? : DataKind → Option RangeKind
  | numeric => some .numeric
  | date => some .date
  | _ => none

/-- A range that a path ends in. -/
structure RangeUse where
  field : String
  literal : RangeLiteral
  /-- The range is a value of the path; otherwise the path stops at its field. -/
  given : Bool

/-- The range that a trail ends in, if its field has one and the value can be read. -/
def Trail.range? (t : Trail) : Option RangeUse :=
  match t.field.kind.axis?, t.value with
  | none, _ => none
  | some kind, none => some ⟨t.field.name, .unbounded kind, false⟩
  | some kind, some raw =>
    (RangeLiteral.parse kind raw).toOption.map fun literal => ⟨t.field.name, literal, true⟩

theorem Trail.field_of_range? {t : Trail} {u : RangeUse} (h : t.range? = some u) :
    u.field = t.field.name := by
  unfold Trail.range? at h
  split at h
  · exact absurd h (by simp)
  · obtain rfl := Option.some.inj h
    rfl
  · obtain ⟨literal, -, rfl⟩ := Option.map_eq_some_iff.1 h
    rfl

namespace Compiler

/-- The range has an open end, and the table of statistics does not tell the bounds of its field. -/
def waits (c : Compiler) (u : RangeUse) : Bool :=
  !u.literal.isClosed && (c.stats.bounds u.field u.literal.kind).isNone

/-- The written ends of a range. An open end is the bound of the field, or stays open where the field
    has no values; a range that waits has no ends. -/
def ends? (c : Compiler) (u : RangeUse) : Option (String × String) :=
  match u.literal.low, u.literal.high with
  | some low, some high => some (Point.render u.literal.kind low, Point.render u.literal.kind high)
  | low, high =>
    (c.stats.bounds u.field u.literal.kind).map fun bounds =>
      if bounds.isEmpty then (openEnd u.literal.kind low, openEnd u.literal.kind high)
      else (Point.render u.literal.kind (low.getD bounds.min),
        Point.render u.literal.kind (high.getD bounds.max))

/-- The clause of a range, unless it waits. -/
def rangeText (c : Compiler) (u : RangeUse) : Option String :=
  (c.ends? u).map fun (low, high) => u.field ++ ":[" ++ low ++ " TO " ++ high ++ "]"

/-! ## Texts of trails -/

/-- The clause that requires an entity in a field. -/
def levelText (level : FieldPath × Entity) : String :=
  level.1.name ++ ":" ++ Term.escape level.2.slug

/-- The clauses of the value that a trail ends in: one for each word of a text, one for a range. -/
def valueTexts (c : Compiler) (t : Trail) : List String :=
  match t.field.kind, t.range? with
  | .string, _ =>
    ((t.value.map Term.tokenize).getD []).map fun term => t.field.name ++ ":" ++ term
  | _, some u => if u.given then (c.rangeText u).toList else []
  | _, none => []

/-- The clauses of a trail, from the first level on. -/
def texts (c : Compiler) (t : Trail) : List String := t.levels.map levelText ++ c.valueTexts t

/-! ## Range ends -/

/-- How far a range comes: it has both ends, or the table tells its bounds, or it waits. -/
theorem rangeState_cases (c : Compiler) (field : String) (literal : RangeLiteral) :
    (∃ low high, literal.low = some low ∧ literal.high = some high ∧
      c.rangeState field literal = .bound ⟨low, high, none⟩) ∨
    (literal.isClosed = false ∧ ∃ bounds, c.stats.bounds field literal.kind = some bounds ∧
      c.rangeState field literal = .bound bounds) ∨
    (literal.isClosed = false ∧ c.stats.bounds field literal.kind = none ∧
      c.rangeState field literal = .awaitingStats) := by
  obtain ⟨kind, low, high⟩ := literal
  cases hb : c.stats.bounds field kind <;> cases low <;> cases high <;>
    simp [rangeState, RangeState.advance, RangeLiteral.isClosed, hb]

theorem ends?_eq_none_iff (c : Compiler) (u : RangeUse) : c.ends? u = none ↔ c.waits u = true := by
  obtain ⟨field, ⟨kind, low, high⟩, given⟩ := u
  cases hb : c.stats.bounds field kind <;> cases low <;> cases high <;>
    simp [ends?, waits, RangeLiteral.isClosed, hb]

theorem rangeText_eq_none_iff (c : Compiler) (u : RangeUse) :
    c.rangeText u = none ↔ c.waits u = true := by
  simp [rangeText, ends?_eq_none_iff]

theorem isAwaiting_rangeState (c : Compiler) (u : RangeUse) :
    (c.rangeState u.field u.literal).isAwaiting = c.waits u := by
  rcases c.rangeState_cases u.field u.literal with
    ⟨low, high, hlow, hhigh, hs⟩ | ⟨hc, bounds, hb, hs⟩ | ⟨hc, hb, hs⟩
  · simp [hs, RangeState.isAwaiting, waits, RangeLiteral.isClosed, hlow, hhigh]
  · simp [hs, RangeState.isAwaiting, waits, hb]
  · simp [hs, RangeState.isAwaiting, waits, hb, hc]

/-- A range waits for nothing once the index has answered. -/
theorem waits_eq_false_of_answered {c : Compiler} (h : c.stats.answered = true) (u : RangeUse) :
    c.waits u = false := by
  have hbounds : (c.stats.bounds u.field u.literal.kind).isNone = false := by
    unfold StatsTable.bounds
    split
    · rfl
    · rw [if_pos h]
      rfl
  rw [waits, hbounds, Bool.and_false]

/-- A value in a field of numbers or dates has its clause, unless its range waits. -/
theorem valueTexts_of_not_waits {c : Compiler} {t : Trail} {raw : String}
    (hvalue : t.value = some raw) (haxis : t.field.kind.axis?.isSome) (hread : t.range?.isSome)
    (hw : ∀ u, t.range? = some u → c.waits u = false) :
    ∃ u text, t.range? = some u ∧ c.rangeText u = some text ∧ c.valueTexts t = [text] := by
  obtain ⟨u, hu⟩ := Option.isSome_iff_exists.1 hread
  have hgiven : u.given = true := by
    unfold Trail.range? at hu
    split at hu
    · exact absurd hu (by simp)
    · next hnone => exact absurd (hvalue.symm.trans hnone) (by simp)
    · obtain ⟨literal, -, rfl⟩ := Option.map_eq_some_iff.1 hu
      rfl
  have hstring : t.field.kind ≠ .string := by
    intro hk
    rw [hk] at haxis
    exact absurd haxis (by simp [DataKind.axis?])
  cases htext : c.rangeText u with
  | none => exact absurd ((hw u hu).symm.trans ((c.rangeText_eq_none_iff u).1 htext)) (by simp)
  | some text =>
      refine ⟨u, text, hu, htext, ?_⟩
      unfold valueTexts
      split
      · next hk => exact absurd hk hstring
      · next hu' _ =>
        obtain rfl := Option.some.inj (hu.symm.trans hu')
        rw [if_pos hgiven, htext]
        rfl
      · next hnone _ => exact absurd (hu.symm.trans hnone) (by simp)

/-- Add the clauses that some texts are to those of a fragment. -/
def addTexts (clauses : List Clause) (texts : List String) : List Clause :=
  texts.foldl (fun clauses text => Clause.add clauses (.single text)) clauses

variable (c : Compiler) (source : PathSource) (field : FieldPath) (path : List String) (f : Fragment)

theorem range_rangeEnd (literal : RangeLiteral) (given : Bool) :
    (c.rangeEnd source field path f literal given).range
      = some (field.name, c.rangeState field.name literal) := by
  cases hs : c.rangeState field.name literal with
  | unbounded => simp only [rangeEnd, hs, RangeState.bounds?]
  | awaitingStats => simp only [rangeEnd, hs, RangeState.bounds?]
  | bound bounds =>
      simp only [rangeEnd, hs, RangeState.bounds?]
      split
      · rfl
      · split <;> rfl

/-- A range that waits adds its field to those whose bounds are awaited, and no clause. -/
theorem fragment_rangeEnd_of_waits {literal : RangeLiteral} {given : Bool}
    (h : c.waits ⟨field.name, literal, given⟩ = true) :
    (c.rangeEnd source field path f literal given).fragment
      = { f with awaited := f.awaited.insert field.name } := by
  rcases c.rangeState_cases field.name literal with
    ⟨low, high, hlow, hhigh, -⟩ | ⟨-, bounds, hb, -⟩ | ⟨-, -, hs⟩
  · simp [waits, RangeLiteral.isClosed, hlow, hhigh] at h
  · simp [waits, hb] at h
  · simp only [rangeEnd, hs, RangeState.bounds?]

/-- A range that does not wait and is a value requires its clause. -/
theorem fragment_rangeEnd_of_not_waits {literal : RangeLiteral} {given : Bool}
    (h : c.waits ⟨field.name, literal, given⟩ = false) :
    (c.rangeEnd source field path f literal given).fragment.awaited = f.awaited ∧
    (c.rangeEnd source field path f literal given).fragment.clauses
      = if given then addTexts f.clauses (c.rangeText ⟨field.name, literal, given⟩).toList
        else f.clauses := by
  rcases c.rangeState_cases field.name literal with
    ⟨low, high, hlow, hhigh, hs⟩ | ⟨hc, bounds, hb, hs⟩ | ⟨hc, hb, hs⟩
  · -- both ends are given, so the table is not asked
    have hne : RangeBounds.isEmpty ⟨low, high, none⟩ = false := rfl
    simp only [rangeEnd, hs, RangeState.bounds?, hne, RangeLiteral.within, hlow, hhigh,
      Option.getD_some, Bool.false_eq_true, if_false, rangeText, ends?, Option.map_some]
    split <;> cases given <;> simp [addTexts, Fragment.require, rangeClause]
  · -- the table tells the bounds, which stand for the open ends unless the field has no values
    have hopen : (c.ends? ⟨field.name, literal, given⟩) = some
        (if bounds.isEmpty then (openEnd literal.kind literal.low, openEnd literal.kind literal.high)
          else (Point.render literal.kind (literal.low.getD bounds.min),
            Point.render literal.kind (literal.high.getD bounds.max))) := by
      obtain ⟨kind, low, high⟩ := literal
      cases low <;> cases high <;> simp_all [ends?, RangeLiteral.isClosed]
    simp only [rangeEnd, hs, RangeState.bounds?, rangeText, hopen, RangeLiteral.within]
    split
    · cases given <;> simp [addTexts, Fragment.require, rangeClause]
    · split <;> cases given <;> simp [addTexts, Fragment.require, rangeClause]
  · simp [waits, hb, hc] at h

/-! ## Ends of paths -/

/-- What an alternative keeps of the trail that it comes from, when the fragment before its end was
    `f`. -/
structure Keeps (c : Compiler) (t : Trail) (f : Fragment) (a : Alternative) : Prop where
  clauses : a.fragment.clauses = addTexts f.clauses (c.valueTexts t)
  /-- A value in a field of numbers or dates can be read. -/
  readable : t.field.kind.axis?.isSome → t.range?.isSome
  range : a.range = t.range?.map fun u => (u.field, c.rangeState u.field u.literal)
  mem_awaited : ∀ name, name ∈ a.fragment.awaited ↔
    name ∈ f.awaited ∨ ∃ u, t.range? = some u ∧ u.field = name ∧ c.waits u = true

/-- Words add their clauses and highlights, and leave all else as it is. -/
theorem withWords_eq (name : String) (terms : List String) :
    withWords name f terms = { f with
      clauses := addTexts f.clauses (terms.map fun term => name ++ ":" ++ term)
      highlights := terms.foldl Fragment.addNew f.highlights } := by
  induction terms generalizing f with
  | nil => rfl
  | cons term rest ih => exact ih _

variable {c source field path f}

theorem keeps_rangeEnd {t : Trail} {literal : RangeLiteral} {given : Bool}
    (hr : t.range? = some ⟨t.field.name, literal, given⟩) :
    c.Keeps t f (c.rangeEnd source t.field path f literal given) := by
  have hkind : t.field.kind ≠ .string := by
    intro hk
    simp [Trail.range?, hk, DataKind.axis?] at hr
  have htexts : c.valueTexts t
      = if given then (c.rangeText ⟨t.field.name, literal, given⟩).toList else [] := by
    cases hk : t.field.kind <;> simp_all [valueTexts]
  have hrange : (c.rangeEnd source t.field path f literal given).range
      = t.range?.map fun u => (u.field, c.rangeState u.field u.literal) := by
    rw [range_rangeEnd, hr]
    rfl
  cases hw : c.waits ⟨t.field.name, literal, given⟩ with
  | true =>
      -- a range that waits leaves the name of its field behind and no clause
      have hnone := (c.rangeText_eq_none_iff ⟨t.field.name, literal, given⟩).2 hw
      have hfragment := c.fragment_rangeEnd_of_waits source t.field path f hw
      exact ⟨by simp [hfragment, htexts, hnone, addTexts], by simp [hr], hrange,
        by simp [hfragment, hr, hw, or_comm]⟩
  | false =>
      obtain ⟨hawaited, hclauses⟩ := c.fragment_rangeEnd_of_not_waits source t.field path f hw
      refine ⟨?_, by simp [hr], hrange, by simp [hr, hw, hawaited]⟩
      rw [hclauses, htexts]
      cases given <;> rfl

/-- The literal that a path gives for a ranged field: its value, or the whole axis. -/
def literalOf (kind : RangeKind) : Option String → Except RequestError RangeLiteral
  | some text => RangeLiteral.parse kind text
  | none => .ok (.unbounded kind)

theorem literalEnd_of_axis {kind : RangeKind} (hk : field.kind.axis? = some kind)
    (raw : Option String) :
    c.literalEnd source field path f raw
      = (literalOf kind raw).map fun literal =>
          c.rangeEnd source field path f literal raw.isSome := by
  cases hf : field.kind <;> simp only [hf, DataKind.axis?, reduceCtorEq, Option.some.injEq] at hk
  all_goals
    subst hk
    simp only [literalEnd, hf]
    cases raw with
    | none => rfl
    | some text => simp only [literalOf, bind, Except.bind, Except.map, pure, Except.pure]

/-- The end of a trail at a field of literals adds the clauses of its value and its range. -/
theorem keeps_literalEnd {t : Trail} {a : Alternative}
    (h : c.literalEnd source t.field path f t.value = .ok a) : c.Keeps t f a := by
  cases hk : t.field.kind.axis? with
  | some kind =>
      rw [literalEnd_of_axis hk] at h
      obtain ⟨literal, hl, rfl⟩ := Except.map_eq_ok h
      refine keeps_rangeEnd ?_
      cases hv : t.value with
      | none =>
          obtain rfl : .unbounded kind = literal := by simpa [hv, literalOf] using hl
          simp [Trail.range?, hk, hv]
      | some raw =>
          have hl : RangeLiteral.parse kind raw = .ok literal := by simpa [hv, literalOf] using hl
          simp [Trail.range?, hk, hv, hl, Except.toOption]
  | none =>
      have hr : t.range? = none := by simp [Trail.range?, hk]
      cases hf : t.field.kind with
      | numeric => simp [hf, DataKind.axis?] at hk
      | date => simp [hf, DataKind.axis?] at hk
      | id =>
          simp only [literalEnd, hf, Except.ok.injEq] at h
          subst h
          exact ⟨by simp [valueTexts, hf, hr, addTexts], by simp [hk], by simp [hr], by simp [hr]⟩
      | string =>
          simp only [literalEnd, hf, Except.ok.injEq] at h
          subst h
          exact ⟨by simp [valueTexts, hf, withWords_eq], by simp [hk], by simp [hr],
            by simp [hr, withWords_eq]⟩

/-- The end of a trail behind what comes before its end. -/
def arrival (c : Compiler) (source : PathSource) (t : Trail) (path : List String) (f : Fragment) :
    Except RequestError Alternative :=
  match t.value with
  | some raw => c.literalEnd source t.field path f (some raw)
  | none => c.pathEnd source t.field path f

theorem keeps_arrival {t : Trail} {a : Alternative} (h : c.arrival source t path f = .ok a) :
    c.Keeps t f a := by
  cases hv : t.value with
  | some raw =>
      simp only [arrival, hv] at h
      exact keeps_literalEnd (hv ▸ h)
  | none =>
      simp only [arrival, hv, pathEnd] at h
      split at h
      · exact keeps_literalEnd (hv ▸ h)
      · next hl =>
        have hf : t.field.kind = .id := by
          cases hf : t.field.kind <;> simp_all [DataKind.isLiteral]
        have hr : t.range? = none := by simp [Trail.range?, hf, DataKind.axis?]
        simp only [Except.ok.injEq] at h
        subst h
        exact ⟨by simp [valueTexts, hf, hr, addTexts], by simp [hf, DataKind.axis?], by simp [hr],
          by simp [hr]⟩

theorem facet_rangeEnd {literal : RangeLiteral} {given : Bool} {m : FacetMeta}
    (h : (c.rangeEnd source field path f literal given).facet = some m) :
    ∃ kind, m = source.facet field kind path := by
  cases hs : (c.rangeState field.name literal).bounds? with
  | none =>
      simp only [rangeEnd, hs] at h
      exact absurd h (by simp)
  | some bounds =>
      simp only [rangeEnd, hs] at h
      by_cases hempty : bounds.isEmpty = true
      · rw [if_pos hempty] at h
        exact absurd h (by simp)
      · rw [if_neg hempty] at h
        split at h
        · exact ⟨_, (Option.some.inj h).symm⟩
        · exact absurd h (by simp)

theorem facet_literalEnd {raw : Option String} {a : Alternative} {m : FacetMeta}
    (h : c.literalEnd source field path f raw = .ok a) (hm : a.facet = some m) :
    ∃ kind, m = source.facet field kind path := by
  cases hk : field.kind.axis? with
  | some kind =>
      rw [literalEnd_of_axis hk] at h
      obtain ⟨literal, -, rfl⟩ := Except.map_eq_ok h
      exact facet_rangeEnd hm
  | none =>
      unfold literalEnd at h
      cases hf : field.kind <;> simp only [hf, DataKind.axis?, reduceCtorEq] at hk h
      all_goals
        obtain rfl := Except.ok.inj h
        exact absurd hm (by simp)

/-- A path gets its facet at its end, be it a value, an open range or an entity. -/
theorem facet_arrival {t : Trail} {a : Alternative} {m : FacetMeta}
    (h : c.arrival source t path f = .ok a) (hm : a.facet = some m) :
    ∃ path kind, m = source.facet t.field kind path := by
  unfold arrival at h
  split at h
  · exact ⟨_, facet_literalEnd h hm⟩
  · unfold pathEnd at h
    split at h
    · exact ⟨_, facet_literalEnd h hm⟩
    · obtain rfl := Except.ok.inj h
      exact ⟨_, _, (Option.some.inj hm).symm⟩

/-! ## Paths -/

/-- Require every entity on a trail. -/
def requireLevels (f : Fragment) (t : Trail) : Fragment :=
  t.levels.foldl (fun f level => f.require (entityClause level.1 level.2)) f

/-- Entities add their clauses, and leave all else as it is. -/
theorem requireLevels_eq (f : Fragment) (t : Trail) :
    requireLevels f t = { f with clauses := addTexts f.clauses (t.levels.map levelText) } := by
  obtain ⟨levels, field, value⟩ := t
  simp only [requireLevels, addTexts, List.foldl_map]
  induction levels generalizing f with
  | nil => rfl
  | cons level rest ih => exact ih _

/-- What a path comes to, told by its trail. -/
def Reaches (c : Compiler) (source : PathSource) (path : List String) (f : Fragment)
    (names : List String) (outcome : PathOutcome) : Except String Trail → Prop
  | .error name => outcome = .unresolved name
  | .ok t => ∃ a, outcome = .compiled a ∧
      c.arrival source t (path ++ names.take t.levels.length) (requireLevels f t) = .ok a

/-- **A path that is not refused follows its trail.** -/
theorem reaches_pathFrom {answer : String → Option Entity} {names : List String}
    {outcome : PathOutcome}
    (h : Compiling.under answer (c.pathFrom source field path f names) = .ok outcome) :
    c.Reaches source path f names outcome (c.trail answer field names) := by
  induction names generalizing field path f with
  | nil =>
      simp only [pathFrom, Compiling.under_known] at h
      obtain ⟨a, ha, rfl⟩ := Except.map_eq_ok h
      exact ⟨a, rfl, by simpa [arrival, requireLevels] using ha⟩
  | cons raw rest ih =>
      unfold pathFrom at h
      rw [trail]
      by_cases hl : field.kind.isLiteral = true
      · rw [if_pos hl] at h ⊢
        cases rest with
        | nil =>
            simp only [Compiling.under_known] at h
            obtain ⟨a, ha, rfl⟩ := Except.map_eq_ok h
            exact ⟨a, rfl, by simpa [arrival, requireLevels] using ha⟩
        | cons next rest => exact absurd h (by simp)
      · rw [if_neg hl] at h ⊢
        simp only [Compiling.under_bind, Compiling.under_entity?] at h
        cases he : answer (c.unmarked raw).1 with
        | none =>
            obtain rfl : .unresolved (c.unmarked raw).1 = outcome := by
              simpa [he, bind, Except.bind] using h
            rfl
        | some e =>
            -- the rest of the path goes on in the field that the entity opens
            have h : Compiling.under answer (c.pathFrom source (field.child e (c.markBelow raw e))
                (path ++ [raw]) (f.require (entityClause field e)) rest) = .ok outcome := by
              simpa [he, bind, Except.bind, markBelow] using h
            have hrest := ih h
            cases ht : c.trail answer (field.child e (c.markBelow raw e)) rest with
            | error name => simpa [ht, Except.map, Reaches] using hrest
            | ok t =>
                simp only [ht, Reaches] at hrest
                obtain ⟨a, ho, ha⟩ := hrest
                simp only [ht, Except.map]
                exact ⟨a, ho, by simpa [arrival, requireLevels] using ha⟩

/-- A path that comes to something has arrived at the end of its trail. -/
theorem arrival_of_path {answer : String → Option Entity} {names : List String} {a : Alternative}
    (h : Compiling.under answer (c.path source names) = .ok (.compiled a)) :
    ∃ t, c.trail answer (.root source.family) names = .ok t ∧
      c.arrival source t (names.take t.levels.length) (requireLevels .empty t) = .ok a := by
  have hreach := reaches_pathFrom h
  cases ht : c.trail answer (.root source.family) names with
  | error name =>
      rw [ht] at hreach
      exact absurd hreach (by simp [Reaches])
  | ok t =>
      simp only [ht, Reaches] at hreach
      obtain ⟨a', he, harrival⟩ := hreach
      obtain rfl := PathOutcome.compiled.inj he
      exact ⟨t, rfl, harrival⟩

/-- What an alternative asks for when its path has led along a trail. -/
structure Follows (c : Compiler) (t : Trail) (a : Alternative) : Prop where
  clauses : a.fragment.clauses = addTexts [] (c.texts t)
  readable : t.field.kind.axis?.isSome → t.range?.isSome
  range : a.range = t.range?.map fun u => (u.field, c.rangeState u.field u.literal)
  mem_awaited : ∀ name, name ∈ a.fragment.awaited ↔
    ∃ u, t.range? = some u ∧ u.field = name ∧ c.waits u = true

/-- What a path comes to: nothing behind a name that no entity answers to, else what its trail asks
    for. -/
def Yields (c : Compiler) (outcome : PathOutcome) : Except String Trail → Prop
  | .error name => outcome = .unresolved name
  | .ok t => ∃ a, outcome = .compiled a ∧ c.Follows t a

/-- **Compiling a path yields what its trail asks for.** -/
theorem yields_path {answer : String → Option Entity} {names : List String} {outcome : PathOutcome}
    (h : Compiling.under answer (c.path source names) = .ok outcome) :
    c.Yields outcome (c.trail answer (.root source.family) names) := by
  have hreach := reaches_pathFrom h
  cases ht : c.trail answer (.root source.family) names with
  | error name =>
      rw [ht] at hreach
      exact hreach
  | ok t =>
      simp only [ht, Reaches] at hreach
      obtain ⟨a, ho, ha⟩ := hreach
      have hk := keeps_arrival ha
      refine ⟨a, ho, ⟨?_, hk.readable, hk.range, fun name => ?_⟩⟩
      · rw [hk.clauses, requireLevels_eq, texts, addTexts, addTexts, addTexts, ← List.foldl_append]
        rfl
      · have hempty : name ∉ (requireLevels .empty t).awaited := by
          rw [requireLevels_eq]
          exact Std.ExtTreeSet.not_mem_empty
        rw [hk.mem_awaited, or_iff_right hempty]

end Compiler

end FacetSearch
