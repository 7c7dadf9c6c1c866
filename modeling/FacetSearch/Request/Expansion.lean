import FacetSearch.Number.Decimal
import FacetSearch.Request.Error
import FacetSearch.Text.Pieces

set_option autoImplicit false

/-! # Expansion of values into paths

A value such as `a||b/c` stands for several paths: cut at the separator of levels and each level at the
separator of alternatives, it yields every choice of one alternative from each level, here `a/c` and
`b/c`. Choices come in the order of the alternatives, the last level changing fastest. Blank values
yield nothing, blank levels and alternatives are errors, and a limit on the number of paths is checked
before any path is formed. -/

namespace FacetSearch

/-- How values are cut and how many paths they may yield. -/
structure Expansion where
  /-- The name that errors give. -/
  parameter : String := ""
  /-- What separates levels; a flat parameter has none and its values one level. -/
  levels : Option String
  /-- What separates the alternatives of one level. -/
  alternatives : String
  /-- The most paths. -/
  limit : Nat := 64
deriving DecidableEq, Repr

namespace Expansion

/-! ## Levels and alternatives -/

/-- A value without white space and then separators around it. -/
def bare (x : Expansion) (raw : String) : String :=
  match x.levels with
  | some separator => Text.stripMarks separator (Text.trim raw)
  | none => Text.trim raw

/-- The levels of a bare value. -/
def cutLevels (x : Expansion) (value : String) : List String :=
  match x.levels with
  | some separator => Text.splitAt separator value
  | none => [value]

/-- The alternatives of a level. -/
def alternativesOf (x : Expansion) (level : String) : Except RequestError (List String) :=
  let found := (Text.splitAt x.alternatives level).map Text.trim
  if found.any (·.isEmpty) then .error (.malformed x.parameter (.emptyAlternative level))
  else .ok found

/-- The alternatives of one level of a value. -/
def level (x : Expansion) (value text : String) : Except RequestError (List String) :=
  if Text.isBlankText text then .error (.malformed x.parameter (.emptySegment value))
  else x.alternativesOf text

/-- The alternatives on each level of a value; a blank value has no levels. -/
def levelsOf (x : Expansion) (raw : String) : Except RequestError (Option (List (List String))) :=
  let value := x.bare raw
  if value.isEmpty then .ok none
  else ((x.cutLevels value).mapM (x.level value)).map some

/-! ## Choices -/

/-- The number of choices, held at the greatest 64-bit number. -/
def countChoices (levels : List (List String)) : Nat :=
  min ((levels.map List.length).foldl (· * ·) 1) Decimal.greatestWord

/-- Every choice of one alternative from each level, the last level changing fastest. -/
def choices : List (List String) → List (List String)
  | [] => [[]]
  | alternatives :: rest => alternatives.flatMap fun a => (choices rest).map (a :: ·)

/-- The levels of all values that are not blank, with `total` paths counted so far. -/
def collect (x : Expansion) : Nat → List String → Except RequestError (List (List (List String)))
  | _, [] => .ok []
  | total, raw :: rest => do
    match ← x.levelsOf raw with
    | none => x.collect total rest
    | some levels =>
      let total := min (total + countChoices levels) Decimal.greatestWord
      if x.limit < total then throw (.tooManyAlternatives total x.limit)
      return levels :: (← x.collect total rest)

/-- The paths of some values, value by value. -/
def expand (x : Expansion) (raws : List String) : Except RequestError (List (List String)) :=
  (x.collect 0 raws).map fun values => values.flatMap choices

end Expansion

end FacetSearch
