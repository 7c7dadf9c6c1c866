import FacetSearch.Request.FormEncoding
import FacetSearch.Text.Pieces

set_option autoImplicit false

/-! # Parameters of a request

A map from names to lists of values that keeps the order in which names first came and values were
added. Links are made of edits to it: each changes the values of one name and leaves all others and
their order as they are. A name whose last value goes away goes with it. -/

namespace FacetSearch

/-- Names in order, each with its values in order. -/
structure Params where
  entries : List (String × List String) := []
deriving DecidableEq, Repr

namespace Params

/-! ## Reading -/

def values (p : Params) (name : String) : List String := (p.entries.lookup name).getD []

def first? (p : Params) (name : String) : Option String := (p.values name).head?

def contains (p : Params) (name : String) : Bool := !(p.values name).isEmpty

def isEmpty (p : Params) : Bool := p.entries.all (·.2.isEmpty)

/-! ## Edits -/

/-- Change the values of one name, which is put at the end if it is new. -/
def editEntries (name : String) (f : List String → List String) :
    List (String × List String) → List (String × List String)
  | [] => [(name, f [])]
  | (other, held) :: rest =>
    if other = name then (name, f held) :: rest else (other, held) :: editEntries name f rest

def edit (p : Params) (name : String) (f : List String → List String) : Params :=
  ⟨editEntries name f p.entries⟩

/-- Remove a name with all its values. -/
def without (p : Params) (name : String) : Params := ⟨p.entries.filter (·.1 ≠ name)⟩

def push (p : Params) (name value : String) : Params := p.edit name (· ++ [value])

/-- Add a value unless it is there. -/
def withValue (p : Params) (name value : String) : Params :=
  if (p.values name).contains value then p else p.push name value

/-- Remove a value wherever it stands. -/
def withoutValue (p : Params) (name value : String) : Params :=
  let kept := (p.values name).filter (· ≠ value)
  if kept.isEmpty then p.without name else p.edit name fun _ => kept

/-- Put `new` in the place of the first `old`, or at the end when there is none. -/
def swapFirst (old new : String) : List String → List String
  | [] => [new]
  | value :: rest => if value = old then new :: rest else value :: swapFirst old new rest

/-- The values without those that repeat their predecessor. -/
def dropRepeats : List String → List String
  | [] => []
  | [value] => [value]
  | value :: next :: rest =>
    if value = next then dropRepeats (next :: rest) else value :: dropRepeats (next :: rest)

/-- Put `new` in the place of the first `old`, or at the end, and keep one of equal neighbours. -/
def replaceValue (p : Params) (name old new : String) : Params :=
  p.edit name fun held => dropRepeats (swapFirst old new held)

/-- Give a name one value in the place of all it had. -/
def withSingle (p : Params) (name value : String) : Params := p.edit name fun _ => [value]

/-! ## Query texts -/

def ofPairs (pairs : List (String × String)) : Params :=
  pairs.foldl (fun p (name, value) => p.push name value) {}

/-- Every value with its name, the values of a name together. -/
def toPairs (p : Params) : List (String × String) :=
  p.entries.flatMap fun (name, held) => held.map fun value => (name, value)

/-- The parameters that a query text writes; white space around it and question marks in front do
    not count. -/
def parse (query : String) : Params :=
  ofPairs (FormEncoding.decode ((Text.trimChars query.toList).dropWhile (· = '?')))

def toQueryString (p : Params) : String := FormEncoding.encode p.toPairs

end Params

end FacetSearch
