set_option autoImplicit false

/-! # Request errors

Why a request is refused as a whole. Values that merely name nothing are not errors: they are dropped
and reported. -/

namespace FacetSearch

/-- What is wrong with the form of a filter value. -/
inductive Malformation where
  | emptySegment (value : String)
  | emptyAlternative (segment : String)
  /-- A path goes on behind the value of a literal field. -/
  | followsLiteral (next literal : String)
deriving DecidableEq, Repr

/-- What is wrong with a sort value. -/
inductive BadSort where
  | unknownOrder (term : String)
  | unknownKey (name : String)
  | repeated (name : String)
deriving DecidableEq, Repr

inductive RequestError where
  | malformed (parameter : String) (why : Malformation)
  | tooManyAlternatives (count limit : Nat)
  | invalidNumber (text : String)
  | invalidDate (text : String)
  | invalidSort (why : BadSort)
  | invalidPaging (parameter value : String)
deriving DecidableEq, Repr

def Malformation.message : Malformation → String
  | .emptySegment value => s!"empty path segment in '{value}'"
  | .emptyAlternative segment => s!"empty alternative in '{segment}'"
  | .followsLiteral next literal => s!"'{next}' follows the literal '{literal}'"

def BadSort.message : BadSort → String
  | .unknownOrder term => s!"unknown order in '{term}'"
  | .unknownKey name => s!"unknown sort key '{name}'"
  | .repeated name => s!"'{name}' appears more than once"

def RequestError.message : RequestError → String
  | .malformed parameter why => s!"Malformed value for '{parameter}': {why.message}"
  | .tooManyAlternatives count limit =>
    s!"Too many alternatives: {count} paths exceed the limit of {limit}"
  | .invalidNumber text => s!"Invalid number: {text}"
  | .invalidDate text => s!"Invalid date: {text}"
  | .invalidSort why => s!"Invalid sort: {why.message}"
  | .invalidPaging parameter value => s!"Invalid paging: {parameter}={value}"

end FacetSearch
