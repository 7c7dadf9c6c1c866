import FacetSearch.Number.Decimal

set_option autoImplicit false

/-! # Arguments

Command-line words as options, flags and positional arguments. An option has its value behind `=` or as
the next word; its letter may have the value attached. A word that begins with a dash is no value,
unless it is a dash alone or, where that is allowed, a negative number. After `--` all words are
positional. No option or flag may stand twice. -/

namespace FacetSearch

/-- An option that takes a value. -/
structure OptionSpec where
  name : String
  letter : Option Char := none

/-- The arguments that a command takes. -/
structure ArgumentSpec where
  options : List OptionSpec := []
  flags : List String := []
  negatives : Bool := false

structure Arguments where
  options : List (String × String) := []
  flags : List String := []
  positional : List String := []
deriving DecidableEq, Repr

namespace Arguments

/-- The value of an option. -/
def option? (a : Arguments) (name : String) : Option String := a.options.lookup name

/-- Add an option that is not there yet. -/
def addOption (a : Arguments) (name value : String) : Option Arguments :=
  if (a.option? name).isSome then none else some { a with options := a.options ++ [(name, value)] }

/-- Add a flag that is not there yet. -/
def addFlag (a : Arguments) (name : String) : Option Arguments :=
  if a.flags.contains name then none else some { a with flags := a.flags ++ [name] }

def addPositional (a : Arguments) (word : String) : Arguments :=
  { a with positional := a.positional ++ [word] }

end Arguments

namespace ArgumentSpec

/-! ## Words -/

/-- The digits of a number, with at most one point and then one exponent, neither in front. -/
def isNumberFrom : Bool → Bool → List Char → Bool
  | _, _, [] => true
  | point, power, c :: rest =>
    if Decimal.isDigit c then isNumberFrom point power rest
    else if c = '.' then !point && !power && isNumberFrom true power rest
    else if c = 'e' then !power && !rest.isEmpty && isNumberFrom point true rest
    else false

/-- The text looks like a number without its sign. -/
def isNumber : List Char → Bool
  | [] => true
  | c :: rest => Decimal.isDigit c && isNumberFrom false false rest

/-- The word is a negative number, and such words are allowed. -/
def isNegative (s : ArgumentSpec) : List Char → Bool
  | '-' :: rest => s.negatives && isNumber rest
  | _ => false

/-- The word may stand as a value behind its option. -/
def isValue (s : ArgumentSpec) (word : List Char) : Bool :=
  match word with
  | ['-'] => true
  | '-' :: _ => s.isNegative word
  | _ => true

def byName? (s : ArgumentSpec) (name : String) : Option OptionSpec :=
  s.options.find? (·.name = name)

def byLetter? (s : ArgumentSpec) (letter : Char) : Option OptionSpec :=
  s.options.find? (·.letter = some letter)

/-! ## Reading -/

/-- What one word means. -/
inductive Meaning where
  /-- All words that follow are positional. -/
  | rest
  | positional (word : String)
  | flag (name : String)
  | option (name value : String)
  /-- An option whose value is the next word. -/
  | pending (name : String)

/-- The meaning of a long option or a flag. -/
def long? (s : ArgumentSpec) (body : String) : Option Meaning :=
  match Text.splitFirst "=" body with
  | some (name, value) => (s.byName? name).map fun o => .option o.name value
  | none =>
    match s.byName? body with
    | some o => some (.pending o.name)
    | none => if s.flags.contains body then some (.flag body) else none

/-- The meaning of an option by its letter. -/
def short? (s : ArgumentSpec) (letter : Char) (attached : List Char) : Option Meaning :=
  (s.byLetter? letter).map fun o =>
    match attached with
    | [] => .pending o.name
    | '=' :: value => .option o.name (String.ofList value)
    | value => .option o.name (String.ofList value)

def meaning? (s : ArgumentSpec) (word : String) : Option Meaning :=
  match word.toList with
  | ['-', '-'] => some .rest
  | '-' :: '-' :: body => s.long? (String.ofList body)
  | '-' :: letter :: attached =>
    if s.isNegative word.toList then some (.positional word) else s.short? letter attached
  | _ => some (.positional word)

/-- Read the words that are left; `none` when they are not understood. -/
def readFrom (s : ArgumentSpec) (a : Arguments) : List String → Option Arguments
  | [] => some a
  | [word] =>
    match s.meaning? word with
    | some .rest => some a
    | some (.positional word) => some (a.addPositional word)
    | some (.flag name) => a.addFlag name
    | some (.option name value) => a.addOption name value
    | some (.pending _) | none => none
  | word :: next :: rest =>
    match s.meaning? word with
    | some .rest => some { a with positional := a.positional ++ next :: rest }
    | some (.positional word) => s.readFrom (a.addPositional word) (next :: rest)
    | some (.flag name) => (a.addFlag name).bind fun a => s.readFrom a (next :: rest)
    | some (.option name value) =>
      (a.addOption name value).bind fun a => s.readFrom a (next :: rest)
    | some (.pending name) =>
      if s.isValue next.toList then (a.addOption name next).bind fun a => s.readFrom a rest
      else none
    | none => none

def read (s : ArgumentSpec) (words : List String) : Option Arguments := s.readFrom {} words

end ArgumentSpec

end FacetSearch
