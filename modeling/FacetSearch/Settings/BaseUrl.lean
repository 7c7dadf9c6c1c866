import FacetSearch.Number.Decimal

set_option autoImplicit false

/-! # Base URLs

What is looked at of a URL before anything is sent to it: its scheme, that it names a host and that its
port is a number in range. The characters of the host, and all that follows it, are not looked at. -/

namespace FacetSearch

/-- Why a text is no URL. -/
inductive BadUrl where
  | noScheme
  | emptyHost
  | badPort
deriving DecidableEq, Repr

def BadUrl.message : BadUrl → String
  | noScheme => "relative URL without a base"
  | emptyHost => "empty host"
  | badPort => "invalid port number"

namespace BaseUrl

/-! ## Parts -/

/-- A text without control characters and spaces around it, and without tabs and line ends in it. -/
def cleaned (text : String) : List Char :=
  let outside (c : Char) : Bool := c.toNat ≤ 32
  let inner := ((text.toList.dropWhile outside).reverse.dropWhile outside).reverse
  inner.filter fun c => c ≠ '\t' ∧ c ≠ '\n' ∧ c ≠ '\r'

def isSchemeChar (c : Char) : Bool := c.isAlphanum || c = '+' || c = '-' || c = '.'

/-- The scheme in lower case, and what follows its colon. -/
def cutScheme (text : List Char) : Option (List Char × List Char) :=
  let scheme := text.takeWhile isSchemeChar
  match scheme.head?, text.drop scheme.length with
  | some c, ':' :: rest => if c.isAlpha then some (scheme.map Char.toLower, rest) else none
  | _, _ => none

/-- The schemes whose URLs always have a host. -/
def withHost : List String := ["http", "https", "ws", "wss", "ftp"]

/-- The character ends the part of a URL that names its host. -/
def endsHost (special : Bool) (c : Char) : Bool :=
  c = '/' || c = '?' || c = '#' || (special && c = '\\')

/-- The text before the last `@`, if there is one, and the text behind it. -/
def cutUser (text : List Char) : Option (List Char) × List Char :=
  let host := (text.reverse.takeWhile (· ≠ '@')).reverse
  if host.length = text.length then (none, host)
  else (some (text.take (text.length - host.length - 1)), host)

/-- The host, up to a colon outside brackets, and what follows it. -/
def cutHost : Bool → List Char → List Char × List Char
  | _, [] => ([], [])
  | inside, c :: rest =>
    if c = ':' && !inside then ([], c :: rest)
    else
      let inside := if c = '[' then true else if c = ']' then false else inside
      let (host, rest) := cutHost inside rest
      (c :: host, rest)

/-- Nothing, or a colon with a port up to 65535, which a backslash may end. -/
def isPort : List Char → Bool
  | [] => true
  | _ :: rest =>
    let (digits, rest) := Decimal.leadingDigits rest
    Decimal.value digits ≤ 65535 && (rest.isEmpty || rest.head? = some '\\')

/-! ## Checks -/

/-- What stands before an `@` asks for a host behind it: a user or a password, or nothing at all when
    something else follows. -/
def needsHost (follows : Bool) : Option (List Char) → Bool
  | none => false
  | some [] => follows
  | some user => user ≠ [':']

/-- Check the part that names the host. It may be empty only where the scheme allows it and neither a
    user nor a port goes with it. -/
def checkHost (special : Bool) (text : List Char) : Except BadUrl Unit :=
  let authority := text.takeWhile fun c => !endsHost special c
  let (user, rest) := cutUser authority
  let (host, port) := cutHost false rest
  let follows := authority.length < text.length
  if host.isEmpty && (special || !port.isEmpty || needsHost follows user) then .error .emptyHost
  else if isPort port then .ok ()
  else .error .badPort

/-- The scheme of a URL, in lower case. -/
def scheme (text : String) : Except BadUrl String := do
  let some (scheme, rest) := cutScheme (cleaned text) | throw .noScheme
  let name := String.ofList scheme
  if withHost.contains name then
    checkHost true (rest.dropWhile fun c => c = '/' || c = '\\')
  else
    match rest with
    | '/' :: '/' :: rest => if name = "file" then pure () else checkHost false rest
    | _ => pure ()
  return name

end BaseUrl

end FacetSearch
