import FacetSearch.Calendar
import FacetSearch.Json.Reader
import FacetSearch.Toml.Table

set_option autoImplicit false

/-! # Reading TOML

A reader for TOML documents as version 1.1 has them, into the value that they write: tables are
objects, a date or a time is an object with its text as the only member, and a number out of range is
unreadable. Each reader takes the characters that are left and gives back a value and what follows
it. -/

namespace FacetSearch.Toml

/-! ## Blanks, comments and line ends -/

def isBlank (c : Char) : Bool := c = ' ' || c = '\t'

def skipBlank (text : List Char) : List Char := text.dropWhile isBlank

/-- The character may stand in a comment or a string. -/
def isText (c : Char) : Bool := c = '\t' || (32 ≤ c.toNat && c.toNat ≠ 127)

/-- What follows a line end. -/
def lineEnd? : List Char → Option (List Char)
  | '\n' :: rest => some rest
  | '\r' :: '\n' :: rest => some rest
  | _ => none

/-- What follows an optional comment. -/
def skipComment (text : List Char) : List Char :=
  match text with
  | '#' :: rest => rest.dropWhile isText
  | rest => rest

/-- What follows the rest of a line that has nothing but a comment. -/
def finishLine? (text : List Char) : Option (List Char) :=
  match skipComment (skipBlank text) with
  | [] => some []
  | rest => lineEnd? rest

/-- Skip blanks, comments and line ends, at most `fuel` lines of them. -/
def skipLines : Nat → List Char → List Char
  | 0, text => text
  | fuel + 1, text =>
    match lineEnd? (skipComment (skipBlank text)) with
    | some rest => skipLines fuel rest
    | none => skipComment (skipBlank text)

/-- Skip blanks and line ends, at most `fuel` lines of them. -/
def skipSpace : Nat → List Char → List Char
  | 0, text => text
  | fuel + 1, text =>
    match lineEnd? (skipBlank text) with
    | some rest => skipSpace fuel rest
    | none => skipBlank text

/-! ## Strings -/

/-- The character named by so many hexadecimal digits. -/
def readCode (size : Nat) (text : List Char) : Option (Char × List Char) := do
  let digits := text.take size
  let values ← digits.mapM Json.hexDigit?
  let code := values.foldl (fun n d => n * 16 + d) 0
  if digits.length = size ∧ code.isValidChar then some (Char.ofNat code, text.drop size) else none

/-- The character of an escape, after its backslash. -/
def readEscape : List Char → Option (Char × List Char)
  | 'e' :: rest => some ('\x1b', rest)
  | 'x' :: rest => readCode 2 rest
  | 'u' :: rest => readCode 4 rest
  | 'U' :: rest => readCode 8 rest
  | '/' :: _ | [] => none
  | c :: rest => (Json.simpleEscape? c).map (·, rest)

/-- The rest of a string on one line; `escapes` says whether a backslash begins one. -/
def readLine (escapes : Bool) (quote : Char) : Nat → List Char → List Char →
    Option (String × List Char)
  | 0, _, _ | _, _, [] => none
  | fuel + 1, done, c :: rest =>
    if c = quote then some (String.ofList done.reverse, rest)
    else if escapes && c = '\\' then do
      let (c, rest) ← readEscape rest
      readLine escapes quote fuel (c :: done) rest
    else if isText c then readLine escapes quote fuel (c :: done) rest
    else none

/-- What follows a backslash that ends its line: everything up to the next visible character. -/
def skipFold? (text : List Char) : Option (List Char) :=
  (lineEnd? (skipBlank text)).map fun rest => skipSpace rest.length rest

/-- The rest of a string of several lines, whose line ends stay as they are written. Up to two quotes
    may stand before the closing three. -/
def readBlock (escapes : Bool) (quote : Char) : Nat → List Char → List Char →
    Option (String × List Char)
  | 0, _, _ | _, _, [] => none
  | fuel + 1, done, c :: rest =>
    let run := (rest.takeWhile (· = quote)).length + 1
    if c = quote ∧ 3 ≤ run then
      if run ≤ 5 then
        some (String.ofList (done.reverse ++ List.replicate (run - 3) quote), rest.drop (run - 1))
      else none
    else if escapes && c = '\\' then
      match skipFold? rest with
      | some rest => readBlock escapes quote fuel done rest
      | none => do
        let (c, rest) ← readEscape rest
        readBlock escapes quote fuel (c :: done) rest
    else if isText c || (lineEnd? (c :: rest)).isSome then
      readBlock escapes quote fuel (c :: done) rest
    else none

/-- A string after its first quote. A line end right after three quotes is not part of it. -/
def readQuoted (quote : Char) (text : List Char) : Option (String × List Char) :=
  let escapes := quote = '"'
  match text with
  | a :: b :: rest =>
    if a = quote ∧ b = quote then
      let rest := (lineEnd? rest).getD rest
      readBlock escapes quote (rest.length + 1) [] rest
    else readLine escapes quote (text.length + 1) [] text
  | _ => readLine escapes quote (text.length + 1) [] text

/-! ## Keys -/

def isBareChar (c : Char) : Bool := c.isAlphanum || c = '_' || c = '-'

/-- One name of a key. -/
def readName (text : List Char) : Option (String × List Char) :=
  match text with
  | '"' :: rest => readLine true '"' (rest.length + 1) [] rest
  | '\'' :: rest => readLine false '\'' (rest.length + 1) [] rest
  | _ =>
    let name := text.takeWhile isBareChar
    if name.isEmpty then none else some (String.ofList name, text.drop name.length)

/-- The most names that a key may have. -/
def longestKey : Nat := 81

/-- A key: at most so many names, with dots between them. -/
def readKey : Nat → List Char → Option (List String × List Char)
  | 0, _ => none
  | fuel + 1, text => do
    let (name, rest) ← readName (skipBlank text)
    match skipBlank rest with
    | '.' :: rest => do
      let (names, rest) ← readKey fuel rest
      some (name :: names, rest)
    | rest => some ([name], rest)

/-! ## Numbers and dates -/

/-- The least whole number of 128 bits with a sign. -/
def leastWhole : Int := -170141183460469231731687303715884105728

/-- The greatest whole number of 128 bits without a sign. -/
def greatestWhole : Int := 340282366920938463463374607431768211455

/-- A whole number as a value. -/
def wholeNumber (n : Int) : Json :=
  if leastWhole ≤ n ∧ n ≤ greatestWhole then .number (.integer n) else .unreadable

/-- Digits in which single underscores stand between two digits only. -/
def plainDigits? (isDigit : Char → Bool) (text : List Char) : Option (List Char) :=
  let groups := text.splitOn '_'
  if groups.all fun group => !group.isEmpty && group.all isDigit then some groups.flatten else none

/-- A whole number in another base, after `0x`, `0o` or `0b`. -/
def radixNumber? (base : Nat) (text : List Char) : Option Json := do
  let digits ← plainDigits? (fun c => (Json.hexDigit? c).any (· < base)) text
  let n := digits.foldl (fun n c => n * base + (Json.hexDigit? c).getD 0) 0
  some (wholeNumber n)

/-- The digits of a whole part, which begins with a zero only if it is zero. -/
def wholeDigits? (text : List Char) : Option (List Char) :=
  (plainDigits? Decimal.isDigit text).filter fun digits =>
    digits.length = 1 || digits.head? ≠ some '0'

/-- The digits of an exponent, with an optional sign. -/
def isExponent (text : List Char) : Bool :=
  (plainDigits? Decimal.isDigit (Decimal.leadingSign text).2).isSome

/-- A number in decimal notation without its sign. -/
def decimalNumber? (negative : Bool) (text : List Char) : Option Json :=
  let isMark (c : Char) : Bool := c = '.' || c = 'e' || c = 'E'
  let whole := text.takeWhile (!isMark ·)
  let rest := text.drop whole.length
  match rest with
  | [] => (wholeDigits? whole).map fun digits =>
    let n := Decimal.value digits
    wholeNumber (if negative then -(n : Int) else n)
  | mark :: rest => do
    let _ ← wholeDigits? whole
    let exponent := if mark = '.' then rest.dropWhile (fun c => c ≠ 'e' ∧ c ≠ 'E')
      else mark :: rest
    let fraction := if mark = '.' then rest.take (rest.length - exponent.length) else ['0']
    let _ ← plainDigits? Decimal.isDigit fraction
    if exponent.isEmpty || isExponent (exponent.drop 1) then
      let x ← Decimal.binary64? (String.ofList (text.filter (· ≠ '_')))
      some (Json.ofNumeral (.real (if negative then -x else x)))
    else none

/-- A number, or one by name. -/
def number? (text : List Char) : Option Json :=
  match text with
  | '0' :: 'x' :: rest => radixNumber? 16 rest
  | '0' :: 'o' :: rest => radixNumber? 8 rest
  | '0' :: 'b' :: rest => radixNumber? 2 rest
  | _ =>
    let (sign, body) := Decimal.leadingSign text
    let negative := sign = some true
    if body = ['i', 'n', 'f'] then some (.number (.real (.infinite negative)))
    else if body = ['n', 'a', 'n'] then some (.number (.real .nan))
    else decimalNumber? negative body

/-- The seconds of a time of day, which may be left out or have a fraction. -/
def readSecond : List Char → Option (Nat × List Char)
  | ':' :: rest => do
    let (second, rest) ← Calendar.readNumber 2 rest
    let rest ← Calendar.skipFraction rest
    some (second, rest)
  | rest => some (0, rest)

/-- What follows a time of day. -/
def readTime (text : List Char) : Option (List Char) := do
  let (hour, rest) ← Calendar.readNumber 2 text
  let rest ← Calendar.readChar ':' rest
  let (minute, rest) ← Calendar.readNumber 2 rest
  let (second, rest) ← readSecond rest
  if hour ≤ 23 ∧ minute ≤ 59 ∧ second ≤ 60 then some rest else none

/-- The text is a date, a time or both, with an optional zone after both. -/
def isMoment (text : List Char) : Bool :=
  let date := do
    let (year, rest) ← Calendar.readNumber 4 text
    let (_, rest) ← Calendar.readMonthDay year rest
    some rest
  match date with
  | none => readTime text = some []
  | some [] => true
  | some (c :: rest) =>
    (c = 'T' || c = 't' || c = ' ') &&
      match readTime rest with
      | some [] => true
      | some zone => ((Calendar.readZone zone).map (·.2)) = some []
      | none => false

/-- A value that is written without quotes or brackets. -/
def scalar? (text : List Char) : Option Json :=
  if text = "true".toList then some (.bool true)
  else if text = "false".toList then some (.bool false)
  else if isMoment text then some (.object [("datetime", .string (String.ofList text))])
  else number? text

/-- The character may stand in a number, a date or a word. -/
def isScalarChar (c : Char) : Bool := isBareChar c || c = '+' || c = '.' || c = ':'

/-- A scalar and what follows it; a date may have its time behind a blank. -/
def readScalar (text : List Char) : Option (Json × List Char) := do
  let first := text.takeWhile isScalarChar
  let rest := text.drop first.length
  let time := (rest.drop 1).takeWhile isScalarChar
  if rest.head? = some ' ' ∧ isMoment (first ++ ' ' :: time) then
    let value ← scalar? (first ++ ' ' :: time)
    some (value, rest.drop (1 + time.length))
  else
    let value ← scalar? first
    some (value, rest)

/-! ## Values -/

/-- How deep arrays and tables in braces may lie in one another. -/
def deepest : Nat := 80

mutual

/-- A value, with blanks in front, that may hold `levels` levels of arrays and tables. -/
def readValue (levels : Nat) : Nat → List Char → Option (Json × List Char)
  | 0, _ => none
  | fuel + 1, text =>
    match skipBlank text with
    | '"' :: rest => do
      let (text, rest) ← readQuoted '"' rest
      some (.string text, rest)
    | '\'' :: rest => do
      let (text, rest) ← readQuoted '\'' rest
      some (.string text, rest)
    | '[' :: rest => do
      if levels = 0 then none
      else
        let (items, rest) ← readItems (levels - 1) fuel rest
        some (.array items, rest)
    | '\x7b' :: rest => do
      if levels = 0 then none
      else
        let (members, rest) ← readMembers (levels - 1) fuel [] rest
        some (.object (membersJson members), rest)
    | rest => readScalar rest

/-- The items of an array up to its closing bracket. -/
def readItems (levels : Nat) : Nat → List Char → Option (List Json × List Char)
  | 0, _ => none
  | fuel + 1, text =>
    match skipLines text.length text with
    | ']' :: rest => some ([], rest)
    | rest => do
      let (item, rest) ← readValue levels fuel rest
      match skipLines rest.length rest with
      | ']' :: rest => some ([item], rest)
      | ',' :: rest => do
        let (items, rest) ← readItems levels fuel rest
        some (item :: items, rest)
      | _ => none

/-- The members of a table in braces up to the closing one, after those in `done`. -/
def readMembers (levels : Nat) : Nat → Members → List Char → Option (Members × List Char)
  | 0, _, _ => none
  | fuel + 1, done, text =>
    match skipLines text.length text with
    | '\x7d' :: rest => some (done, rest)
    | rest => do
      let (names, rest) ← readKey longestKey rest
      let (path, name) ← splitKey names
      let rest ← Calendar.readChar '=' (skipLines rest.length rest)
      let (value, rest) ← readValue levels fuel (skipLines rest.length rest)
      let done ← setKey value name path done
      match skipLines rest.length rest with
      | '\x7d' :: rest => some (done, rest)
      | ',' :: rest => readMembers levels fuel done rest
      | _ => none

end

/-! ## Documents -/

/-- A document that is being read: its tree, and the table that keys go to. -/
structure Document where
  members : Members := []
  table : List String := []

/-- A header, after its first bracket. -/
def readHeader (d : Document) (text : List Char) : Option (Document × List Char) := do
  let (several, rest) := match text with
    | '[' :: rest => (true, rest)
    | rest => (false, rest)
  let (names, rest) ← readKey longestKey rest
  let (path, name) ← splitKey names
  let rest ← Calendar.readChar ']' rest
  let rest ← if several then Calendar.readChar ']' rest else some rest
  let members ← below (if several then openItem name else openTable name) path d.members
  some ({ members, table := names }, rest)

/-- A key and its value. -/
def readPair (d : Document) (text : List Char) : Option (Document × List Char) := do
  let (names, rest) ← readKey longestKey text
  let (path, name) ← splitKey names
  let rest ← Calendar.readChar '=' rest
  let (value, rest) ← readValue deepest (2 * rest.length + 2) rest
  let members ← below (setKey value name path) d.table d.members
  some ({ d with members }, rest)

/-- The statements that are left, each on a line of its own. -/
def readStatements : Nat → Document → List Char → Option Document
  | 0, _, _ => none
  | fuel + 1, d, text =>
    match skipLines text.length text with
    | [] => some d
    | rest => do
      let (d, rest) ← match rest with
        | '[' :: rest => readHeader d rest
        | rest => readPair d rest
      readStatements fuel d (← finishLine? rest)

/-- The object that a whole document writes. -/
def parse? (text : String) : Option Json :=
  let chars := match text.toList with
    | '\ufeff' :: rest => rest
    | chars => chars
  (readStatements (chars.length + 1) {} chars).map fun d => .object (membersJson d.members)

end FacetSearch.Toml
