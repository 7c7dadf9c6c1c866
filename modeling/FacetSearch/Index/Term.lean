import FacetSearch.Text.Blank

set_option autoImplicit false

/-! # Terms of the index query syntax

User text as terms that the index takes literally. A word has a backslash in front of every character
that means something to the syntax and of every blank; a phrase stands in quotes, with a backslash in
front of quotes and backslashes. Free text is cut at its double quotes into parts outside and inside
quotes, in turn, and a quote that is never closed runs to the end. -/

namespace FacetSearch.Term

/-! ## Words -/

/-- The characters with a meaning in the query syntax. -/
def specials : List Char :=
  ['+', '-', '&', '|', '!', '(', ')', '\x7b', '\x7d', '[', ']', '^', '"', '~', '*', '?', ':', '\\',
    '/']

/-- The character needs a backslash in front. -/
def isSpecial (c : Char) : Bool := specials.contains c || Text.isBlank c

/-- A word with every special character escaped. -/
def escapeChars (word : List Char) : List Char :=
  word.flatMap fun c => if isSpecial c then ['\\', c] else [c]

/-- A word that matches literally. -/
def escape (word : String) : String := String.ofList (escapeChars word.toList)

/-! ## Phrases -/

/-- A text with a backslash in front of every `mark`. -/
def markChars (mark : Char) (text : List Char) : List Char :=
  text.flatMap fun c => if c = mark then ['\\', c] else [c]

/-- The inside of a quoted phrase. Backslashes come first, so that those in front of quotes are not
    escaped again. -/
def phraseChars (phrase : List Char) : List Char := markChars '"' (markChars '\\' phrase)

/-- A phrase in quotes. -/
def quote (phrase : String) : String :=
  String.ofList ('"' :: phraseChars phrase.toList ++ ['"'])

/-! ## Free text -/

/-- The term for what stands inside quotes: one phrase with single spaces, or nothing. -/
def phraseTerms (words : List String) : List String :=
  if words.isEmpty then [] else [quote (" ".intercalate words)]

/-- The terms of the parts between double quotes; `inside` says on which side the first one is. -/
def termsOf : Bool → List String → List String
  | _, [] => []
  | inside, part :: rest =>
    let words := Text.words part
    (if inside then phraseTerms words else words.map escape) ++ termsOf (!inside) rest

/-- The terms of free text, each of them escaped or quoted. -/
def tokenize (text : String) : List String :=
  termsOf false ((text.toList.splitOn '"').map String.ofList)

end FacetSearch.Term
