set_option autoImplicit false

/-! # White space

The characters with the Unicode property `White_Space`, and what rests on them: trimming a text and
cutting it into words. The table is complete, so `'\u00a0'` and `'\u3000'` are blank while the
zero-width space `'\u200b'` is not. -/

namespace FacetSearch.Text

/-! ## The table -/

/-- The character has the Unicode property `White_Space`. -/
def isBlank (c : Char) : Bool :=
  let n := c.toNat
  (9 ≤ n && n ≤ 13) || n == 0x20 || n == 0x85 || n == 0xa0 || n == 0x1680
    || (0x2000 ≤ n && n ≤ 0x200a) || n == 0x2028 || n == 0x2029 || n == 0x202f || n == 0x205f
    || n == 0x3000

/-! ## Trimming -/

/-- The characters without the blank ones at either end. -/
def trimChars (text : List Char) : List Char :=
  ((text.dropWhile isBlank).reverse.dropWhile isBlank).reverse

/-- The text without the blank characters at either end. -/
def trim (text : String) : String :=
  String.ofList (trimChars text.toList)

/-- Nothing but white space, or nothing at all. -/
def isBlankText (text : String) : Bool :=
  text.toList.all isBlank

/-! ## Words -/

/-- The words of `text`, where `current` holds, in reverse, the word that is being read. -/
def wordsFrom : List Char → List Char → List (List Char)
  | current, [] => if current.isEmpty then [] else [current.reverse]
  | current, c :: rest =>
    if isBlank c then
      if current.isEmpty then wordsFrom [] rest else current.reverse :: wordsFrom [] rest
    else wordsFrom (c :: current) rest

/-- The longest runs of characters that are not blank, in order. -/
def words (text : String) : List String :=
  (wordsFrom [] text.toList).map String.ofList

end FacetSearch.Text
