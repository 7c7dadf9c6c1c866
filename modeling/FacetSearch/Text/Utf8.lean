set_option autoImplicit false

/-! # UTF-8

Texts as octets and back. `encode` is the UTF-8 form of a text. `decodeLossy` reads any octets: each
longest run that begins a character without finishing one becomes a single `U+FFFD`, so nothing is
refused and what `encode` wrote comes back unchanged. -/

namespace FacetSearch.Utf8

/-- The UTF-8 form of a text. -/
def encode (text : List Char) : List UInt8 :=
  text.flatMap String.utf8EncodeChar

/-! ## One character -/

/-- The character that stands for what cannot be read. -/
def replacement : Char := '\ufffd'

/-- A continuation octet. -/
def isTail (b : UInt8) : Bool := 0x80 ≤ b && b ≤ 0xbf

/-- The number of octets of a character that begins with `lead`; none begins with a continuation
    octet, with `c0`, `c1` or above `f4`. -/
def width? (lead : UInt8) : Option Nat :=
  if lead ≤ 0x7f then some 1
  else if lead < 0xc2 then none
  else if lead ≤ 0xdf then some 2
  else if lead ≤ 0xef then some 3
  else if lead ≤ 0xf4 then some 4
  else none

/-- The second octets that may follow `lead`: no overlong forms, no surrogates, nothing above
    `U+10FFFF`. -/
def secondFits (lead second : UInt8) : Bool :=
  let low : UInt8 := if lead = 0xe0 then 0xa0 else if lead = 0xf0 then 0x90 else 0x80
  let high : UInt8 := if lead = 0xed then 0x9f else if lead = 0xf4 then 0x8f else 0xbf
  low ≤ second && second ≤ high

/-- The bits that a continuation octet carries. -/
def tailBits (b : UInt8) : Nat := b.toNat % 64

/-- The character at the front of `lead :: rest`, and what follows it. What cannot be read is taken
    up to the octet that breaks it off. -/
def decodeOne (lead : UInt8) (rest : List UInt8) : Char × List UInt8 :=
  match width? lead, rest with
  | some 1, _ => (Char.ofNat lead.toNat, rest)
  | some 2, b :: tail =>
    if isTail b then (Char.ofNat (lead.toNat % 32 * 64 + tailBits b), tail) else (replacement, rest)
  | some 3, b :: tail =>
    if !secondFits lead b then (replacement, rest)
    else match tail with
      | c :: tail =>
        if isTail c then
          (Char.ofNat ((lead.toNat % 16 * 64 + tailBits b) * 64 + tailBits c), tail)
        else (replacement, c :: tail)
      | [] => (replacement, [])
  | some 4, b :: tail =>
    if !secondFits lead b then (replacement, rest)
    else match tail with
      | c :: tail =>
        if !isTail c then (replacement, c :: tail)
        else match tail with
          | d :: tail =>
            if isTail d then
              (Char.ofNat (((lead.toNat % 8 * 64 + tailBits b) * 64 + tailBits c) * 64
                + tailBits d), tail)
            else (replacement, d :: tail)
          | [] => (replacement, [])
      | [] => (replacement, [])
  | _, _ => (replacement, rest)

/-! ## Whole texts -/

/-- At most `fuel` characters of a run of octets. -/
def decodeFrom : Nat → List UInt8 → List Char
  | 0, _ => []
  | _, [] => []
  | fuel + 1, lead :: rest =>
    let (c, tail) := decodeOne lead rest
    c :: decodeFrom fuel tail

/-- The text that octets write, whatever they are. -/
def decodeLossy (octets : List UInt8) : List Char := decodeFrom octets.length octets

end FacetSearch.Utf8
