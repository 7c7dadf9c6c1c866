import FacetSearch.Text.Utf8

set_option autoImplicit false

/-! # Form-urlencoded pairs

The format `application/x-www-form-urlencoded` of the URL standard. Writing keeps ASCII letters, digits
and `*-._`, turns a space into `+` and every other octet into `%XX`. Reading cuts at `&`, skips empty
pieces, cuts each piece at its first `=`, turns `+` into a space, decodes escapes, keeps a `%` that
begins none, and reads the octets as UTF-8. -/

namespace FacetSearch.FormEncoding

/-! ## Writing -/

/-- The octet stands for itself. -/
def isPlain (b : UInt8) : Bool :=
  (0x30 ≤ b && b ≤ 0x39) || (0x41 ≤ b && b ≤ 0x5a) || (0x61 ≤ b && b ≤ 0x7a)
    || b == 0x2a || b == 0x2d || b == 0x2e || b == 0x5f

/-- A hexadecimal digit in upper case. -/
def hexChar (n : Nat) : Char := if n < 10 then Char.ofNat (48 + n) else Char.ofNat (55 + n)

/-- The written form of one octet. -/
def encodeOctet (b : UInt8) : List Char :=
  if isPlain b then [Char.ofNat b.toNat]
  else if b = 0x20 then ['+']
  else ['%', hexChar (b.toNat / 16), hexChar (b.toNat % 16)]

/-- The written form of a name or a value. -/
def encodeText (text : List Char) : List Char :=
  (Utf8.encode text).flatMap encodeOctet

/-- The written form of a pair. -/
def encodePair (pair : String × String) : List Char :=
  encodeText pair.1.toList ++ '=' :: encodeText pair.2.toList

/-- Pairs in order, with `&` between them. -/
def encode (pairs : List (String × String)) : String :=
  String.ofList (['&'].intercalate (pairs.map encodePair))

/-! ## Reading -/

/-- The value of a hexadecimal digit, in either case. -/
def hexValue? (b : UInt8) : Option UInt8 :=
  if 0x30 ≤ b && b ≤ 0x39 then some (b - 0x30)
  else if 0x41 ≤ b && b ≤ 0x46 then some (b - 0x37)
  else if 0x61 ≤ b && b ≤ 0x66 then some (b - 0x57)
  else none

/-- An octet outside an escape. -/
def decodeOctet (b : UInt8) : UInt8 := if b = 0x2b then 0x20 else b

/-- The octets that written ones stand for. -/
def decodeOctets : List UInt8 → List UInt8
  | [] => []
  | [b] => [decodeOctet b]
  | [b, c] => [decodeOctet b, decodeOctet c]
  | b :: high :: low :: rest =>
    if b = 0x25 then
      match hexValue? high, hexValue? low with
      | some h, some l => (h * 16 + l) :: decodeOctets rest
      | _, _ => b :: decodeOctets (high :: low :: rest)
    else decodeOctet b :: decodeOctets (high :: low :: rest)

/-- The text that a written name or value stands for. -/
def decodeText (octets : List UInt8) : String :=
  String.ofList (Utf8.decodeLossy (decodeOctets octets))

/-- The name and the value of a piece; without `=` the value is empty. -/
def decodePair (piece : List UInt8) : String × String :=
  let name := piece.takeWhile (· ≠ 0x3d)
  (decodeText name, decodeText ((piece.drop name.length).drop 1))

/-- The pairs that a query text writes, in order. -/
def decode (query : List Char) : List (String × String) :=
  (((Utf8.encode query).splitOn 0x26).filter (!·.isEmpty)).map decodePair

end FacetSearch.FormEncoding
