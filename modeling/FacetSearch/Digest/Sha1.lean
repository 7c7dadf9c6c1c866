import FacetSearch.Text.Utf8

set_option autoImplicit false

/-! # SHA-1

The digest of FIPS 180-4: the message is padded to whole blocks of 64 octets, and each block is worked
into five 32-bit words. -/

namespace FacetSearch.Sha1

/-- The five words of the running digest. -/
structure Words where
  a : UInt32
  b : UInt32
  c : UInt32
  d : UInt32
  e : UInt32
deriving DecidableEq, Repr

def initial : Words :=
  ⟨0x67452301, 0xefcdab89, 0x98badcfe, 0x10325476, 0xc3d2e1f0⟩

def rotate (x : UInt32) (n : UInt32) : UInt32 := (x <<< n) ||| (x >>> (32 - n))

/-! ## Padding -/

/-- A number as `size` octets, the highest first. -/
def octets (size n : Nat) : List UInt8 :=
  (List.range size).reverse.map fun i => UInt8.ofNat (n >>> (8 * i))

/-- The message with a one bit, zeros and its length in bits, a multiple of 64 octets long. -/
def pad (message : List UInt8) : List UInt8 :=
  let zeros := (119 - message.length % 64) % 64
  message ++ 0x80 :: List.replicate zeros 0 ++ octets 8 (8 * message.length)

/-! ## Blocks -/

/-- Four octets as a word. -/
def word (a b c d : UInt8) : UInt32 :=
  (a.toUInt32 <<< 24) ||| (b.toUInt32 <<< 16) ||| (c.toUInt32 <<< 8) ||| d.toUInt32

def wordsOf : List UInt8 → List UInt32
  | a :: b :: c :: d :: rest => word a b c d :: wordsOf rest
  | _ => []

/-- Extend a schedule, held with the latest word first, by `n` words. -/
def extend : Nat → List UInt32 → List UInt32
  | 0, schedule => schedule
  | n + 1, schedule =>
    let at' (i : Nat) := schedule.getD i 0
    extend n (rotate (at' 2 ^^^ at' 7 ^^^ at' 13 ^^^ at' 15) 1 :: schedule)

/-- The 80 words that a block is worked in by. -/
def schedule (block : List UInt8) : List UInt32 :=
  (extend 64 (wordsOf block).reverse).reverse

/-- The mixing function and the constant of round `t`. -/
def mixing (t : Nat) (w : Words) : UInt32 × UInt32 :=
  if t < 20 then ((w.b &&& w.c) ||| (~~~w.b &&& w.d), 0x5a827999)
  else if t < 40 then (w.b ^^^ w.c ^^^ w.d, 0x6ed9eba1)
  else if t < 60 then ((w.b &&& w.c) ||| (w.b &&& w.d) ||| (w.c &&& w.d), 0x8f1bbcdc)
  else (w.b ^^^ w.c ^^^ w.d, 0xca62c1d6)

/-- One round with schedule word `x`. -/
def round (w : Words) (t : Nat) (x : UInt32) : Words :=
  let (f, k) := mixing t w
  ⟨rotate w.a 5 + f + w.e + k + x, w.a, rotate w.b 30, w.c, w.d⟩

/-- Work one block into the digest. -/
def absorb (w : Words) (block : List UInt8) : Words :=
  let v := (schedule block).zipIdx.foldl (fun v (x, t) => round v t x) w
  ⟨w.a + v.a, w.b + v.b, w.c + v.c, w.d + v.d, w.e + v.e⟩

/-- Work `blocks` blocks of 64 octets into the digest. -/
def absorbAll (w : Words) : Nat → List UInt8 → Words
  | 0, _ => w
  | blocks + 1, message => absorbAll (absorb w (message.take 64)) blocks (message.drop 64)

/-! ## The digest -/

/-- The twenty octets of the digest. -/
def digest (message : List UInt8) : List UInt8 :=
  let padded := pad message
  let w := absorbAll initial (padded.length / 64) padded
  [w.a, w.b, w.c, w.d, w.e].flatMap fun x => octets 4 x.toNat

/-- A digit of base sixteen, in lower case. -/
def hexChar (n : Nat) : Char := if n < 10 then Char.ofNat (48 + n) else Char.ofNat (87 + n)

/-- The digest of a text's UTF-8 form, as forty hexadecimal digits. -/
def hexDigest (text : String) : String :=
  String.ofList ((digest (Utf8.encode text.toList)).flatMap fun octet =>
    [hexChar (octet.toNat / 16), hexChar (octet.toNat % 16)])

end FacetSearch.Sha1
