set_option autoImplicit false

/-! # Binary64 numbers

The 64-bit binary floating-point numbers as exact values. Every finite one is a whole multiple of
`2 ^ -1074`, so a finite number is a sign and a count of such units, and each operation is the exact
operation on fractions followed by one rounding to 53 significant bits (`ofRatio`): the nearer
multiple wins, and of two equally near ones the even one. Two numbers are equal as terms exactly when
they have the same bits, up to the payload of a NaN; `eqv` and `lt` compare their values. -/

namespace FacetSearch

/-- A 64-bit binary floating-point number. -/
inductive Binary64 where
  /-- The number `± units · 2 ^ -1074`; zero has both signs. -/
  | finite (negative : Bool) (units : Nat)
  | infinite (negative : Bool)
  | nan
deriving DecidableEq, Repr, Inhabited

namespace Binary64

/-! ## Rounding -/

/-- The number one, counted in units. -/
def one : Nat := Nat.pow 2 1074

/-- The least count of units that is too large for a finite number. -/
def overflow : Nat := Nat.pow 2 1024 * one

/-- The quotient `num / den` rounded to a whole number, a half going to the even neighbour. -/
def roundRatio (num den : Nat) : Nat :=
  let q := num / den
  let twice := 2 * (num % den)
  if twice < den then q else if den < twice then q + 1 else q + q % 2

/-- The number of binary digits of `n`. -/
def bitLength (n : Nat) : Nat :=
  if n = 0 then 0 else n.log2 + 1

/-- The quotient `num / den`, in units, rounded to a number with 53 significant bits. -/
def roundUnits (num den : Nat) : Nat :=
  let spare := bitLength (num / den) - 53
  let scale := Nat.pow 2 spare
  roundRatio num (den * scale) * scale

/-- A finite number, or an infinity when it has too many units. -/
def ofUnits (negative : Bool) (units : Nat) : Binary64 :=
  if units < overflow then .finite negative units else .infinite negative

/-- The number nearest to `± num / den`. -/
def ofRatio (negative : Bool) (num den : Nat) : Binary64 :=
  ofUnits negative (roundUnits (num * one) den)

/-- The number nearest to a natural number. -/
def ofNat (n : Nat) : Binary64 := ofRatio false n 1

/-- The number nearest to an integer. -/
def ofInt (n : Int) : Binary64 := ofRatio (n < 0) n.natAbs 1

def zero : Binary64 := .finite false 0

/-! ## Order -/

/-- The value of a finite number in units, with its sign. -/
def signed (negative : Bool) (units : Nat) : Int :=
  if negative then -(units : Int) else units

/-- A place on the line from `-∞` to `∞`, for a number that is not a NaN. -/
def place? : Binary64 → Option Int
  | .finite negative units => some (signed negative units)
  | .infinite negative => some (signed negative overflow)
  | .nan => none

/-- Less as values; a NaN is not less than anything. -/
def lt (x y : Binary64) : Bool :=
  match x.place?, y.place? with
  | some a, some b => a < b
  | _, _ => false

/-- Less or equal as values; false when one is a NaN. -/
def le (x y : Binary64) : Bool :=
  match x.place?, y.place? with
  | some a, some b => a ≤ b
  | _, _ => false

/-- Equal as values: the two zeros are equal, a NaN is equal to nothing. -/
def eqv (x y : Binary64) : Bool :=
  match x.place?, y.place? with
  | some a, some b => a = b
  | _, _ => false

/-- The smaller of two numbers, the second when they are equal; a NaN gives way to a number. -/
def min (x y : Binary64) : Binary64 :=
  if x = .nan then y else if y.le x then y else x

/-- The larger of two numbers, the second when they are equal; a NaN gives way to a number. -/
def max (x y : Binary64) : Binary64 :=
  if x = .nan then y else if x.le y then y else x

/-- A key for the order that puts `-0` before `0` and a NaN after all else. -/
def sortKey : Binary64 → Int
  | .finite negative units => if negative then -(units : Int) - 1 else units
  | .infinite negative => signed negative (overflow + 1)
  | .nan => overflow + 2

def isFinite : Binary64 → Bool
  | .finite _ _ => true
  | _ => false

/-! ## Arithmetic -/

def neg : Binary64 → Binary64
  | .finite negative units => .finite (!negative) units
  | .infinite negative => .infinite (!negative)
  | .nan => .nan

def add : Binary64 → Binary64 → Binary64
  | .nan, _ | _, .nan => .nan
  | .infinite a, .infinite b => if a = b then .infinite a else .nan
  | .infinite a, _ => .infinite a
  | _, .infinite b => .infinite b
  | .finite a x, .finite b y =>
    let sum := signed a x + signed b y
    if sum = 0 then .finite (a && b) 0
    else ofUnits (sum < 0) (roundUnits sum.natAbs 1)

def sub (x y : Binary64) : Binary64 := x.add y.neg

def mul : Binary64 → Binary64 → Binary64
  | .nan, _ | _, .nan => .nan
  | .infinite a, .infinite b => .infinite (a != b)
  | .infinite a, .finite b y => if y = 0 then .nan else .infinite (a != b)
  | .finite a x, .infinite b => if x = 0 then .nan else .infinite (a != b)
  | .finite a x, .finite b y => ofUnits (a != b) (roundUnits (x * y) one)

def div : Binary64 → Binary64 → Binary64
  | .nan, _ | _, .nan => .nan
  | .infinite _, .infinite _ => .nan
  | .infinite a, .finite b _ => .infinite (a != b)
  | .finite a _, .infinite b => .finite (a != b) 0
  | .finite a x, .finite b y =>
    if y = 0 then (if x = 0 then .nan else .infinite (a != b))
    else ofUnits (a != b) (roundUnits (x * one) y)

instance : Add Binary64 := ⟨add⟩
instance : Sub Binary64 := ⟨sub⟩
instance : Mul Binary64 := ⟨mul⟩
instance : Div Binary64 := ⟨div⟩
instance : Neg Binary64 := ⟨neg⟩
instance (n : Nat) : OfNat Binary64 n := ⟨ofNat n⟩

/-! ## Whole numbers -/

/-- The nearest whole number, a half going away from zero. -/
def round : Binary64 → Binary64
  | .finite negative units => .finite negative ((units + one / 2) / one * one)
  | x => x

/-- The least whole number that is not below the number. -/
def ceil : Binary64 → Binary64
  | .finite false units => .finite false ((units + one - 1) / one * one)
  | .finite true units => .finite true (units / one * one)
  | x => x

/-- The greatest whole number that is not above the number. -/
def floor (x : Binary64) : Binary64 := x.neg.ceil.neg

/-- The integer part of a finite number. -/
def truncate? : Binary64 → Option Int
  | .finite negative units => some (signed negative (units / one))
  | _ => none

/-- The integer part as an unsigned 64-bit number; what is out of range goes to the nearer end and a
    NaN to zero. -/
def toWord : Binary64 → Nat
  | .finite negative units => if negative then 0 else Nat.min (units / one) (UInt64.size - 1)
  | .infinite negative => if negative then 0 else UInt64.size - 1
  | .nan => 0

/-! ## Bits -/

/-- The highest bit of a word, which is set below zero. -/
def signBit : Nat := 0x8000000000000000

/-- The leading bit of 53 significant ones, which the word of a number leaves out. -/
def leadingBit : Nat := 0x10000000000000

/-- The number that a native float stands for. -/
def ofFloat (x : Float) : Binary64 :=
  let bits := x.toBits.toNat
  let negative := bits / signBit = 1
  let exponent := bits / leadingBit % 2048
  let fraction := bits % leadingBit
  if exponent = 2047 then (if fraction = 0 then .infinite negative else .nan)
  else if exponent = 0 then .finite negative fraction
  else .finite negative ((leadingBit + fraction) * Nat.pow 2 (exponent - 1))

/-- The native float that stands for a number. -/
def toFloat : Binary64 → Float
  | .nan => Float.ofBits 0x7ff8000000000000
  | .infinite negative => Float.ofBits (if negative then 0xfff0000000000000 else 0x7ff0000000000000)
  | .finite negative units =>
    let sign := if negative then signBit else 0
    let bits :=
      if units < leadingBit then units
      else
        let spare := bitLength units - 53
        (spare + 1) * leadingBit + (units / Nat.pow 2 spare - leadingBit)
    Float.ofBits (UInt64.ofNat (sign + bits))

end Binary64

end FacetSearch
