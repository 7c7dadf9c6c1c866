import FacetSearch.Text.Utf8
import Mathlib

set_option autoImplicit false

/-! # UTF-8 and back

What is written in UTF-8 is read back unchanged (`decodeLossy_encode`). The form of a character depends on
how many bits its number has, and `decodeOne` takes exactly as many octets off the front: the first octet
tells the width (`width?_eq`), and the second one is never one that it refuses (`secondFits`), since the
forms that are too long, the surrogates and the numbers that are too large do not come about. -/

namespace FacetSearch.Utf8

/-! ## Octets -/

/-- The first octet of the form of a character tells how many there are. -/
theorem width?_eq {lead : UInt8} {width : Nat} (h :
    (width = 1 ∧ lead.toNat < 0x80) ∨ (width = 2 ∧ 0xc2 ≤ lead.toNat ∧ lead.toNat < 0xe0) ∨
    (width = 3 ∧ 0xe0 ≤ lead.toNat ∧ lead.toNat < 0xf0) ∨
    (width = 4 ∧ 0xf0 ≤ lead.toNat ∧ lead.toNat ≤ 0xf4)) : width? lead = some width := by
  simp only [width?, UInt8.le_iff_toNat_le, UInt8.lt_iff_toNat_lt, UInt8.reduceToNat]
  split_ifs <;> grind

/-- The octets after the first one carry six bits each. -/
theorem isTail_ofNat (n : Nat) : isTail (UInt8.ofNat (n % 64 + 128)) = true := by
  simp only [isTail, UInt8.le_iff_toNat_le, UInt8.reduceToNat, UInt8.toNat_ofNat', Bool.and_eq_true,
    decide_eq_true_eq]
  omega

theorem tailBits_ofNat (n : Nat) : tailBits (UInt8.ofNat (n % 64 + 128)) = n % 64 := by
  rw [tailBits, UInt8.toNat_ofNat']
  omega

/-- The second octet of a character with three, when the character is not a surrogate. -/
theorem secondFits_three {v : Nat} (hlow : 0x800 ≤ v) (hhigh : v < 0xd800 ∨ 0xdfff < v)
    (htop : v < 0x10000) :
    secondFits (UInt8.ofNat (v / 4096 % 16 + 224)) (UInt8.ofNat (v / 64 % 64 + 128)) = true := by
  simp only [secondFits, ← UInt8.toNat_inj, UInt8.le_iff_toNat_le, UInt8.reduceToNat,
    UInt8.toNat_ofNat', Bool.and_eq_true, decide_eq_true_eq]
  constructor <;> split_ifs <;> simp <;> omega

/-- The second octet of a character with four. -/
theorem secondFits_four {v : Nat} (hlow : 0x10000 ≤ v) (htop : v < 0x110000) :
    secondFits (UInt8.ofNat (v / 262144 % 8 + 240)) (UInt8.ofNat (v / 4096 % 64 + 128)) = true := by
  simp only [secondFits, ← UInt8.toNat_inj, UInt8.le_iff_toNat_le, UInt8.reduceToNat,
    UInt8.toNat_ofNat', Bool.and_eq_true, decide_eq_true_eq]
  constructor <;> split_ifs <;> simp <;> omega

/-! ## Characters -/

section

variable {v : Nat} (rest : List UInt8)

theorem decodeOne_one (h : v < 0x80) : decodeOne (UInt8.ofNat v) rest = (Char.ofNat v, rest) := by
  have hlead : (UInt8.ofNat v).toNat = v := by
    rw [UInt8.toNat_ofNat']
    omega
  unfold decodeOne
  simp only [width?_eq (.inl ⟨rfl, hlead.trans_lt h⟩), hlead]

theorem decodeOne_two (hlow : 0x80 ≤ v) (htop : v < 0x800) :
    decodeOne (UInt8.ofNat (v / 64 % 32 + 192)) (UInt8.ofNat (v % 64 + 128) :: rest)
      = (Char.ofNat v, rest) := by
  have hlead : (UInt8.ofNat (v / 64 % 32 + 192)).toNat = v / 64 + 192 := by
    rw [UInt8.toNat_ofNat']
    omega
  have hvalue : (v / 64 + 192) % 32 * 64 + v % 64 = v := by omega
  unfold decodeOne
  rw [width?_eq (.inr (.inl ⟨rfl, by omega, by omega⟩))]
  simp only [isTail_ofNat, tailBits_ofNat, hlead, hvalue, if_true]

theorem decodeOne_three (hlow : 0x800 ≤ v) (hhigh : v < 0xd800 ∨ 0xdfff < v) (htop : v < 0x10000) :
    decodeOne (UInt8.ofNat (v / 4096 % 16 + 224))
        (UInt8.ofNat (v / 64 % 64 + 128) :: UInt8.ofNat (v % 64 + 128) :: rest)
      = (Char.ofNat v, rest) := by
  have hlead : (UInt8.ofNat (v / 4096 % 16 + 224)).toNat = v / 4096 + 224 := by
    rw [UInt8.toNat_ofNat']
    omega
  have hvalue : ((v / 4096 + 224) % 16 * 64 + v / 64 % 64) * 64 + v % 64 = v := by omega
  unfold decodeOne
  rw [width?_eq (.inr (.inr (.inl ⟨rfl, by omega, by omega⟩)))]
  simp only [secondFits_three hlow hhigh htop, isTail_ofNat, tailBits_ofNat, hlead, hvalue,
    Bool.not_true, Bool.false_eq_true, if_true, if_false]

theorem decodeOne_four (hlow : 0x10000 ≤ v) (htop : v < 0x110000) :
    decodeOne (UInt8.ofNat (v / 262144 % 8 + 240))
        (UInt8.ofNat (v / 4096 % 64 + 128) :: UInt8.ofNat (v / 64 % 64 + 128) ::
          UInt8.ofNat (v % 64 + 128) :: rest)
      = (Char.ofNat v, rest) := by
  have hlead : (UInt8.ofNat (v / 262144 % 8 + 240)).toNat = v / 262144 + 240 := by
    rw [UInt8.toNat_ofNat']
    omega
  have hvalue : (((v / 262144 + 240) % 8 * 64 + v / 4096 % 64) * 64 + v / 64 % 64) * 64 + v % 64 = v := by
    omega
  unfold decodeOne
  rw [width?_eq (.inr (.inr (.inr ⟨rfl, by omega, by omega⟩)))]
  simp only [secondFits_four hlow htop, isTail_ofNat, tailBits_ofNat, hlead, hvalue,
    Bool.not_true, Bool.false_eq_true, if_true, if_false]

end

/-- **The form of a character is read as the character**, whatever follows it. -/
theorem exists_cons_decodeOne (c : Char) (rest : List UInt8) :
    ∃ lead tail, String.utf8EncodeChar c = lead :: tail ∧
      decodeOne lead (tail ++ rest) = (c, rest) := by
  have hvalid : c.toNat < 0xd800 ∨ (0xdfff < c.toNat ∧ c.toNat < 0x110000) := c.valid
  have hchar : Char.ofNat c.val.toNat = c := Char.ofNat_toNat c
  have htoNat : c.toNat = c.val.toNat := rfl
  rw [htoNat] at hvalid
  simp only [String.utf8EncodeChar]
  split_ifs with hone htwo hthree
  · exact ⟨_, _, rfl, by rw [List.nil_append, decodeOne_one rest (by omega), hchar]⟩
  · exact ⟨_, _, rfl, by
      simp only [List.cons_append, List.nil_append]
      rw [decodeOne_two rest (by omega) (by omega), hchar]⟩
  · exact ⟨_, _, rfl, by
      simp only [List.cons_append, List.nil_append]
      rw [decodeOne_three rest (by omega) (by omega) (by omega), hchar]⟩
  · exact ⟨_, _, rfl, by
      simp only [List.cons_append, List.nil_append]
      rw [decodeOne_four rest (by omega) (by omega), hchar]⟩

/-! ## Texts -/

/-- Each step takes one character off the front, and no octets are left over. -/
theorem decodeFrom_encode {fuel : Nat} (text : List Char) (h : (encode text).length ≤ fuel) :
    decodeFrom fuel (encode text) = text := by
  induction text generalizing fuel with
  | nil => cases fuel <;> rfl
  | cons c text ih =>
      obtain ⟨lead, tail, hform, hone⟩ := exists_cons_decodeOne c (encode text)
      have hencode : encode (c :: text) = lead :: (tail ++ encode text) := by
        rw [encode, List.flatMap_cons, hform, List.cons_append, ← encode]
      rw [hencode, List.length_cons, List.length_append] at h
      obtain ⟨fewer, rfl⟩ : ∃ fewer, fuel = fewer + 1 := Nat.exists_eq_add_of_le' (by omega)
      rw [hencode, decodeFrom, hone]
      exact congrArg (c :: ·) (ih (by omega))

/-- **A text that is written is read back unchanged.** -/
theorem decodeLossy_encode (text : List Char) : decodeLossy (encode text) = text :=
  decodeFrom_encode text (Nat.le_refl _)

theorem encode_append (text more : List Char) : encode (text ++ more) = encode text ++ encode more :=
  List.flatMap_append

/-- Of a character with a small number the form is one octet. -/
theorem encode_singleton {c : Char} (h : c.toNat < 0x80) : encode [c] = [UInt8.ofNat c.toNat] := by
  have hsmall : c.val.toNat ≤ 127 := Nat.le_of_lt_succ h
  rw [encode, List.flatMap_singleton, String.utf8EncodeChar, if_pos hsmall]
  rfl

/-! ## Sizes -/

/-- A text of ASCII characters has an octet for each. -/
theorem utf8ByteSize_ascii {text : List Char} (h : ∀ c ∈ text, c.toNat < 128) :
    (String.ofList text).utf8ByteSize = text.length := by
  rw [String.utf8ByteSize_ofList]
  induction text with
  | nil => rfl
  | cons c rest ih =>
      have hsize : c.utf8Size = 1 := by
        have hc : c.toNat < 128 := h c (List.mem_cons_self ..)
        rw [Char.utf8Size_eq_one_iff, UInt32.le_iff_toNat_le]
        exact Nat.le_of_lt_succ hc
      rw [String.utf8Len_cons, hsize, ih fun d hd => h d (List.mem_cons_of_mem _ hd), List.length_cons]

/-- A text has no fewer octets than characters. -/
theorem length_le_utf8ByteSize (text : List Char) :
    text.length ≤ (String.ofList text).utf8ByteSize := by
  rw [String.utf8ByteSize_ofList]
  induction text with
  | nil => exact Nat.le_refl 0
  | cons c rest ih =>
      have hpos := c.utf8Size_pos
      rw [String.utf8Len_cons, List.length_cons]
      omega

end FacetSearch.Utf8
