import FacetSearch.Proofs.Text.Utf8
import FacetSearch.Request.FormEncoding
import FacetSearch.Text.Blank

set_option autoImplicit false

/-! # Form-urlencoded pairs and back

Pairs that are written are read back as they were (`decode_encode`), whatever their names and values are.
The written form of an octet is read as the octet (`decodeOctets_encodeOctet`) and has neither of the
marks between pairs and between names and values, so cutting at the marks undoes the writing. A written
text is never empty around a mark, and has no white space and no question mark. -/

namespace FacetSearch.FormEncoding

/-! ## Octets -/

/-- A digit of an escape as an octet. -/
def hexOctet (n : Nat) : UInt8 := UInt8.ofNat (hexChar n).toNat

/-- What holds of each of the 256 octets holds of all. -/
theorem forall_octet {P : UInt8 → Prop} (h : ∀ n < 256, P (UInt8.ofNat n)) (b : UInt8) : P b := by
  have hb := h b.toNat b.toNat_lt
  rwa [UInt8.ofNat_toNat] at hb

/-- An octet that stands for itself begins no escape and is no mark of a pair. -/
theorem plain_of_isPlain : ∀ b : UInt8, isPlain b = true →
    b ≠ 0x25 ∧ decodeOctet b = b ∧ b ≠ 0x26 ∧ b ≠ 0x3d :=
  forall_octet (by decide +kernel)

theorem toNat_ofNat_of_isPlain : ∀ b : UInt8, isPlain b = true →
    (Char.ofNat b.toNat).toNat = b.toNat ∧ b.toNat < 0x80 :=
  forall_octet (by decide +kernel)

theorem toNat_hexChar_lt : ∀ n < 16, (hexChar n).toNat < 0x80 := by
  decide

/-- The written form of an octet, in octets. -/
theorem encode_encodeOctet (b : UInt8) : Utf8.encode (encodeOctet b)
    = if isPlain b then [b] else if b = 0x20 then [0x2b]
      else [0x25, hexOctet (b.toNat / 16), hexOctet (b.toNat % 16)] := by
  have hbound := b.toNat_lt
  unfold encodeOctet
  split_ifs with hplain hspace
  · obtain ⟨hsame, hlt⟩ := toNat_ofNat_of_isPlain b hplain
    rw [Utf8.encode_singleton (hsame.trans_lt hlt), hsame, UInt8.ofNat_toNat]
  · decide
  · have hpercent : Utf8.encode ['%'] = [0x25] := by decide
    have hhigh := Utf8.encode_singleton (toNat_hexChar_lt (b.toNat / 16) (by omega))
    have hlow := Utf8.encode_singleton (toNat_hexChar_lt (b.toNat % 16) (by omega))
    calc Utf8.encode ['%', hexChar (b.toNat / 16), hexChar (b.toNat % 16)]
        = Utf8.encode ['%'] ++ (Utf8.encode [hexChar (b.toNat / 16)]
            ++ Utf8.encode [hexChar (b.toNat % 16)]) := by
          rw [← Utf8.encode_append, ← Utf8.encode_append]
          rfl
      _ = [0x25, hexOctet (b.toNat / 16), hexOctet (b.toNat % 16)] := by
          rw [hpercent, hhigh, hlow]
          rfl

theorem hexValue?_hexOctet : ∀ n < 16, hexValue? (hexOctet n) = some (UInt8.ofNat n) := by
  decide

theorem hexOctet_ne_mark : ∀ n < 16, hexOctet n ≠ 0x26 ∧ hexOctet n ≠ 0x3d := by
  decide

/-- The written form of an octet has no mark of a pair in it. -/
theorem not_mark_of_mem_encodeOctet {b octet : UInt8} (h : octet ∈ Utf8.encode (encodeOctet b)) :
    octet ≠ 0x26 ∧ octet ≠ 0x3d := by
  have hbound := b.toNat_lt
  rw [encode_encodeOctet] at h
  split_ifs at h with hplain hspace
  · rw [List.mem_singleton.1 h]
    exact (plain_of_isPlain b hplain).2.2
  · rw [List.mem_singleton.1 h]
    decide
  · simp only [List.mem_cons, List.not_mem_nil, or_false] at h
    rcases h with rfl | rfl | rfl
    · decide
    · exact hexOctet_ne_mark _ (by omega)
    · exact hexOctet_ne_mark _ (by omega)

theorem not_blank_of_isPlain : ∀ b : UInt8, isPlain b = true →
    Text.isBlank (Char.ofNat b.toNat) = false ∧ Char.ofNat b.toNat ≠ '?' :=
  forall_octet (by decide +kernel)

theorem not_blank_hexChar : ∀ n < 16, Text.isBlank (hexChar n) = false ∧ hexChar n ≠ '?' := by
  decide

/-- The written form of an octet has neither white space nor question marks. -/
theorem not_blank_of_mem_encodeOctet {b : UInt8} {c : Char} (h : c ∈ encodeOctet b) :
    Text.isBlank c = false ∧ c ≠ '?' := by
  have hbound := b.toNat_lt
  unfold encodeOctet at h
  split_ifs at h with hplain hspace
  · rw [List.mem_singleton.1 h]
    exact not_blank_of_isPlain b hplain
  · rw [List.mem_singleton.1 h]
    decide
  · simp only [List.mem_cons, List.not_mem_nil, or_false] at h
    rcases h with rfl | rfl | rfl
    · decide
    · exact not_blank_hexChar _ (by omega)
    · exact not_blank_hexChar _ (by omega)

/-! ## Reading octets -/

theorem decodeOctets_cons {b : UInt8} (h : b ≠ 0x25) (rest : List UInt8) :
    decodeOctets (b :: rest) = decodeOctet b :: decodeOctets rest := by
  rcases rest with _ | ⟨c, _ | ⟨d, rest⟩⟩
  · rfl
  · rfl
  · rw [decodeOctets, if_neg h]

/-- An escape is read as the octet that its digits write. -/
theorem decodeOctets_escape (b : UInt8) (rest : List UInt8) :
    decodeOctets (0x25 :: hexOctet (b.toNat / 16) :: hexOctet (b.toNat % 16) :: rest)
      = b :: decodeOctets rest := by
  have hbound := b.toNat_lt
  have hvalue : UInt8.ofNat (b.toNat / 16) * 16 + UInt8.ofNat (b.toNat % 16) = b := by
    have hsixteen : (16 : UInt8).toNat = 16 := rfl
    rw [← UInt8.toNat_inj, UInt8.toNat_add, UInt8.toNat_mul, UInt8.toNat_ofNat', UInt8.toNat_ofNat',
      hsixteen]
    omega
  rw [decodeOctets, if_pos rfl, hexValue?_hexOctet _ (by omega), hexValue?_hexOctet _ (by omega)]
  exact congrArg (· :: decodeOctets rest) hvalue

/-- **The written form of an octet is read as the octet**, whatever follows it. -/
theorem decodeOctets_encodeOctet (b : UInt8) (rest : List UInt8) :
    decodeOctets (Utf8.encode (encodeOctet b) ++ rest) = b :: decodeOctets rest := by
  rw [encode_encodeOctet]
  split_ifs with hplain hspace
  · obtain ⟨hpercent, hsame, -⟩ := plain_of_isPlain b hplain
    rw [List.singleton_append, decodeOctets_cons hpercent, hsame]
  · rw [List.singleton_append, decodeOctets_cons (by decide), hspace]
    rfl
  · exact decodeOctets_escape b rest

/-! ## Names and values -/

theorem decodeOctets_encodeText (octets : List UInt8) :
    decodeOctets (Utf8.encode (octets.flatMap encodeOctet)) = octets := by
  induction octets with
  | nil => rfl
  | cons b octets ih => rw [List.flatMap_cons, Utf8.encode_append, decodeOctets_encodeOctet, ih]

/-- **A written name or value is read back unchanged.** -/
theorem decodeText_encodeText (text : String) :
    decodeText (Utf8.encode (encodeText text.toList)) = text := by
  rw [decodeText, encodeText, decodeOctets_encodeText, Utf8.decodeLossy_encode, String.ofList_toList]

theorem mem_encode_flatMap {octets : List UInt8} {octet : UInt8}
    (h : octet ∈ Utf8.encode (octets.flatMap encodeOctet)) :
    ∃ b ∈ octets, octet ∈ Utf8.encode (encodeOctet b) := by
  rw [Utf8.encode, List.flatMap_assoc] at h
  exact List.mem_flatMap.1 h

theorem not_mark_of_mem_encodeText {text : List Char} {octet : UInt8}
    (h : octet ∈ Utf8.encode (encodeText text)) : octet ≠ 0x26 ∧ octet ≠ 0x3d := by
  obtain ⟨b, -, hmem⟩ := mem_encode_flatMap h
  exact not_mark_of_mem_encodeOctet hmem

/-! ## Pairs -/

theorem encode_encodePair (pair : String × String) :
    Utf8.encode (encodePair pair) = Utf8.encode (encodeText pair.1.toList)
      ++ 0x3d :: Utf8.encode (encodeText pair.2.toList) := by
  have hmark : Utf8.encode ['='] = [0x3d] := by decide
  rw [encodePair, ← List.singleton_append, Utf8.encode_append, Utf8.encode_append, hmark,
    List.singleton_append]

/-- **A written pair is read back unchanged**: its first `=` is the one between name and value. -/
theorem decodePair_encodePair (pair : String × String) :
    decodePair (Utf8.encode (encodePair pair)) = pair := by
  rw [encode_encodePair, decodePair]
  generalize hname : Utf8.encode (encodeText pair.1.toList) = name
  have hfree : ∀ octet ∈ name, decide (octet ≠ 0x3d) = true := fun octet hmem =>
    decide_eq_true (not_mark_of_mem_encodeText (hname ▸ hmem)).2
  have htake : (name ++ 0x3d :: Utf8.encode (encodeText pair.2.toList)).takeWhile (· ≠ 0x3d) = name := by
    rw [List.takeWhile_append_of_pos hfree]
    simp
  simp only [htake, List.drop_left, List.drop_succ_cons, List.drop_zero, decodeText_encodeText]
  rw [← hname, decodeText_encodeText]

theorem not_mark_of_mem_encodePair {pair : String × String} {octet : UInt8}
    (h : octet ∈ Utf8.encode (encodePair pair)) : octet ≠ 0x26 := by
  rw [encode_encodePair, List.mem_append, List.mem_cons] at h
  rcases h with hname | rfl | hvalue
  · exact (not_mark_of_mem_encodeText hname).1
  · decide
  · exact (not_mark_of_mem_encodeText hvalue).1

theorem encode_intercalate (mark : List Char) (pieces : List (List Char)) :
    Utf8.encode (mark.intercalate pieces)
      = (Utf8.encode mark).intercalate (pieces.map Utf8.encode) := by
  induction pieces with
  | nil => rfl
  | cons piece rest ih =>
      cases rest with
      | nil => simp
      | cons next rest =>
          simp only [List.intercalate_cons_cons, List.map_cons, Utf8.encode_append] at ih ⊢
          rw [ih]

/-- **Pairs that are written are read back as they were**, in order. -/
theorem decode_encode (pairs : List (String × String)) : decode (encode pairs).toList = pairs := by
  have hmark : Utf8.encode ['&'] = [0x26] := by decide
  rw [decode, encode, String.toList_ofList, encode_intercalate, hmark, List.map_map]
  cases pairs with
  | nil => rfl
  | cons pair rest =>
      rw [List.splitOn_intercalate]
      · have hkept : ∀ octets ∈ (pair :: rest).map (Utf8.encode ∘ encodePair),
            (!octets.isEmpty) = true := by
          simp only [List.mem_map, Function.comp_apply]
          rintro _ ⟨other, -, rfl⟩
          simp [encode_encodePair]
        rw [List.filter_eq_self.2 hkept, List.map_map]
        refine (List.map_congr_left fun other _ => ?_).trans (List.map_id _)
        exact decodePair_encodePair other
      · simp only [List.mem_map, Function.comp_apply]
        rintro _ ⟨other, -, rfl⟩ hmem
        exact not_mark_of_mem_encodePair hmem rfl
      · simp

theorem mem_intercalate {α : Type} {mark : List α} {pieces : List (List α)} {a : α}
    (h : a ∈ mark.intercalate pieces) : a ∈ mark ∨ ∃ piece ∈ pieces, a ∈ piece := by
  induction pieces with
  | nil => exact absurd h (by simp)
  | cons piece rest ih =>
      cases rest with
      | nil => exact .inr ⟨piece, by simp, by simpa using h⟩
      | cons next rest =>
          rw [List.intercalate_cons_cons, List.mem_append, List.mem_append] at h
          rcases h with (hpiece | hmark) | hrest
          · exact .inr ⟨piece, by simp, hpiece⟩
          · exact .inl hmark
          · refine (ih hrest).imp_right ?_
            rintro ⟨other, hother, ha⟩
            exact ⟨other, List.mem_cons_of_mem _ hother, ha⟩

/-- A written text has neither white space nor question marks. -/
theorem not_blank_of_mem_encode {pairs : List (String × String)} {c : Char}
    (h : c ∈ (encode pairs).toList) : Text.isBlank c = false ∧ c ≠ '?' := by
  have htext : ∀ {text : List Char}, c ∈ encodeText text → Text.isBlank c = false ∧ c ≠ '?' := by
    intro text hmem
    obtain ⟨b, -, hmem⟩ := List.mem_flatMap.1 hmem
    exact not_blank_of_mem_encodeOctet hmem
  rw [encode, String.toList_ofList] at h
  rcases mem_intercalate h with hmark | ⟨_, hpiece, hmem⟩
  · obtain rfl := List.mem_singleton.1 hmark
    decide
  · obtain ⟨pair, -, rfl⟩ := List.mem_map.1 hpiece
    rw [encodePair, List.mem_append, List.mem_cons] at hmem
    rcases hmem with hname | rfl | hvalue
    · exact htext hname
    · decide
    · exact htext hvalue

end FacetSearch.FormEncoding
