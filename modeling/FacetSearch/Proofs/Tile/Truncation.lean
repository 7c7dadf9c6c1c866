import FacetSearch.Proofs.Tile.Keys
import FacetSearch.Tile.Histogram
import FacetSearch.Tile.Quadkey
import Mathlib

set_option autoImplicit false

/-! # Cut keys

Whatever key is read, written by this library or not, can still be read when it is cut to fewer digits
(`Chronology.decode_truncate`, `Quadkey.decode_truncate`). White space around a key counts as digits in
the cut, which makes the rest shorter but leaves it a beginning of the digits; a magnitude and the white
space around it survive. -/

namespace FacetSearch

theorem Text.utf8ByteSize_le_of_prefix {front text : List Char} (h : front <+: text) :
    (String.ofList front).utf8ByteSize ≤ (String.ofList text).utf8ByteSize := by
  obtain ⟨back, rfl⟩ := h
  rw [String.ofList_append, String.utf8ByteSize_append]
  exact Nat.le_add_right _ _

/-! ## Intervals -/

namespace Chronology

variable {path key : String} {bound : Int} {digits : String} {span : Span}

theorem decode_eq_ok_iff : decode path = .ok span ↔
    ∃ bound digits b, split path = .ok (bound, digits) ∧ digits.utf8ByteSize ≤ maxDigits ∧
      (Box.square bound).replay digits.toList = .ok b ∧ span = b.span bound := by
  constructor
  · intro h
    rw [decode] at h
    obtain ⟨⟨bound, digits⟩, hsplit, h⟩ := Except.bind_eq_ok h
    dsimp only at h
    split at h
    · exact absurd h (by simp [throw, throwThe, MonadExceptOf.throw, bind, Except.bind])
    · next hshort =>
      cases hreplay : (Box.square bound).replay digits.toList with
      | error why =>
          simp [hreplay, throw, throwThe, MonadExceptOf.throw] at h
      | ok b =>
          refine ⟨bound, digits, b, hsplit, by omega, hreplay, ?_⟩
          simpa [hreplay, bind, Except.bind, pure, Except.pure, Box.span, eq_comm] using h
  · rintro ⟨bound, digits, b, hsplit, hshort, hreplay, rfl⟩
    rw [decode, hsplit]
    simp only [bind, Except.bind, pure, Except.pure, if_neg (Nat.not_lt.2 hshort), hreplay, Box.span]

theorem split_of_absent (h : '-' ∉ path.toList) : split path = .ok (defaultBound, Text.trim path) := by
  have htrim : '-' ∉ Text.trimChars path.toList := fun hmem =>
    h ((Text.trimChars_infix path.toList).subset hmem)
  rw [split, Text.trim, splitFirst_of_absent htrim]

/-- The magnitude and the digits are trimmed by themselves, where they are not next to the dash. -/
theorem split_of_dash {lead rest : List Char} (hpath : path.toList = lead ++ '-' :: rest)
    (h : '-' ∉ lead) : split path
      = (magnitude (String.ofList (lead.dropWhile Text.isBlank))).map
          (·, String.ofList (rest.rdropWhile Text.isBlank)) := by
  have hlead : '-' ∉ lead.dropWhile Text.isBlank := fun hmem =>
    h ((List.dropWhile_suffix Text.isBlank).subset hmem)
  rw [split, Text.trim, hpath, Text.trimChars_append_mark (by decide), splitFirst_of_dash hlead]

/-- A cut key has the bound of the key and some of its first digits. -/
theorem split_truncate (h : split key = .ok (bound, digits)) (depth : Nat) :
    ∃ front, front <+: digits.toList ∧
      split (Histogram.truncate key depth) = .ok (bound, String.ofList front) := by
  by_cases hdash : '-' ∈ key.toList
  · obtain ⟨lead, rest, hkey, hlead⟩ := List.eq_append_cons_of_mem hdash
    rw [split_of_dash hkey hlead] at h
    obtain ⟨bound', hbound, he⟩ := Except.map_eq_ok h
    obtain ⟨rfl, rfl⟩ := Prod.mk.inj he
    refine ⟨(rest.take depth).rdropWhile Text.isBlank, ?_, ?_⟩
    · rw [String.toList_ofList]
      exact Text.prefix_rdropWhile (List.take_prefix depth rest)
    · rw [split_of_dash (truncate_of_dash hkey hlead depth) hlead, hbound]
      rfl
  · rw [split_of_absent hdash] at h
    obtain ⟨rfl, rfl⟩ := Prod.mk.inj (Except.ok.inj h)
    have hcut : '-' ∉ (Histogram.truncate key depth).toList := fun hmem =>
      hdash (dash_mem_truncate_iff.1 hmem)
    rw [split_of_absent hcut, truncate_of_absent hdash, Text.trim, Text.trim, String.toList_ofList,
      String.toList_ofList]
    exact ⟨_, Text.prefix_trimChars (List.take_prefix depth key.toList), rfl⟩

/-- **A key that is read is read as well when it is cut.** -/
theorem decode_truncate (h : decode key = .ok span) (depth : Nat) :
    ∃ span', decode (Histogram.truncate key depth) = .ok span' := by
  obtain ⟨bound, digits, b, hsplit, hshort, hreplay, -⟩ := decode_eq_ok_iff.1 h
  obtain ⟨front, hfront, hcut⟩ := split_truncate hsplit depth
  obtain ⟨middle, hmiddle, -⟩ := replay_of_prefix hfront hreplay
  have hle := Text.utf8ByteSize_le_of_prefix hfront
  rw [String.ofList_toList] at hle
  refine ⟨middle.span bound, decode_eq_ok_iff.2 ⟨bound, _, middle, hcut, by omega, ?_, rfl⟩⟩
  rwa [String.toList_ofList]

end Chronology

/-! ## Areas -/

namespace Quadkey

variable {key : String} {x y : Nat} {tile' : Nat × Nat}

theorem descend_cons {c : Char} {rest : List Char} : descend x y (c :: rest) = .ok tile' ↔
    ∃ column row, bits? c = some (column, row) ∧
      descend (2 * x + column.toNat) (2 * y + row.toNat) rest = .ok tile' := by
  rw [descend]
  cases hbits : bits? c with
  | none => simp
  | some bits =>
      constructor
      · intro h
        exact ⟨bits.1, bits.2, rfl, h⟩
      · rintro ⟨column, row, he, h⟩
        obtain rfl := Option.some.inj he
        exact h

theorem descend_of_prefix {front text : List Char} (hbegins : front <+: text)
    (h : descend x y text = .ok tile') : ∃ tile, descend x y front = .ok tile := by
  induction front generalizing x y text with
  | nil => exact ⟨(x, y), rfl⟩
  | cons c front ih =>
      obtain ⟨back, rfl⟩ := hbegins
      rw [List.cons_append, descend_cons] at h
      obtain ⟨column, row, hbits, hrest⟩ := h
      obtain ⟨tile, htile⟩ := ih (List.prefix_append front back) hrest
      exact ⟨tile, descend_cons.2 ⟨column, row, hbits, htile⟩⟩

theorem bits?_of_mem {text : List Char} (h : descend x y text = .ok tile') :
    ∀ c ∈ text, (bits? c).isSome = true := by
  induction text generalizing x y with
  | nil => simp
  | cons c rest ih =>
      obtain ⟨column, row, hbits, hrest⟩ := descend_cons.1 h
      exact List.forall_mem_cons.2 ⟨by rw [hbits]; rfl, ih hrest⟩

theorem tile_eq_ok_iff {zoom : Nat} : tile key = .ok (zoom, x, y) ↔
    (Text.trim key).utf8ByteSize ≤ maxZoom ∧ descend 0 0 (Text.trim key).toList = .ok (x, y) ∧
      zoom = (Text.trim key).length := by
  rw [tile]
  by_cases hlong : maxZoom < (Text.trim key).utf8ByteSize
  · simp [hlong, bind, Except.bind, throw, throwThe, MonadExceptOf.throw]
  · rw [and_iff_right (Nat.not_lt.1 hlong)]
    cases descend 0 0 (Text.trim key).toList with
    | error c => simp [hlong, throw, throwThe, MonadExceptOf.throw]
    | ok found =>
        simp only [hlong, if_false, pure, Except.pure, Except.ok.injEq, Prod.mk.injEq]
        constructor
        · rintro ⟨rfl, rfl, rfl⟩
          exact ⟨rfl, rfl⟩
        · rintro ⟨rfl, rfl⟩
          exact ⟨rfl, rfl, rfl⟩

theorem decode_eq_ok_iff {bounds : Bounds} : decode key = .ok bounds ↔
    (Text.trim key).utf8ByteSize ≤ maxZoom ∧ ∃ x y, descend 0 0 (Text.trim key).toList = .ok (x, y) ∧
      bounds = tileBounds x y (sizeAt (Text.trim key).length) := by
  constructor
  · intro h
    obtain ⟨⟨zoom, x, y⟩, htile, hbounds⟩ := Except.bind_eq_ok h
    obtain ⟨hshort, hdescend, rfl⟩ := tile_eq_ok_iff.1 htile
    exact ⟨hshort, x, y, hdescend, (Except.ok.inj hbounds).symm⟩
  · rintro ⟨hshort, x, y, hdescend, rfl⟩
    rw [decode, tile_eq_ok_iff.2 ⟨hshort, hdescend, rfl⟩]
    rfl

/-- **A quadkey that is read is read as well when it is cut.** -/
theorem decode_truncate {bounds : Bounds} (h : decode key = .ok bounds) (depth : Nat) :
    ∃ bounds', decode (Histogram.truncate key depth) = .ok bounds' := by
  obtain ⟨hshort, x, y, hdescend, -⟩ := decode_eq_ok_iff.1 h
  rw [Text.trim, String.toList_ofList] at hdescend
  have hdash : '-' ∉ key.toList := fun hmem =>
    absurd (bits?_of_mem hdescend '-' (Text.mem_trimChars_of_not_blank hmem (by decide))) (by decide)
  have hbegins := Text.prefix_trimChars (List.take_prefix depth key.toList)
  obtain ⟨⟨x', y'⟩, hcut⟩ := descend_of_prefix hbegins hdescend
  have hle := Text.utf8ByteSize_le_of_prefix hbegins
  rw [Text.trim] at hshort
  refine ⟨_, decode_eq_ok_iff.2 ⟨?_, x', y', ?_, rfl⟩⟩
  · rw [Chronology.truncate_of_absent hdash, Text.trim, String.toList_ofList]
    omega
  · rw [Chronology.truncate_of_absent hdash, Text.trim, String.toList_ofList, String.toList_ofList]
    exact hcut

end Quadkey

end FacetSearch
