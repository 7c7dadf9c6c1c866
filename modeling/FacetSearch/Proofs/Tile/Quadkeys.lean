import FacetSearch.Proofs.Tile.Truncation

set_option autoImplicit false

/-! # Quadkeys and their tiles

The digits of a tile are read back as the tile, and every run of digits is that of one tile and of no
other (`quadkeys_are_tiles`). Writing takes the bits of the coordinates off from the highest down and
reading puts them on again, so both go along one equation: what is left of a coordinate above a level is
twice what is left above the next one, plus a bit (`div_two_pow_eq`). -/

namespace FacetSearch.Quadkey

/-! ## Digits -/

/-- The character is a digit of quadkeys. -/
def IsDigit (c : Char) : Prop := c ∈ ['0', '1', '2', '3']

instance : DecidablePred IsDigit := fun _ => inferInstanceAs (Decidable (_ ∈ _))

variable {x y x' y' zoom : Nat} {c : Char} {text : List Char}

theorem isDigit_digit (column row : Bool) : IsDigit (digit column row) := by
  cases column <;> cases row <;> decide

theorem bits?_digit (column row : Bool) : bits? (digit column row) = some (column, row) := by
  cases column <;> cases row <;> rfl

theorem bits?_eq_some_iff {column row : Bool} :
    bits? c = some (column, row) ↔ digit column row = c := by
  constructor
  · intro h
    unfold bits? at h
    split_ifs at h with h0 h1 h2 h3
    all_goals
      obtain ⟨rfl, rfl⟩ := Prod.mk.inj (Option.some.inj h)
      exact Eq.symm ‹c = _›
  · rintro rfl
    exact bits?_digit column row

theorem IsDigit.exists_digit (h : IsDigit c) : ∃ column row, digit column row = c := by
  unfold IsDigit at h
  fin_cases h
  · exact ⟨false, false, rfl⟩
  · exact ⟨true, false, rfl⟩
  · exact ⟨false, true, rfl⟩
  · exact ⟨true, true, rfl⟩

theorem IsDigit.not_blank (h : IsDigit c) : Text.isBlank c = false := by
  unfold IsDigit at h
  fin_cases h <;> rfl

theorem IsDigit.toNat_lt (h : IsDigit c) : c.toNat < 128 := by
  unfold IsDigit at h
  fin_cases h <;> decide

/-- A digit counts the bit of the column once and the bit of the row twice. -/
theorem toNat_digit (column row : Bool) :
    (digit column row).toNat = '0'.toNat + (if column then 1 else 0) + (if row then 2 else 0) := by
  cases column <;> cases row <;> rfl

/-! ## The digits of a tile -/

theorem length_digits (x y zoom : Nat) : (digits x y zoom).length = zoom := by
  induction zoom with
  | zero => rfl
  | succ level ih => rw [digits, List.length_cons, ih]

theorem isDigit_of_mem_digits (h : c ∈ digits x y zoom) : IsDigit c := by
  induction zoom with
  | zero => exact absurd h List.not_mem_nil
  | succ level ih =>
      rcases List.mem_cons.1 h with rfl | h
      · exact isDigit_digit _ _
      · exact ih h

/-- The upper digits are those of the tile that the lower ones lead away from. -/
theorem digits_add (x y above below : Nat) :
    digits x y (above + below) = digits (x >>> below) (y >>> below) above ++ digits x y below := by
  induction above with
  | zero => rw [Nat.zero_add, digits, List.nil_append]
  | succ above ih =>
      rw [Nat.succ_add, digits, digits, ih, Nat.testBit_shiftRight, Nat.testBit_shiftRight,
        Nat.add_comm below, List.cons_append]

/-- **The first digits of a tile are the digits of the tile around it.** -/
theorem take_digits {depth : Nat} (h : depth ≤ zoom) (x y : Nat) :
    (digits x y zoom).take depth = digits (x >>> (zoom - depth)) (y >>> (zoom - depth)) depth := by
  obtain ⟨below, rfl⟩ := Nat.exists_eq_add_of_le h
  rw [digits_add, Nat.add_sub_cancel_left, List.take_left' (length_digits _ _ _)]

theorem getElem?_digits {i : Nat} (h : i < zoom) (x y : Nat) :
    (digits x y zoom)[i]? = some (digit (x.testBit (zoom - 1 - i)) (y.testBit (zoom - 1 - i))) := by
  obtain ⟨below, rfl⟩ : ∃ below, zoom = i + (below + 1) := ⟨zoom - i - 1, by omega⟩
  have hlevel : i + (below + 1) - 1 - i = below := by omega
  rw [hlevel, digits_add, List.getElem?_append_right (by rw [length_digits]), length_digits,
    Nat.sub_self, digits, List.getElem?_cons_zero]

theorem and_two_pow_ne_zero_iff (n level : Nat) : n &&& 2 ^ level ≠ 0 ↔ n.testBit level = true := by
  rw [Nat.and_two_pow]
  cases n.testBit level <;> simp

/-- A digit says which of the two masks meet the column and the row. -/
theorem toNat_getElem?_digits {i : Nat} (h : i < zoom) (x y : Nat) :
    (digits x y zoom)[i]?.map Char.toNat = some ('0'.toNat
      + (if x &&& 2 ^ (zoom - 1 - i) ≠ 0 then 1 else 0)
      + (if y &&& 2 ^ (zoom - 1 - i) ≠ 0 then 2 else 0)) := by
  rw [getElem?_digits h, Option.map_some, toNat_digit]
  simp only [and_two_pow_ne_zero_iff]

/-! ## Reading digits -/

/-- Going down one level adds a bit to a coordinate, and taking it off leads back up. -/
theorem testBit_of_div_eq {n m level : Nat} {bit : Bool} (h : n / 2 ^ level = 2 * m + bit.toNat) :
    n.testBit level = bit ∧ n / 2 ^ (level + 1) = m := by
  have hbit := bit.toNat_le
  constructor
  · rw [Nat.testBit_eq_decide_div_mod_eq, h, Nat.mul_add_mod]
    cases bit <;> rfl
  · rw [Nat.pow_succ, ← Nat.div_div_eq_div_mul, h]
    omega

theorem div_two_pow_eq (n level : Nat) :
    n / 2 ^ level = 2 * (n / 2 ^ (level + 1)) + (n.testBit level).toNat := by
  rw [Nat.toNat_testBit, Nat.pow_succ, ← Nat.div_div_eq_div_mul]
  omega

/-- **Digits lead from a tile to another exactly when they are those of the other one below the first.** -/
theorem descend_eq_ok_iff : descend x y text = .ok (x', y') ↔
    x' / 2 ^ text.length = x ∧ y' / 2 ^ text.length = y ∧ text = digits x' y' text.length := by
  induction text generalizing x y with
  | nil =>
      simp only [descend, Except.ok.injEq, Prod.mk.injEq, List.length_nil, Nat.pow_zero, Nat.div_one,
        digits, and_true]
      exact ⟨fun h => ⟨h.1.symm, h.2.symm⟩, fun h => ⟨h.1.symm, h.2.symm⟩⟩
  | cons c rest ih =>
      rw [descend_cons, List.length_cons, digits, List.cons.injEq]
      constructor
      · rintro ⟨column, row, hbits, hrest⟩
        obtain ⟨hx, hy, hdigits⟩ := ih.1 hrest
        obtain ⟨hcolumn, hx⟩ := testBit_of_div_eq hx
        obtain ⟨hrow, hy⟩ := testBit_of_div_eq hy
        rw [hcolumn, hrow]
        exact ⟨hx, hy, (bits?_eq_some_iff.1 hbits).symm, hdigits⟩
      · rintro ⟨rfl, rfl, hc, hdigits⟩
        exact ⟨_, _, bits?_eq_some_iff.2 hc.symm,
          ih.2 ⟨div_two_pow_eq _ _, div_two_pow_eq _ _, hdigits⟩⟩

/-- The digits of a tile lead to it from the whole map. -/
theorem descend_digits (hx : x < 2 ^ zoom) (hy : y < 2 ^ zoom) :
    descend 0 0 (digits x y zoom) = .ok (x, y) := by
  rw [descend_eq_ok_iff, length_digits]
  exact ⟨Nat.div_eq_of_lt hx, Nat.div_eq_of_lt hy, rfl⟩

theorem exists_descend (h : ∀ c ∈ text, IsDigit c) (x y : Nat) :
    ∃ x' y', descend x y text = .ok (x', y') := by
  induction text generalizing x y with
  | nil => exact ⟨x, y, rfl⟩
  | cons c rest ih =>
      obtain ⟨hc, hrest⟩ := List.forall_mem_cons.1 h
      obtain ⟨column, row, hdigit⟩ := hc.exists_digit
      obtain ⟨x', y', htile⟩ := ih hrest (2 * x + column.toNat) (2 * y + row.toNat)
      exact ⟨x', y', descend_cons.2 ⟨column, row, bits?_eq_some_iff.2 hdigit, htile⟩⟩

theorem isDigit_of_descend (h : descend x y text = .ok (x', y')) : ∀ c ∈ text, IsDigit c := by
  obtain ⟨-, -, hdigits⟩ := descend_eq_ok_iff.1 h
  intro c hc
  rw [hdigits] at hc
  exact isDigit_of_mem_digits hc

/-- Digits are those of one tile. -/
theorem existsUnique_tile (h : ∀ c ∈ text, IsDigit c) :
    ∃! tile : Nat × Nat × Nat, tile.2.1 < 2 ^ tile.1 ∧ tile.2.2 < 2 ^ tile.1 ∧
      digits tile.2.1 tile.2.2 tile.1 = text := by
  obtain ⟨x, y, htile⟩ := exists_descend h 0 0
  obtain ⟨hx, hy, hdigits⟩ := descend_eq_ok_iff.1 htile
  refine ⟨(text.length, x, y), ⟨Nat.lt_of_div_eq_zero (by positivity) hx,
    Nat.lt_of_div_eq_zero (by positivity) hy, hdigits.symm⟩, ?_⟩
  rintro ⟨zoom, x', y'⟩ ⟨hx', hy', rfl⟩
  obtain ⟨rfl, rfl⟩ := Prod.mk.inj (Except.ok.inj ((descend_digits hx' hy').symm.trans htile))
  rw [length_digits]

/-! ## Quadkeys -/

theorem trim_ofList (h : ∀ c ∈ text, IsDigit c) :
    Text.trim (String.ofList text) = String.ofList text := by
  rw [Text.trim, String.toList_ofList, Text.trimChars_eq_self_iff.2]
  exact ⟨fun c hc => (h c (List.mem_of_mem_head? hc)).not_blank,
    fun c hc => (h c (List.mem_of_mem_getLast? hc)).not_blank⟩

/-- A text is read as a quadkey exactly when it has few enough characters and all are digits. -/
theorem exists_decode_iff {key : String} : (∃ bounds, decode key = .ok bounds) ↔
    (Text.trim key).length ≤ maxZoom ∧ ∀ c ∈ (Text.trim key).toList, IsDigit c := by
  have hsize (h : ∀ c ∈ (Text.trim key).toList, IsDigit c) :
      (Text.trim key).utf8ByteSize = (Text.trim key).length := by
    rw [← String.length_toList, ← Utf8.utf8ByteSize_ascii fun c hc => (h c hc).toNat_lt,
      String.ofList_toList]
  constructor
  · rintro ⟨bounds, h⟩
    obtain ⟨hshort, x, y, htile, -⟩ := decode_eq_ok_iff.1 h
    have hdigits := isDigit_of_descend htile
    exact ⟨hsize hdigits ▸ hshort, hdigits⟩
  · rintro ⟨hshort, hdigits⟩
    obtain ⟨x, y, htile⟩ := exists_descend hdigits 0 0
    exact ⟨_, decode_eq_ok_iff.2 ⟨(hsize hdigits).trans_le hshort, x, y, htile, rfl⟩⟩

theorem tile_digits (hzoom : zoom ≤ maxZoom) (hx : x < 2 ^ zoom) (hy : y < 2 ^ zoom) :
    tile (String.ofList (digits x y zoom)) = .ok (zoom, x, y) := by
  have hdigits : ∀ c ∈ digits x y zoom, IsDigit c := fun c => isDigit_of_mem_digits
  rw [tile_eq_ok_iff, trim_ofList hdigits, String.toList_ofList, ← String.length_toList,
    Utf8.utf8ByteSize_ascii fun c hc => (hdigits c hc).toNat_lt, String.toList_ofList, length_digits]
  exact ⟨hzoom, descend_digits hx hy, rfl⟩

theorem truncate_digits {depth : Nat} (h : depth ≤ zoom) (x y : Nat) :
    Histogram.truncate (String.ofList (digits x y zoom)) depth
      = String.ofList (digits (x >>> (zoom - depth)) (y >>> (zoom - depth)) depth) := by
  have hdash : '-' ∉ (String.ofList (digits x y zoom)).toList := by
    rw [String.toList_ofList]
    exact fun hmem => absurd (isDigit_of_mem_digits hmem) (by decide)
  rw [Chronology.truncate_of_absent hdash, String.toList_ofList, take_digits h]

theorem tileAt_lt (fraction : Binary64) (zoom : Nat) : tileAt fraction (sizeAt zoom) < 2 ^ zoom := by
  have hsize : 0 < sizeAt zoom := Nat.two_pow_pos zoom
  change tileAt fraction (sizeAt zoom) < sizeAt zoom
  unfold tileAt
  split <;> omega

/-- The quadkey of a point is that of a tile of the map. -/
theorem exists_digits_of_encode {lat lon : Binary64} {key : String}
    (h : encode lat lon zoom = .ok key) :
    zoom ≤ maxZoom ∧ ∃ x y, x < 2 ^ zoom ∧ y < 2 ^ zoom ∧ key = String.ofList (digits x y zoom) := by
  rw [encode] at h
  by_cases hzoom : maxZoom < zoom
  · rw [if_pos hzoom] at h
    exact absurd h (by simp [throw, throwThe, MonadExceptOf.throw, bind, Except.bind])
  · rw [if_neg hzoom] at h
    refine ⟨Nat.not_lt.1 hzoom, ?_⟩
    by_cases hpoint : (!((-90 : Binary64).le lat && lat.le 90 && (-180 : Binary64).le lon
        && lon.le 180)) = true
    · rw [if_pos hpoint] at h
      exact absurd h (by simp [throw, throwThe, MonadExceptOf.throw, bind, Except.bind])
    · rw [if_neg hpoint] at h
      exact ⟨_, _, tileAt_lt _ zoom, tileAt_lt _ zoom, (Except.ok.inj h).symm⟩

/-- **Quadkeys are tiles.** The digits of a tile of the map are as many as its zoom, each of them says
    which bits the column and the row have on its level, from the highest down, and they are read back as
    the tile; cut to fewer digits they are those of the tile around it. All texts of so many digits are
    quadkeys, each of exactly one tile, and nothing else is read; nor is anything else written for a
    point. -/
theorem quadkeys_are_tiles :
    (∀ zoom x y, zoom ≤ 30 → x < 2 ^ zoom → y < 2 ^ zoom →
      (digits x y zoom).length = zoom ∧ (∀ c ∈ digits x y zoom, IsDigit c) ∧
      (∀ i < zoom, (digits x y zoom)[i]?.map Char.toNat = some ('0'.toNat
        + (if x &&& 2 ^ (zoom - 1 - i) ≠ 0 then 1 else 0)
        + (if y &&& 2 ^ (zoom - 1 - i) ≠ 0 then 2 else 0))) ∧
      descend 0 0 (digits x y zoom) = .ok (x, y) ∧
      tile (String.ofList (digits x y zoom)) = .ok (zoom, x, y) ∧
      ∀ depth ≤ zoom, Histogram.truncate (String.ofList (digits x y zoom)) depth
        = String.ofList (digits (x >>> (zoom - depth)) (y >>> (zoom - depth)) depth)) ∧
    (∀ text : List Char, text.length ≤ 30 → (∀ c ∈ text, IsDigit c) →
      ∃! tile : Nat × Nat × Nat, tile.1 ≤ 30 ∧ tile.2.1 < 2 ^ tile.1 ∧ tile.2.2 < 2 ^ tile.1 ∧
        digits tile.2.1 tile.2.2 tile.1 = text) ∧
    (∀ key, (∃ bounds, decode key = .ok bounds) ↔
      (Text.trim key).length ≤ 30 ∧ ∀ c ∈ (Text.trim key).toList, IsDigit c) ∧
    ∀ lat lon zoom key, encode lat lon zoom = .ok key →
      zoom ≤ 30 ∧ ∃ x y, x < 2 ^ zoom ∧ y < 2 ^ zoom ∧ key = String.ofList (digits x y zoom) := by
  refine ⟨fun zoom x y hzoom hx hy => ?_, fun text hshort hdigits => ?_,
    fun key => exists_decode_iff, fun lat lon zoom key => exists_digits_of_encode⟩
  · exact ⟨length_digits x y zoom, fun c => isDigit_of_mem_digits,
      fun i hi => toNat_getElem?_digits hi x y, descend_digits hx hy, tile_digits hzoom hx hy,
      fun depth hdepth => truncate_digits hdepth x y⟩
  · obtain ⟨tile, ⟨hx, hy, hsame⟩, hunique⟩ := existsUnique_tile hdigits
    refine ⟨tile, ⟨?_, hx, hy, hsame⟩, fun tile' htile' => hunique tile' htile'.2⟩
    rwa [← length_digits tile.2.1 tile.2.2 tile.1, hsame]

/-- The corner of the map at the deepest zoom, where its top row ends. -/
theorem quadkeys_are_tiles_corner :
    tile (String.ofList (digits 1073741823 0 30)) = .ok (30, 1073741823, 0) ∧
      Histogram.truncate (String.ofList (digits 1073741823 0 30)) 1 = "1" := by
  obtain ⟨hread, -⟩ := quadkeys_are_tiles
  obtain ⟨-, -, -, -, htile, htruncate⟩ :=
    hread 30 1073741823 0 (by decide) (by decide) (by decide)
  exact ⟨htile, htruncate 1 (by decide)⟩

end FacetSearch.Quadkey
