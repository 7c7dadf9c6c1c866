import FacetSearch.Proofs.Compilation.Answers
import FacetSearch.Proofs.Tile.Framing

set_option autoImplicit false

/-! # Keys that are written

The digits of intervals under one bound are a prefix-free code: where they end, the box has settled or
they are as many as there may be (`Complete.eq_of_prefix`). So of the keys that are written, one that
begins with a cut path is cut to the same path (`truncate_eq_iff`), with one exception: a path without
a magnitude may also begin the magnitude of a key, as `1` does in `10m-0123`.

A magnitude may hold a dash of its own, as in `1e-1g`. What stands in front of that dash names no bound,
so the keys under such a magnitude are cut to what is no path. -/

namespace FacetSearch.Chronology

variable {bound : Int} {digits digits' : List Char}

/-! ## Complete digits -/

/-- The digits of some interval under a bound, all of them. -/
def Complete (bound : Int) (digits : List Char) : Prop :=
  ∃ e l, (Box.square bound).Holds e l ∧ digits = intervalDigits bound e l

theorem Complete.isDigit (h : Complete bound digits) : ∀ c ∈ digits, IsDigit c := by
  obtain ⟨e, l, -, rfl⟩ := h
  exact Box.isDigit_digitsToward

theorem Complete.no_dash (h : Complete bound digits) : '-' ∉ digits := fun hmem =>
  (h.isDigit _ hmem).ne_dash rfl

/-- No digits follow those that lead to a settled box. -/
theorem Box.eq_nil_of_settled {b b' : Box} {e l : Int} {fuel : Nat} {front back : List Char}
    (h : b.digitsToward e l fuel = front ++ back) (hreplay : b.replay front = .ok b')
    (hsettled : b'.settled = true) : back = [] := by
  induction front generalizing b fuel with
  | nil =>
      obtain rfl := Except.ok.inj hreplay
      rw [List.nil_append] at h
      rw [← h]
      cases fuel with
      | zero => rfl
      | succ fuel => rw [digitsToward_succ, if_pos hsettled]
  | cons c front ih =>
      cases fuel with
      | zero => exact absurd h (by simp [digitsToward, movesToward])
      | succ fuel =>
          rw [digitsToward_succ] at h
          split at h
          · exact absurd h (by simp)
          · obtain ⟨hc, hrest⟩ := List.cons.inj h
            obtain ⟨m, hm, -, hreplay'⟩ := replay_cons.1 hreplay
            obtain rfl := Move.digit_injective (hm.trans hc.symm)
            exact ih hrest hreplay'

/-- **Complete digits are a prefix-free code.** -/
theorem Complete.eq_of_prefix (h : Complete bound digits) (h' : Complete bound digits')
    (hbegins : digits <+: digits') : digits = digits' := by
  obtain ⟨e, l, hin, rfl⟩ := h
  obtain ⟨e', l', -, rfl⟩ := h'
  obtain ⟨b, hreplay, -, hsettled | hlength⟩ := Box.replay_digitsToward maxDigits hin
  · obtain ⟨back, hback⟩ := hbegins
    have hnil : back = [] := Box.eq_nil_of_settled hback.symm hreplay hsettled
    rwa [hnil, List.append_nil] at hback
  · refine hbegins.eq_of_length_le ?_
    have hle := Box.length_digitsToward_le e' l' maxDigits (Box.square bound)
    rw [intervalDigits, intervalDigits, hlength]
    exact hle

/-- Complete digits begin with others that are cut exactly when they are cut to the same. -/
theorem Complete.take_eq_iff (h : Complete bound digits) (h' : Complete bound digits')
    (depth : Nat) : digits'.take depth = digits.take depth ↔ digits.take depth <+: digits' := by
  constructor
  · intro he
    exact he ▸ List.take_prefix depth digits'
  · intro hbegins
    rcases Nat.le_total depth digits.length with hle | hle
    · have htake := List.prefix_iff_eq_take.1 hbegins
      rw [List.length_take_of_le hle] at htake
      exact htake.symm
    · rw [List.take_of_length_le hle] at hbegins ⊢
      rw [h.eq_of_prefix h' hbegins, List.take_of_length_le (h.eq_of_prefix h' hbegins ▸ hle)]

/-! ## Keys -/

/-- A text in front of the dash of a key: it has no dash, no white space at its front and no capitals. -/
structure IsLead (lead : List Char) : Prop where
  no_dash : '-' ∉ lead
  head : ∀ c ∈ lead.head?, Text.isBlank c = false
  lower : ∀ c ∈ lead, c.toLower = c

/-- The keys that are written: complete digits, behind a lead or without one. Only a lead that names a
    bound says what the digits are. -/
inductive Key : List Char → Prop where
  | plain {digits : List Char} (h : Complete defaultBound digits) : Key digits
  | marked {lead rest : List Char} (hlead : IsLead lead)
    (h : ∀ bound, magnitude (String.ofList lead) = .ok bound → Complete bound rest) :
    Key (lead ++ '-' :: rest)

/-- The digits of an interval behind a magnitude; where the magnitude has a dash of its own, the key is cut
    there. -/
theorem key_of_magnitude {bare : String} (h : magnitude bare = .ok bound)
    (hhead : ∀ c ∈ bare.toList.head?, Text.isBlank c = false)
    (hlower : ∀ c ∈ bare.toList, c.toLower = c) (hdigits : Complete bound digits) :
    Key (bare.toList ++ '-' :: digits) := by
  by_cases hdash : '-' ∈ bare.toList
  · obtain ⟨front, back, hbare, hno⟩ := List.eq_append_cons_of_mem hdash
    rw [hbare] at hhead hlower ⊢
    rw [List.append_assoc, List.cons_append]
    have hfirst : ∀ c ∈ front.head?, Text.isBlank c = false := fun c hc =>
      hhead c (Text.mem_head?_of_prefix (List.prefix_append _ _) hc)
    refine .marked ⟨hno, hfirst, fun c hc => hlower c (List.mem_append_left _ hc)⟩ ?_
    intro bound' hbound'
    rw [magnitude_front_of_dash h hbare hno hfirst] at hbound'
    exact absurd hbound' (by simp)
  · refine .marked ⟨hdash, hhead, hlower⟩ fun bound' hbound' => ?_
    rw [String.ofList_toList, h] at hbound'
    exact Except.ok.inj hbound' ▸ hdigits

/-- **What is written is a key.** -/
theorem key_of_encode {earliest latest : Int} {raw key : String}
    (h : encode earliest latest raw = .ok key) : Key key.toList := by
  obtain ⟨bound, hbound⟩ : ∃ bound, boundFor (bareMagnitude raw) = .ok bound := by
    rw [encode] at h
    obtain ⟨bound, hbound, -⟩ := Except.bind_eq_ok h
    exact ⟨bound, hbound⟩
  rw [encode_eq_of_boundFor hbound] at h
  split at h
  · exact absurd h (by simp)
  · next hin =>
    obtain rfl := Except.ok.inj h
    have hdigits : Complete bound (intervalDigits bound (max earliest latest) (min earliest latest)) := by
      refine ⟨_, _, ?_, rfl⟩
      rw [Box.holds_square_iff]
      omega
    rw [← intervalDigits, pathOf, String.toList_ofList]
    rw [boundFor] at hbound
    split at hbound
    · next hbare =>
      obtain rfl := Except.ok.inj hbound
      rw [if_pos hbare, List.nil_append]
      exact .plain hdigits
    · next hbare =>
      rw [if_neg hbare, List.append_assoc, List.singleton_append]
      refine key_of_magnitude (magnitude_toLower hbound) (head_toLower_bareMagnitude raw) ?_ hdigits
      intro c hc
      rw [Text.toList_toLower] at hc
      obtain ⟨c', -, rfl⟩ := List.mem_map.1 hc
      exact Char.toLower_toLower_eq_toLower c'

/-! ## Cut keys -/

theorem truncate_of_absent {key : String} (h : '-' ∉ key.toList) (depth : Nat) :
    Histogram.truncate key depth = String.ofList (key.toList.take depth) := by
  have hsplit := splitFirst_of_absent h
  rw [String.ofList_toList] at hsplit
  rw [Histogram.truncate, hsplit]

theorem truncate_of_dash {key : String} {lead rest : List Char} (hkey : key.toList = lead ++ '-' :: rest)
    (h : '-' ∉ lead) (depth : Nat) :
    (Histogram.truncate key depth).toList = lead ++ '-' :: rest.take depth := by
  have hsplit := splitFirst_of_dash h rest
  rw [← hkey, String.ofList_toList] at hsplit
  rw [Histogram.truncate, hsplit]
  simp

/-- A path with a dash is read only if a bound is named in front of it. -/
theorem magnitude_of_decode {path : String} {lead rest : List Char} {span : Span}
    (hpath : path.toList = lead ++ '-' :: rest) (hlead : IsLead lead) (h : decode path = .ok span) :
    ∃ bound, magnitude (String.ofList lead) = .ok bound := by
  rw [decode] at h
  obtain ⟨⟨bound, digits⟩, hsplit, -⟩ := Except.bind_eq_ok h
  have htrim : Text.trim path = String.ofList (lead ++ '-' :: rest.rdropWhile Text.isBlank) := by
    rw [Text.trim, hpath, Text.trimChars_append_cons (by decide) hlead.head]
  rw [split, htrim, splitFirst_of_dash hlead.no_dash] at hsplit
  obtain ⟨bound', hbound', -⟩ := Except.map_eq_ok hsplit
  exact ⟨bound', hbound'⟩

variable {key key' : String} {depth : Nat} {span : Span}

/-- Cutting keeps a dash. -/
theorem dash_mem_truncate_iff :
    '-' ∈ (Histogram.truncate key depth).toList ↔ '-' ∈ key.toList := by
  by_cases hdash : '-' ∈ key.toList
  · obtain ⟨lead, rest, hkey, hlead⟩ := List.eq_append_cons_of_mem hdash
    rw [truncate_of_dash hkey hlead, hkey]
    simp
  · rw [truncate_of_absent hdash, String.toList_ofList]
    exact iff_of_false (fun hmem => hdash (List.mem_of_mem_take hmem)) hdash

theorem prefix_truncate (key : String) (depth : Nat) :
    (Histogram.truncate key depth).toList <+: key.toList := by
  by_cases hdash : '-' ∈ key.toList
  · obtain ⟨lead, rest, hkey, hlead⟩ := List.eq_append_cons_of_mem hdash
    rw [truncate_of_dash hkey hlead, hkey, List.prefix_append_right_inj, List.cons_prefix_cons]
    exact ⟨rfl, List.take_prefix _ _⟩
  · rw [truncate_of_absent hdash, String.toList_ofList]
    exact List.take_prefix _ _

/-- What a key is that is cut to a path: complete digits under the bound of the path, behind its lead or
    without one. -/
theorem complete_of_decode_truncate (h : Key key.toList)
    (hspan : decode (Histogram.truncate key depth) = .ok span) :
    Complete defaultBound key.toList ∨ ∃ lead rest bound, key.toList = lead ++ '-' :: rest ∧
      IsLead lead ∧ magnitude (String.ofList lead) = .ok bound ∧ Complete bound rest := by
  generalize htext : key.toList = text at h
  cases h with
  | plain hdigits => exact .inl hdigits
  | @marked lead rest hlead hrest =>
      have hcut := truncate_of_dash htext hlead.no_dash depth
      obtain ⟨bound, hbound⟩ := magnitude_of_decode hcut hlead hspan
      exact .inr ⟨lead, rest, bound, rfl, hlead, hbound, hrest bound hbound⟩

/-- **A key that begins with a cut key is cut to it**, unless it has a magnitude and the cut key has
    none. -/
theorem truncate_eq_iff (h : Key key.toList) (h' : Key key'.toList)
    (hspan : decode (Histogram.truncate key' depth) = .ok span) :
    Histogram.truncate key depth = Histogram.truncate key' depth ↔
      (Histogram.truncate key' depth).toList <+: key.toList ∧
        ('-' ∈ key.toList → '-' ∈ (Histogram.truncate key' depth).toList) := by
  constructor
  · intro he
    rw [← he, dash_mem_truncate_iff]
    exact ⟨prefix_truncate key depth, id⟩
  · rintro ⟨hbegins, hdash⟩
    rw [dash_mem_truncate_iff] at hdash
    rw [← String.toList_inj]
    generalize htext : key.toList = text at h
    rcases complete_of_decode_truncate h' hspan with
      hdigits' | ⟨lead', rest', bound, hkey', hlead', hbound, hrest'⟩
    · -- without a magnitude: so has the key none either
      have hno : '-' ∉ key.toList := fun hmem => hdigits'.no_dash (hdash hmem)
      rw [truncate_of_absent hdigits'.no_dash, String.toList_ofList] at hbegins ⊢
      rw [truncate_of_absent hno, String.toList_ofList]
      cases h with
      | plain hdigits =>
          rw [htext] at hbegins ⊢
          exact (hdigits'.take_eq_iff hdigits depth).2 hbegins
      | marked hlead hrest => exact absurd (htext ▸ (by simp)) hno
    · -- with one: the key has the same, since neither lead has a dash
      rw [truncate_of_dash hkey' hlead'.no_dash, htext] at hbegins
      cases h with
      | plain hdigits => exact absurd (hbegins.subset (by simp)) hdigits.no_dash
      | @marked lead rest hlead hrest =>
          obtain ⟨back, hback⟩ := hbegins
          rw [List.append_assoc, List.cons_append] at hback
          obtain ⟨rfl, hfront⟩ := Text.eq_of_append_cons hlead'.no_dash hlead.no_dash hback
          rw [truncate_of_dash htext hlead.no_dash, truncate_of_dash hkey' hlead'.no_dash,
            (hrest'.take_eq_iff (hrest bound hbound) depth).2 ⟨back, hfront⟩]

/-! ## The text of a cut key -/

/-- The character may stand in a path: white space, a character of a number or a unit. -/
def IsPathChar (c : Char) : Prop :=
  Text.isBlank c = true ∨ c ∈ Decimal.numeralChars ∨ c ∈ ['k', 'm', 'g']

instance : DecidablePred IsPathChar := fun _ => inferInstanceAs (Decidable (_ ∨ _ ∨ _))

theorem IsDigit.isPathChar {c : Char} (h : IsDigit c) : IsPathChar c := by
  rw [isDigit_iff] at h
  fin_cases h <;> decide

theorem isPathChar_of_magnitude {raw : String} (h : magnitude raw = .ok bound) :
    ∀ c ∈ raw.toList, IsPathChar c.toLower := by
  intro c hc
  obtain ⟨factor, x, hfactor, hx, -⟩ := magnitude_eq_ok_iff.1 h
  rw [Text.toList_toLower_trim] at hfactor hx
  by_cases hblank : Text.isBlank c = true
  · exact .inl ((Text.isBlank_toLower c).trans hblank)
  · refine .inr ?_
    have hmem := List.mem_map_of_mem (f := Char.toLower)
      (Text.mem_trimChars_of_not_blank hc (Bool.eq_false_iff.2 hblank))
    generalize (Text.trimChars raw.toList).map Char.toLower = lowered at hmem hfactor hx
    obtain ⟨unit, hunit, hfactor⟩ := Option.bind_eq_some_iff.1 hfactor
    rw [← List.dropLast_append_getLast? unit hunit, List.mem_append, List.mem_singleton] at hmem
    rcases hmem with hnumber | rfl
    · -- in lower case already
      have hnumeral := (Decimal.isNumeral_of_binary64? hx).toLower_mem c.toLower
        (by rwa [String.toList_ofList])
      rw [Char.toLower_toLower_eq_toLower] at hnumeral
      exact .inl hnumeral
    · refine .inr ?_
      unfold unitFactor? at hfactor
      split_ifs at hfactor with hk hm hg
      · simp [hk]
      · simp [hm]
      · simp [hg]

/-- What may stand as a value: the text is in lower case, not blank at its ends and made of the
    characters of paths. -/
structure IsPathText (text : List Char) : Prop where
  lower : ∀ c ∈ text, c.toLower = c
  trimmed : Text.Trimmed text
  chars : ∀ c ∈ text, IsPathChar c

theorem isPathText_of_digits (h : ∀ c ∈ digits, IsDigit c) : IsPathText digits := by
  refine ⟨fun c hc => ?_, trimmed_digits h, fun c hc => (h c hc).isPathChar⟩
  have hdigit := isDigit_iff.1 (h c hc)
  fin_cases hdigit <;> rfl

/-- A cut key that is a path. -/
theorem isPathText_truncate (h : Key key.toList)
    (hspan : decode (Histogram.truncate key depth) = .ok span) :
    IsPathText (Histogram.truncate key depth).toList := by
  rcases complete_of_decode_truncate h hspan with
    hdigits | ⟨lead, rest, bound, hkey, hlead, hbound, hrest⟩
  · rw [truncate_of_absent hdigits.no_dash, String.toList_ofList]
    exact isPathText_of_digits fun c hc => hdigits.isDigit c (List.mem_of_mem_take hc)
  · rw [truncate_of_dash hkey hlead.no_dash]
    have hcut := isPathText_of_digits fun c hc => hrest.isDigit c (List.mem_of_mem_take (i := depth) hc)
    have hall {P : Char → Prop} (hl : ∀ c ∈ lead, P c) (hd : P '-') (hr : ∀ c ∈ rest.take depth, P c) :
        ∀ c ∈ lead ++ '-' :: rest.take depth, P c :=
      List.forall_mem_append.2 ⟨hl, List.forall_mem_cons.2 ⟨hd, hr⟩⟩
    refine ⟨hall hlead.lower (by decide) hcut.lower, ⟨?_, ?_⟩,
      hall (fun c hc => ?_) (by decide) hcut.chars⟩
    · intro c hc
      cases hfirst : lead.head? with
      | none =>
          rw [List.head?_eq_none_iff.1 hfirst] at hc
          obtain rfl : '-' = c := by simpa using hc
          decide
      | some d =>
          rw [List.head?_append, hfirst] at hc
          obtain rfl : d = c := by simpa using hc
          exact hlead.head d hfirst
    · intro c hc
      rw [List.getLast?_append_of_ne_nil _ (by simp)] at hc
      rcases List.mem_cons.1 (List.mem_of_mem_getLast? hc) with rfl | hmem
      · decide
      · exact (hrest.isDigit c (List.mem_of_mem_take hmem)).not_blank
    · rw [← hlead.lower c hc]
      exact isPathChar_of_magnitude hbound c (by rwa [String.toList_ofList])

end FacetSearch.Chronology
