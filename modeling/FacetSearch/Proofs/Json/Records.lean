import FacetSearch.Json.Record
import Mathlib

set_option autoImplicit false

/-! # What records are read as

A reader of records looks its fields up one after the other. What it reads is said here of the members
themselves, in any order and with any others among them: a field is `Given`, or left out with a value of
its own (`GivenOr`), and no field stands twice (`NoneTwice`). `bind_record?_eq_some_iff` goes from the
fields to the record, so that a record within a record is a value like any other. -/

namespace FacetSearch.Json

variable {α : Type}

/-! ## Members -/

/-- The members that a value gives for the fields `names`: those of an object, or the items of an array
    in the order of the fields. -/
inductive GivesMembers (names : List String) : Json → List (String × Json) → Prop
  | object (members : List (String × Json)) : GivesMembers names (.object members) members
  | array {items : List Json} (h : items.length ≤ names.length) :
      GivesMembers names (.array items) (names.zip items)

/-- No field is repeated. -/
def NoneTwice (names : List String) (members : List (String × Json)) : Prop :=
  ∀ name ∈ names, (members.map Prod.fst).count name ≤ 1

instance {names : List String} {members : List (String × Json)} : Decidable (NoneTwice names members) :=
  inferInstanceAs (Decidable (∀ name ∈ names, _))

/-- The members of an object. -/
def members : Json → List (String × Json)
  | .object members => members
  | _ => []

/-- The members that are fields; the others are ignored. -/
def known (names : List String) (members : List (String × Json)) : List (String × Json) :=
  members.filter fun member => names.contains member.1

/-- The field is there, and what it holds is `x`. -/
def Given (members : List (String × Json)) (name : String) (holds : Json → α → Prop) (x : α) : Prop :=
  ∃ value, (name, value) ∈ members ∧ holds value x

/-- The field is there and holds `x`, or it is left out and `x` is its default. -/
def GivenOr (default : α) (members : List (String × Json)) (name : String) (holds : Json → α → Prop)
    (x : α) : Prop :=
  Given members name holds x ∨ (∀ value, (name, value) ∉ members) ∧ x = default

/-- Where the field is there, it holds something of its type. -/
def WellTyped (members : List (String × Json)) (name : String) (holds : Json → α → Prop) : Prop :=
  ∀ value, (name, value) ∈ members → ∃ x, holds value x

/-- What a field holds that may be null for nothing. -/
def OrNull (holds : Json → α → Prop) (value : Json) (found : Option α) : Prop :=
  (value = .null ∧ found = none) ∨ ∃ x, holds value x ∧ found = some x

/-- The value is a record whose members, no field twice, describe `x`. -/
def IsRecord (names : List String) (describes : List (String × Json) → α → Prop) (value : Json)
    (x : α) : Prop :=
  ∃ members, GivesMembers names value members ∧ NoneTwice names members ∧ describes members x

theorem WellTyped.exists_givenOr {members : List (String × Json)} {name : String}
    {holds : Json → α → Prop} (h : WellTyped members name holds) (default : α) :
    ∃ x, GivenOr default members name holds x := by
  by_cases hmem : ∃ value, (name, value) ∈ members
  · obtain ⟨value, hvalue⟩ := hmem
    obtain ⟨x, hx⟩ := h value hvalue
    exact ⟨x, .inl ⟨value, hvalue, hx⟩⟩
  · exact ⟨default, .inr ⟨not_exists.1 hmem, rfl⟩⟩

theorem NoneTwice.of_sublist {names : List String} (hnames : names.Nodup)
    {members : List (String × Json)} (h : (members.map Prod.fst).Sublist names) :
    NoneTwice names members :=
  fun name _ => List.nodup_iff_count_le_one.1 (hnames.sublist h) name

section

variable {names : List String} {members : List (String × Json)} {name : String}
  {holds : Json → α → Prop} {value : Json} {x : α}

theorem isRecord_object_iff {describes : List (String × Json) → α → Prop} :
    IsRecord names describes (.object members) x ↔ NoneTwice names members ∧ describes members x := by
  constructor
  · rintro ⟨_, ⟨_⟩, htwice, hx⟩
    exact ⟨htwice, hx⟩
  · rintro ⟨htwice, hx⟩
    exact ⟨members, .object members, htwice, hx⟩

theorem given_iff_of_mem (h : ∀ other, (name, other) ∈ members ↔ other = value) :
    Given members name holds x ↔ holds value x := by
  simp only [Given, h, exists_eq_left]

theorem givenOr_iff_of_mem {default : α} (h : ∀ other, (name, other) ∈ members ↔ other = value) :
    GivenOr default members name holds x ↔ holds value x := by
  have hthere : ¬ ∀ other, other ≠ value := fun hall => hall value rfl
  simp only [GivenOr, given_iff_of_mem h, h, hthere, false_and, or_false]

end

/-! ## Looking members up -/

theorem distinctNames_iff (members : List (String × Json)) :
    distinctNames members = true ↔ (members.map Prod.fst).Nodup := by
  induction members with
  | nil => simp [distinctNames]
  | cons member rest ih =>
      obtain ⟨name, value⟩ := member
      have habsent : rest.lookup name = none ↔ name ∉ rest.map Prod.fst := by
        rw [List.lookup_eq_none_iff]
        simp only [List.mem_map, not_exists, not_and, bne_iff_ne]
        exact forall₂_congr fun _ _ => ne_comm
      rw [distinctNames, Bool.and_eq_true, ih, List.map_cons, List.nodup_cons,
        Option.isNone_iff_eq_none, habsent]

theorem distinctNames_known_iff (names : List String) (members : List (String × Json)) :
    distinctNames (known names members) = true ↔ NoneTwice names members := by
  have hnames : (known names members).map Prod.fst
      = (members.map Prod.fst).filter (names.contains ·) := by
    rw [List.filter_map]
    rfl
  rw [distinctNames_iff, List.nodup_iff_count_le_one, hnames]
  refine forall_congr' fun name => ?_
  by_cases hname : name ∈ names
  · rw [List.count_filter (by simpa using hname)]
    simp [hname]
  · rw [List.count_eq_zero_of_not_mem fun hmem => hname (by simpa using (List.mem_filter.1 hmem).2)]
    simp [hname]

theorem lookup_known {names : List String} {name : String} (h : name ∈ names)
    (members : List (String × Json)) : (known names members).lookup name = members.lookup name := by
  induction members with
  | nil => rfl
  | cons member rest ih =>
      obtain ⟨other, value⟩ := member
      by_cases hother : other ∈ names
      · rw [known, List.filter_cons_of_pos (by simpa using hother), List.lookup_cons,
          List.lookup_cons, ← known, ih]
      · have hne : (name == other) = false := by
          rw [beq_eq_false_iff_ne]
          rintro rfl
          exact hother h
        rw [known, List.filter_cons_of_neg (by simpa using hother), ← known, ih, List.lookup_cons, hne]

theorem lookup_eq_some_iff_mem {members : List (String × Json)} {name : String}
    (h : (members.map Prod.fst).count name ≤ 1) (value : Json) :
    members.lookup name = some value ↔ (name, value) ∈ members := by
  induction members with
  | nil => simp
  | cons member rest ih =>
      obtain ⟨other, held⟩ := member
      rw [List.map_cons, List.count_cons] at h
      by_cases hother : name = other
      · subst hother
        have habsent : name ∉ rest.map Prod.fst := by
          rw [← List.count_eq_zero]
          simpa using h
        have hmem : (name, value) ∉ rest := fun hmem =>
          habsent (List.mem_map_of_mem (f := Prod.fst) hmem)
        simp [hmem, eq_comm]
      · have hne : (name == other) = false := beq_eq_false_iff_ne.2 hother
        rw [List.lookup_cons, hne]
        dsimp only
        rw [ih (by omega)]
        simp [hother]

theorem lookup_eq_none_iff_not_mem {members : List (String × Json)} {name : String} :
    members.lookup name = none ↔ ∀ value, (name, value) ∉ members := by
  rw [List.lookup_eq_none_iff]
  constructor
  · intro h value hmem
    simpa using h _ hmem
  · rintro h ⟨other, value⟩ hmem
    rw [bne_iff_ne]
    rintro rfl
    exact h value hmem

section

variable {names : List String} {members : List (String × Json)} {name : String}
  {holds : Json → α → Prop} {value : Json} {x : α}

/-- A field that is not repeated has one value. -/
theorem NoneTwice.mem_iff (h : NoneTwice names members) (hname : name ∈ names)
    (hmem : (name, value) ∈ members) (other : Json) : (name, other) ∈ members ↔ other = value := by
  have hlookup := lookup_eq_some_iff_mem (h name hname)
  rw [← hlookup, (hlookup value).2 hmem, Option.some.injEq, eq_comm]

theorem NoneTwice.given_iff (h : NoneTwice names members) (hname : name ∈ names)
    (hmem : (name, value) ∈ members) : Given members name holds x ↔ holds value x :=
  given_iff_of_mem (h.mem_iff hname hmem)

theorem NoneTwice.givenOr_iff {default : α} (h : NoneTwice names members) (hname : name ∈ names)
    (hmem : (name, value) ∈ members) : GivenOr default members name holds x ↔ holds value x :=
  givenOr_iff_of_mem (h.mem_iff hname hmem)

end

/-! ## Records and their fields -/

/-- The record holds the members of its fields, none of them twice. -/
structure Presents (names : List String) (members : List (String × Json)) (r : Record) : Prop where
  noneTwice : NoneTwice names members
  lookup : ∀ name ∈ names, r.members.lookup name = members.lookup name

section

variable {names : List String} {members : List (String × Json)} {r : Record} {name : String}
  {read : Json → Option α} {holds : Json → α → Prop} {x : α}

theorem Presents.required_eq_some_iff (h : Presents names members r) (hname : name ∈ names)
    (hread : ∀ value x, read value = some x ↔ holds value x) :
    r.required name read = some x ↔ Given members name holds x := by
  rw [Record.required, h.lookup name hname, Option.bind_eq_some_iff]
  simp only [lookup_eq_some_iff_mem (h.noneTwice name hname), hread]
  rfl

theorem Presents.withDefault_eq_some_iff (h : Presents names members r) (hname : name ∈ names)
    (hread : ∀ value x, read value = some x ↔ holds value x) (default : α) :
    r.withDefault name default read = some x ↔ GivenOr default members name holds x := by
  have hgiven := h.required_eq_some_iff hname hread (x := x)
  have hnone : members.lookup name = none ↔ ∀ value, (name, value) ∉ members :=
    lookup_eq_none_iff_not_mem
  rw [GivenOr, ← hgiven, ← hnone, Record.withDefault, Record.required, h.lookup name hname]
  cases members.lookup name with
  | none => simp [eq_comm]
  | some value => simp

theorem nullable_eq_some_iff (hread : ∀ value x, read value = some x ↔ holds value x)
    (hnull : read .null = none) (value : Json) (found : Option α) :
    Record.nullable read value = some found ↔ OrNull holds value found := by
  unfold Record.nullable OrNull
  split
  · simp [← hread, hnull, eq_comm]
  · next hvalue =>
    have hne : value ≠ .null := hvalue
    simp [hne, ← hread, eq_comm]

theorem Presents.optional_eq_some_iff {found : Option α} (h : Presents names members r)
    (hname : name ∈ names) (hread : ∀ value x, read value = some x ↔ holds value x)
    (hnull : read .null = none) :
    r.optional name read = some found ↔ GivenOr none members name (OrNull holds) found :=
  h.withDefault_eq_some_iff hname (nullable_eq_some_iff hread hnull) none

theorem exists_presents_of_record? (hnames : names.Nodup) {value : Json}
    (h : value.record? names = some r) :
    ∃ members, GivesMembers names value members ∧ Presents names members r := by
  cases value with
  | object members =>
      rw [record?] at h
      split at h
      · next hdistinct =>
        obtain rfl := Option.some.inj h
        exact ⟨members, .object members, (distinctNames_known_iff names members).1 hdistinct,
          fun name hname => lookup_known hname members⟩
      · exact absurd h (by simp)
  | array items =>
      rw [record?] at h
      split at h
      · next hlength =>
        obtain rfl := Option.some.inj h
        refine ⟨_, .array hlength, .of_sublist hnames ?_, fun _ _ => rfl⟩
        rw [List.zip_eq_zip_take_min, Nat.min_eq_right hlength, List.take_length,
          List.map_fst_zip (by simp)]
        exact List.take_sublist _ _
      · exact absurd h (by simp)
  | _ => exact absurd h (by simp [record?])

theorem GivesMembers.exists_presents {value : Json} (h : GivesMembers names value members)
    (htwice : NoneTwice names members) :
    ∃ r, value.record? names = some r ∧ Presents names members r := by
  cases h with
  | object =>
      refine ⟨⟨known names members, false⟩, ?_, htwice, fun name hname => lookup_known hname members⟩
      rw [record?, ← known, if_pos ((distinctNames_known_iff names members).2 htwice)]
  | array hlength => exact ⟨_, by rw [record?, if_pos hlength], htwice, fun _ _ => rfl⟩

/-- **A record is read from the values that are records of what it is read as**, when its fields are read
    from members like that. -/
theorem bind_record?_eq_some_iff (hnames : names.Nodup) {read : Record → Option α}
    {describes : List (String × Json) → α → Prop}
    (h : ∀ r members, Presents names members r → ∀ x, read r = some x ↔ describes members x)
    (value : Json) (x : α) :
    (value.record? names).bind read = some x ↔ IsRecord names describes value x := by
  constructor
  · intro hread
    obtain ⟨r, hr, hx⟩ := Option.bind_eq_some_iff.1 hread
    obtain ⟨members, hgives, hpresents⟩ := exists_presents_of_record? hnames hr
    exact ⟨members, hgives, hpresents.noneTwice, (h r members hpresents x).1 hx⟩
  · rintro ⟨members, hgives, htwice, hx⟩
    obtain ⟨r, hr, hpresents⟩ := hgives.exists_presents htwice
    rw [hr, Option.bind_some]
    exact (h r members hpresents x).2 hx

/-- Members that are no fields change nothing. -/
theorem record?_object_congr {members' : List (String × Json)}
    (h : known names members = known names members') :
    (Json.object members).record? names = (Json.object members').record? names := by
  rw [record?, record?, ← known, ← known, h]

end

/-! ## Values -/

/-- The value is the one that `write` gives for `x`. -/
def As (write : α → Json) (value : Json) (x : α) : Prop := value = write x

/-- A choice by its name, which may also be the only member of an object, with null. -/
def IsChoice (value : Json) (name : String) : Prop :=
  value = .string name ∨ value = .object [(name, .null)]

/-- The binary64 number that a number of a text stands for. -/
def Numeral.nearest : Numeral → Binary64
  | .integer n => .ofInt n
  | .real x => x

/-- Any number. -/
def IsNumber (value : Json) (x : Binary64) : Prop :=
  ∃ n : Numeral, value = .number n ∧ x = Numeral.nearest n

/-- A signed 64-bit number. -/
def IsInt64 (value : Json) (z : Int) : Prop :=
  value = .number (.integer z) ∧ Decimal.fitsInt64 z = true

theorem string?_eq_some_iff (value : Json) (text : String) :
    value.string? = some text ↔ As .string value text := by
  cases value <;> simp [string?, As]

theorem bool?_eq_some_iff (value : Json) (b : Bool) : value.bool? = some b ↔ As .bool value b := by
  cases value <;> simp [bool?, As]

theorem int64?_eq_some_iff (value : Json) (z : Int) : value.int64? = some z ↔ IsInt64 value z := by
  unfold int64? IsInt64
  split
  · simp only [Option.ite_none_right_eq_some, Option.some.injEq, Json.number.injEq,
      Numeral.integer.injEq]
    constructor
    · rintro ⟨hfits, rfl⟩
      exact ⟨rfl, hfits⟩
    · rintro ⟨rfl, hfits⟩
      exact ⟨hfits, rfl⟩
  · next hvalue =>
    refine iff_of_false (by simp) ?_
    rintro ⟨rfl, -⟩
    exact hvalue z rfl

theorem binary64?_eq_some_iff (value : Json) (x : Binary64) :
    value.binary64? = some x ↔ IsNumber value x := by
  unfold binary64? IsNumber
  split
  · simp [Numeral.nearest, eq_comm]
  · simp [Numeral.nearest, eq_comm]
  · next hinteger hreal =>
    refine iff_of_false (by simp) ?_
    rintro ⟨n | y, rfl, -⟩
    · exact hinteger n rfl
    · exact hreal y rfl

theorem choice?_eq_some_iff (value : Json) (name : String) :
    value.choice? = some name ↔ IsChoice value name := by
  unfold choice? IsChoice
  split
  · simp
  · simp
  · next hstring hobject =>
    refine iff_of_false (by simp) ?_
    rintro (rfl | rfl)
    · exact hstring name rfl
    · exact hobject name rfl

theorem mapM_string?_eq_some_iff {items : List Json} {texts : List String} :
    items.mapM string? = some texts ↔ items = texts.map .string := by
  induction items generalizing texts with
  | nil => cases texts <;> simp
  | cons item rest ih =>
      simp only [List.mapM_cons, Option.bind_eq_bind, Option.bind_eq_some_iff, ih,
        string?_eq_some_iff, As, Option.pure_def, Option.some.injEq]
      constructor
      · rintro ⟨text, rfl, texts, rfl, rfl⟩
        rfl
      · intro h
        cases texts with
        | nil => exact absurd h (by simp)
        | cons text texts =>
            obtain ⟨rfl, rfl⟩ := List.cons.inj h
            exact ⟨text, rfl, texts, rfl, rfl⟩

theorem strings?_eq_some_iff (value : Json) (texts : List String) :
    list? string? value = some texts ↔ As strings value texts := by
  cases value with
  | array items => rw [list?, mapM_string?_eq_some_iff, As, strings, Json.array.injEq]
  | _ => simp [list?, As, strings]

end FacetSearch.Json
