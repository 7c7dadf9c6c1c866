import FacetSearch.Index.Point
import FacetSearch.Proofs.Calendar.Timestamps
import FacetSearch.Proofs.Number.WholeNumbers
import FacetSearch.Proofs.Text.Trimming

set_option autoImplicit false

/-! # Dates on a range axis

A date is read as the whole second that it names (`date_eq_ok_iff`), and seconds of the years from 0 to
9999 are written as timestamps in universal time that are read back (`date_of_timestamp`). So every
way to write an instant leads to one text: texts that name the same second are written the same, and
the texts are ordered as the seconds are (`render_date_canonical`). -/

namespace FacetSearch.Point

open Calendar

variable {text text' : String} {x x' : Binary64} {instant : Int}

/-! ## Reading -/

/-- The instant that a text names, with white space around it. -/
def instantOf? (text : String) : Option Int := instant? (Text.trim text).toList

theorem date_eq_ok_iff :
    date text = .ok x ↔ ∃ instant, instantOf? text = some instant ∧ .ofInt instant = x := by
  unfold date instantOf?
  dsimp only
  cases instant? (Text.trim text).toList with
  | none => simp
  | some instant => simp

/-- A plain date names its midnight. -/
theorem instantOf?_of_dateText {d : Date} (h : d.isValid = true) (hlow : 0 ≤ d.year)
    (hhigh : d.year ≤ 9999) (htext : (Text.trim text).toList = dateText d) :
    instantOf? text = some (d.at 0) ∧
      timestamp (d.at 0) = some (Text.trim text ++ "T00:00:00Z") := by
  have hsign := leadingSign_dateText d []
  rw [List.append_nil] at hsign
  have hplain := (plainDate?_eq_some_iff hsign).2 ⟨h, hlow, hhigh, rfl⟩
  constructor
  · rw [instantOf?, htext, instant?, hplain]
  · rw [timestamp_of_plainDate? hsign hplain, ← htext, String.ofList_toList]

/-! ## Writing -/

theorem natAbs_lt_of_writable (h : Writable instant) : instant.natAbs < 2 ^ 53 := by
  have hwithin := writable_iff.1 h
  omega

theorem nearestSecond?_of_ne_nan (h : x ≠ .nan) : nearestSecond? x = x.round.truncate? := by
  cases x with
  | nan => exact absurd rfl h
  | finite negative units => rfl
  | infinite negative => rfl

/-- **An instant of the years from 0 to 9999 is written as a timestamp.** -/
theorem timestamp_eq_render (h : Writable instant) :
    timestamp instant = some (render .date (.ofInt instant)) := by
  have hsize := natAbs_lt_of_writable h
  have hwritten := timestamp_eq_some_iff.2 ⟨h, rfl⟩
  rw [render, nearestSecond?_of_ne_nan (Binary64.ofInt_ne_nan hsize),
    Binary64.truncate?_round_ofInt hsize, Option.bind_some, hwritten, Option.getD_some]

theorem trim_of_timestamp {written : String} (h : timestamp instant = some written) :
    Text.trim written = written := by
  obtain ⟨-, rfl⟩ := timestamp_eq_some_iff.1 h
  rw [Text.trim, String.toList_ofList, Text.trimChars_eq_self_iff.2]
  constructor
  · intro c hc
    have hdigit := isDigit_head_dateText _ _ c hc
    rw [Decimal.isDigit_eq] at hdigit
    exact Text.isBlank_of_isDigit hdigit
  · intro c hc
    rw [timestampText, ← List.cons_append, ← List.append_assoc, List.getLast?_concat] at hc
    rw [← Option.some.inj hc]
    decide

/-- **A written instant names itself.** -/
theorem instantOf?_of_timestamp {written : String} (h : timestamp instant = some written) :
    instantOf? written = some instant := by
  rw [instantOf?, trim_of_timestamp h]
  exact instant?_of_timestamp h

/-- Instants are written the same only when they are the same. -/
theorem render_eq_iff {later : Int} (h : Writable instant) (h' : Writable later) :
    render .date (.ofInt instant) = render .date (.ofInt later) ↔ instant = later := by
  have hread := instantOf?_of_timestamp (timestamp_eq_render h)
  have hread' := instantOf?_of_timestamp (timestamp_eq_render h')
  constructor
  · intro hsame
    rw [hsame] at hread
    exact Option.some.inj (hread.symm.trans hread')
  · intro hsame
    rw [hsame]

theorem date_of_timestamp {written : String} (h : timestamp instant = some written) :
    date written = .ok (.ofInt instant) :=
  date_eq_ok_iff.2 ⟨instant, instantOf?_of_timestamp h, rfl⟩

/-! ## One text for each instant -/

/-- **Dates have one written form.** Texts that can be read as dates name instants. An instant of the
    years from 0 to 9999 is written with the fields of its date and its time of day in universal time,
    and read back from that. Two such instants are written the same only when they are the same, and in
    the order of their texts. Every plain date of these years can be read, and is written with a
    midnight behind it. -/
theorem render_date_canonical (h : date text = .ok x) (h' : date text' = .ok x') :
    (∃ instant later : Int,
      instantOf? text = some instant ∧ .ofInt instant = x ∧
      instantOf? text' = some later ∧ .ofInt later = x' ∧
      (Writable instant →
        (∃ (d : Date) (second : Nat), d.isValid = true ∧ 0 ≤ d.year ∧ d.year ≤ 9999 ∧ second < 86400 ∧
          d.at second = instant ∧ render .date x = String.ofList (timestampText d second)) ∧
        date (render .date x) = .ok x ∧ instantOf? (render .date x) = some instant ∧
        (Writable later →
          (render .date x = render .date x' ↔ instant = later) ∧
          (render .date x < render .date x' ↔ instant < later)))) ∧
    ∀ (plain : String) (d : Date), d.isValid = true → 0 ≤ d.year → d.year ≤ 9999 →
      (Text.trim plain).toList = dateText d →
        date plain = .ok (.ofInt (d.at 0)) ∧
          render .date (.ofInt (d.at 0)) = Text.trim plain ++ "T00:00:00Z" := by
  obtain ⟨instant, hread, rfl⟩ := date_eq_ok_iff.1 h
  obtain ⟨later, hread', rfl⟩ := date_eq_ok_iff.1 h'
  refine ⟨⟨instant, later, hread, rfl, hread', rfl, ?_⟩, ?_⟩
  · intro hwritable
    have hwritten := timestamp_eq_render hwritable
    refine ⟨?_, date_of_timestamp hwritten, instantOf?_of_timestamp hwritten, ?_⟩
    · obtain ⟨hlow, hhigh⟩ := secondOfDay_within instant
      refine ⟨instantDate instant, (secondOfDay instant).toNat, isValid_instantDate instant,
        hwritable.1, hwritable.2, ?_, ?_, (timestamp_eq_some_iff.1 hwritten).2⟩
      · rw [daySeconds] at hhigh
        omega
      · rw [Int.toNat_of_nonneg hlow, instantDate_at]
    · intro hwritable'
      have hwritten' := timestamp_eq_render hwritable'
      exact ⟨render_eq_iff hwritable hwritable', timestamp_lt_iff hwritten hwritten'⟩
  · intro plain d hvalid hlow hhigh htext
    obtain ⟨hmidnight, hplain⟩ := instantOf?_of_dateText hvalid hlow hhigh htext
    have hwritten := timestamp_eq_render (timestamp_eq_some_iff.1 hplain).1
    exact ⟨date_eq_ok_iff.2 ⟨d.at 0, hmidnight, rfl⟩, Option.some.inj (hwritten.symm.trans hplain)⟩

/-- A leap second, given with its fraction in another zone, is written as the second before it, and
    before the day that follows. -/
theorem render_date_canonical_leapSecond :
    date "2017-01-01T01:59:60.25+02:00" = .ok (.ofInt 1483228799) ∧
      date " 2017-01-01" = .ok (.ofInt 1483228800) ∧
      date (render .date (.ofInt 1483228799)) = .ok (.ofInt 1483228799) ∧
      render .date (.ofInt 1483228799) < render .date (.ofInt 1483228800) ∧
      render .date (.ofInt 1483228800) = "2017-01-01T00:00:00Z" := by
  have hleap : instantOf? "2017-01-01T01:59:60.25+02:00" = some 1483228799 := by decide
  have hnext : instantOf? " 2017-01-01" = some 1483228800 := by decide
  have hleapDate := date_eq_ok_iff.2 ⟨_, hleap, rfl⟩
  have hnextDate := date_eq_ok_iff.2 ⟨_, hnext, rfl⟩
  obtain ⟨⟨instant, later, hread, -, hread', -, hwritten⟩, hplain⟩ :=
    render_date_canonical hleapDate hnextDate
  obtain rfl := Option.some.inj (hleap.symm.trans hread)
  obtain rfl := Option.some.inj (hnext.symm.trans hread')
  obtain ⟨-, hback, -, horder⟩ := hwritten (by decide)
  obtain ⟨-, hmidnight⟩ := hplain " 2017-01-01" ⟨2017, 1, 1⟩ (by decide) (by decide) (by decide)
    (by decide)
  exact ⟨hleapDate, hnextDate, hback, (horder (by decide)).2.2 (by decide), hmidnight⟩

end FacetSearch.Point
