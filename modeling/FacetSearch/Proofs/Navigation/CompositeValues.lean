import FacetSearch.Navigation.EntityFacet
import FacetSearch.Proofs.Entity.Records
import FacetSearch.Proofs.Text.Pieces

set_option autoImplicit false

/-! # Values in four parts

A facet value is cut at no more than its first three delimiters, so its label may hold any number of
them. An underscore at the end of a slug or a URI would move the cut behind it to the left. The texts
that neither hold a delimiter nor end with an underscore are exactly the slugs and URIs that are read
back (`parse_text_iff`), and the slug of any value is what stands in front of its first delimiter. -/

namespace FacetSearch

/-! ## At most so many cuts -/

namespace Text

variable {separator text left : List Char}

theorem piecesUpTo_of_absent (h : ¬ separator <:+: text) (cuts : Nat) :
    piecesUpTo separator cuts text = [text] := by
  cases cuts with
  | zero => rfl
  | succ cuts => rw [piecesUpTo, cutFirst_eq_none_iff.2 h]

theorem piecesUpTo_of_clear (hs : separator ≠ []) (h : Clear separator left) (cuts : Nat)
    (right : List Char) :
    piecesUpTo separator (cuts + 1) (left ++ separator ++ right)
      = left :: piecesUpTo separator cuts right := by
  rw [piecesUpTo, cutFirst_of_clear hs h]

/-- What is read from a text with a separator: a clear front, and the pieces of what is behind it. -/
theorem exists_piecesUpTo (hs : separator ≠ []) (h : separator <:+: text) (cuts : Nat) :
    ∃ left right, Clear separator left ∧ text = left ++ separator ++ right ∧
      piecesUpTo separator (cuts + 1) text = left :: piecesUpTo separator cuts right := by
  cases hcut : cutFirst separator text with
  | none => exact absurd h (cutFirst_eq_none_iff.1 hcut)
  | some found =>
    obtain ⟨left, right⟩ := found
    have hclear := clear_of_cutFirst hs hcut
    have htext := eq_of_cutFirst hcut
    refine ⟨left, right, hclear, htext, ?_⟩
    rw [htext, piecesUpTo_of_clear hs hclear]

/-- A clear front is in front of every separator of the text. -/
theorem Clear.length_le {right front back : List Char} (h : Clear separator left)
    (htext : left ++ separator ++ right = front ++ separator ++ back) :
    left.length ≤ front.length := by
  by_contra hshort
  -- an earlier separator would end within the front and the separator behind it
  have hearlier : front ++ separator <+: left ++ separator.dropLast := by
    have hfront : front ++ separator <+: left ++ separator ++ right := by
      rw [htext]
      exact List.prefix_append _ _
    refine List.prefix_of_prefix_length_le hfront ?_ ?_
    · rw [List.append_assoc]
      exact (List.prefix_append_right_inj left).2
        ((List.dropLast_prefix separator).trans (List.prefix_append _ _))
    · simp only [List.length_append, List.length_dropLast]
      omega
  exact h (List.infix_append_right.trans hearlier.isInfix)

end Text

/-! ## The parts of a value -/

namespace CompositeValue

/-- The value as the index writes it. -/
def text (v : CompositeValue) : String :=
  v.slug ++ Field.delimiter ++ v.kind.suffix ++ Field.delimiter ++ v.uri ++ Field.delimiter ++ v.label

/-- The text can stand in front of a delimiter: it holds none and does not end with its character. -/
def IsPart (text : String) : Prop :=
  ¬ Field.delimiter.toList <:+: text.toList ∧ text.toList.getLast? ≠ some '_'

instance : DecidablePred IsPart := fun _ => inferInstanceAs (Decidable (_ ∧ _))

theorem isPart_iff_clear {text : String} :
    IsPart text ↔ Text.Clear Field.delimiter.toList text.toList :=
  (Text.clear_replicate_iff (c := '_') (m := 2)).symm

theorem delimiter_ne_nil : Field.delimiter.toList ≠ [] := by
  decide

theorem isPart_suffix (kind : DataKind) : IsPart kind.suffix := by
  cases kind <;> decide

/-- The delimiters that a written value is put together with, as one text. -/
theorem toList_text (v : CompositeValue) :
    v.text.toList = v.slug.toList ++ Field.delimiter.toList ++
      (v.kind.suffix.toList ++ Field.delimiter.toList ++
        (v.uri.toList ++ Field.delimiter.toList ++ v.label.toList)) := by
  simp only [text, String.toList_append, List.append_assoc]

/-- What a value is read as whose pieces are known. -/
theorem parse_eq {raw : String} {pieces : List (List Char)}
    (h : Text.piecesUpTo Field.delimiter.toList 3 raw.toList = pieces) :
    parse raw = {
      slug := (pieces.map String.ofList)[0]?.getD ""
      kind := ((pieces.map String.ofList)[1]?.bind DataKind.ofSuffix?).getD .id
      uri := (pieces.map String.ofList)[2]?.getD ""
      label := (pieces.map String.ofList)[3]?.getD "" } := by
  rw [parse, h]

theorem slug_parse_of_present {raw : String} (h : Field.delimiter.toList <:+: raw.toList) :
    ∃ rest, raw = (parse raw).slug ++ Field.delimiter ++ rest ∧ IsPart (parse raw).slug := by
  obtain ⟨left, right, hclear, htext, hpieces⟩ := Text.exists_piecesUpTo delimiter_ne_nil h 2
  rw [parse_eq hpieces]
  refine ⟨String.ofList right, ?_, ?_⟩
  · rw [← String.toList_inj]
    simpa using htext
  · rw [isPart_iff_clear]
    simpa using hclear

theorem parse_of_absent {raw : String} (h : ¬ Field.delimiter.toList <:+: raw.toList) :
    parse raw = ⟨raw, .id, "", ""⟩ := by
  rw [parse_eq (Text.piecesUpTo_of_absent h 3)]
  simp

/-- A written value whose slug is a part is read from behind its slug. -/
theorem piecesUpTo_text {v : CompositeValue} (h : IsPart v.slug) :
    Text.piecesUpTo Field.delimiter.toList 3 v.text.toList
      = v.slug.toList :: v.kind.suffix.toList ::
        Text.piecesUpTo Field.delimiter.toList 1
          (v.uri.toList ++ Field.delimiter.toList ++ v.label.toList) := by
  rw [toList_text, Text.piecesUpTo_of_clear delimiter_ne_nil (isPart_iff_clear.1 h),
    Text.piecesUpTo_of_clear delimiter_ne_nil (isPart_iff_clear.1 (isPart_suffix v.kind))]

/-- **A written value is read back exactly when its slug and its URI neither hold a delimiter nor end with
    an underscore**, whatever its kind and its label are. And of every text, the slug is what stands in
    front of its first delimiter; a text without one is a slug, with nothing else known. -/
theorem parse_text_iff :
    (∀ v : CompositeValue, parse v.text = v ↔ IsPart v.slug ∧ IsPart v.uri) ∧
    ∀ raw : String,
      (Field.delimiter.toList <:+: raw.toList →
        ∃ rest, raw = (parse raw).slug ++ Field.delimiter ++ rest ∧
          ∀ front back, raw = front ++ Field.delimiter ++ back →
            (parse raw).slug.length ≤ front.length) ∧
      (¬ Field.delimiter.toList <:+: raw.toList → parse raw = ⟨raw, .id, "", ""⟩) := by
  refine ⟨fun v => ⟨fun hread => ?_, ?_⟩, fun raw => ⟨fun hpresent => ?_, parse_of_absent⟩⟩
  · have hpresent : Field.delimiter.toList <:+: v.text.toList := by
      rw [toList_text]
      exact List.infix_append _ _ _
    obtain ⟨-, -, hslug⟩ := slug_parse_of_present hpresent
    rw [hread] at hslug
    have hpresent' : Field.delimiter.toList
        <:+: v.uri.toList ++ Field.delimiter.toList ++ v.label.toList :=
      List.infix_append _ _ _
    obtain ⟨left, right, hclear, -, hpieces⟩ :=
      Text.exists_piecesUpTo delimiter_ne_nil hpresent' 0
    have huri := congrArg uri (hread.symm.trans (parse_eq (piecesUpTo_text hslug)))
    rw [hpieces] at huri
    refine ⟨hslug, ?_⟩
    rw [isPart_iff_clear, huri]
    simpa using hclear
  · intro hparts
    obtain ⟨hslug, huri⟩ := hparts
    rw [parse_eq (piecesUpTo_text hslug),
      Text.piecesUpTo_of_clear delimiter_ne_nil (isPart_iff_clear.1 huri), Text.piecesUpTo]
    simp [DataKind.ofSuffix?_suffix]
  · obtain ⟨rest, hraw, hslug⟩ := slug_parse_of_present hpresent
    refine ⟨rest, hraw, ?_⟩
    intro front back hfront
    have htext := congrArg String.toList (hraw.symm.trans hfront)
    simp only [String.toList_append] at htext
    have hle := (isPart_iff_clear.1 hslug).length_le htext
    rwa [String.length_toList, String.length_toList] at hle

/-- A numeric field whose URI begins with an underscore, with a label that looks like more parts. -/
theorem parse_text_iff_sherdWeight :
    CompositeValue.IsPart "sherd-weight" ∧ CompositeValue.IsPart "_weights/7" ∧
      CompositeValue.parse "sherd-weight___numeric____weights/7____Weight___id___in g_"
        = ⟨"sherd-weight", .numeric, "_weights/7", "_Weight___id___in g_"⟩ := by
  have hparts : IsPart "sherd-weight" ∧ IsPart "_weights/7" := by decide
  exact ⟨hparts.1, hparts.2,
    (parse_text_iff.1 ⟨"sherd-weight", .numeric, "_weights/7", "_Weight___id___in g_"⟩).2 hparts⟩

end CompositeValue

end FacetSearch
