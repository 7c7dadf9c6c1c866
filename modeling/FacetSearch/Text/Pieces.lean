import FacetSearch.Text.Blank

set_option autoImplicit false

/-! # Cutting texts at a separator

A separator is a text of any length. `cutFirst` finds its leftmost occurrence and `cutLast` its
rightmost one; `pieces` cuts at every occurrence from the left, where two occurrences never overlap.
`eq_of_cutFirst` says that a cut loses nothing, which is also why cutting ends. -/

namespace FacetSearch.Text

/-! ## Leading and trailing parts -/

/-- What follows `lead` in a text that begins with it. -/
def after? : List Char → List Char → Option (List Char)
  | [], text => some text
  | _ :: _, [] => none
  | p :: lead, c :: text => if p = c then after? lead text else none

/-- What precedes `tail` in a text that ends with it. -/
def before? (tail text : List Char) : Option (List Char) :=
  (after? tail.reverse text.reverse).map List.reverse

theorem eq_append_of_after? {lead text rest : List Char} (h : after? lead text = some rest) :
    text = lead ++ rest := by
  fun_induction after? lead text with
  | case1 => simp_all
  | case2 => simp at h
  | case3 _ lead text ih => simp_all
  | case4 => simp at h

/-- Drop every occurrence of `lead` that stands at the front, at most `fuel` of them. -/
def dropLeading (lead : List Char) : Nat → List Char → List Char
  | 0, text => text
  | fuel + 1, text =>
    match after? lead text with
    | some rest => dropLeading lead fuel rest
    | none => text

/-- The text without the occurrences of `mark` at its front and then at its end; an empty mark
    stands nowhere. -/
def trimMarks (mark text : List Char) : List Char :=
  if mark.isEmpty then text
  else
    let opened := dropLeading mark text.length text
    (dropLeading mark.reverse opened.length opened.reverse).reverse

/-! ## One cut -/

/-- The parts left and right of the leftmost occurrence of `separator`. -/
def cutFirst (separator : List Char) : List Char → Option (List Char × List Char)
  | [] => (after? separator []).map fun rest => ([], rest)
  | c :: text =>
    match after? separator (c :: text) with
    | some rest => some ([], rest)
    | none => (cutFirst separator text).map fun (left, right) => (c :: left, right)

theorem eq_of_cutFirst {separator text left right : List Char}
    (h : cutFirst separator text = some (left, right)) : text = left ++ separator ++ right := by
  induction text generalizing left right with
  | nil =>
    simp only [cutFirst, Option.map_eq_some_iff] at h
    obtain ⟨rest, hr, he⟩ := h
    obtain ⟨rfl, rfl⟩ := Prod.mk.inj he
    simpa using eq_append_of_after? hr
  | cons c text ih =>
    simp only [cutFirst] at h
    split at h
    · next rest hr =>
      obtain ⟨rfl, rfl⟩ := Prod.mk.inj (Option.some.inj h)
      simpa using eq_append_of_after? hr
    · simp only [Option.map_eq_some_iff] at h
      obtain ⟨⟨l, r⟩, hc, he⟩ := h
      obtain ⟨rfl, rfl⟩ := Prod.mk.inj he
      simp [ih hc]

/-- The parts left and right of the rightmost occurrence of `separator`. -/
def cutLast (separator text : List Char) : Option (List Char × List Char) :=
  (cutFirst separator.reverse text.reverse).map fun (right, left) => (left.reverse, right.reverse)

/-! ## All cuts -/

/-- Cut a text at every occurrence of `separator`. An empty separator stands at both ends and
    between any two characters. -/
def pieces (separator text : List Char) : List (List Char) :=
  if hs : separator = [] then [] :: text.map (fun c => [c]) ++ [[]]
  else
    match _h : cutFirst separator text with
    | none => [text]
    | some (left, right) => left :: pieces separator right
termination_by text.length
decreasing_by
  have := congrArg List.length (eq_of_cutFirst _h)
  have : 0 < separator.length := List.length_pos_iff.2 hs
  simp at *
  omega

/-- Cut a text at no more than the first `cuts` occurrences of `separator`. -/
def piecesUpTo (separator : List Char) : Nat → List Char → List (List Char)
  | 0, text => [text]
  | cuts + 1, text =>
    match cutFirst separator text with
    | none => [text]
    | some (left, right) => left :: piecesUpTo separator cuts right

/-! ## The same on strings -/

/-- Cut `text` at every occurrence of `separator`. -/
def splitAt (separator text : String) : List String :=
  (pieces separator.toList text.toList).map String.ofList

/-- Cut `text` at its first `separator`. -/
def splitFirst (separator text : String) : Option (String × String) :=
  (cutFirst separator.toList text.toList).map fun (l, r) => (String.ofList l, String.ofList r)

/-- Cut `text` at its last `separator`. -/
def splitLast (separator text : String) : Option (String × String) :=
  (cutLast separator.toList text.toList).map fun (l, r) => (String.ofList l, String.ofList r)

/-- The part of `text` after a leading `lead`. -/
def dropLead (lead text : String) : Option String :=
  (after? lead.toList text.toList).map String.ofList

/-- The part of `text` before a trailing `tail`. -/
def dropTail (tail text : String) : Option String :=
  (before? tail.toList text.toList).map String.ofList

/-- The text without the marks that stand at its two ends. -/
def stripMarks (mark text : String) : String :=
  String.ofList (trimMarks mark.toList text.toList)

end FacetSearch.Text
