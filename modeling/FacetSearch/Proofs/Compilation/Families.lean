import FacetSearch.Proofs.Compilation.Arrivals
import Mathlib

set_option autoImplicit false

/-! # Fields of a hierarchy

The name of a field along a path ends with the token of its hierarchy and the kind of its values, so no
two hierarchies share a field (`FieldFamily.eq_of_names`), whatever slugs and marks stand in front. A
path stays in the hierarchy that it begins in: its facet, its range and the buckets over the range all
belong to fields of that hierarchy (`Arrives.within`). -/

namespace FacetSearch

/-! ## Names -/

namespace FieldFamily

/-- What the names of the fields of a hierarchy end with, where they hold values of a kind. -/
def ending (family : FieldFamily) (kind : DataKind) : String :=
  Field.delimiter ++ family.token ++ "_" ++ kind.suffix

/-- The text ends like the name of a field of the hierarchy. -/
def Names (family : FieldFamily) (field : String) : Prop :=
  ∃ kind, (family.ending kind).toList <:+ field.toList

theorem eq_of_ending_suffix {family family' : FieldFamily} {kind kind' : DataKind}
    (h : (family.ending kind).toList <:+ (family'.ending kind').toList) : family = family' := by
  cases family <;> cases family' <;> first
    | rfl
    | cases kind <;> cases kind' <;> exact absurd h (by decide)

/-- **No field belongs to two hierarchies.** -/
theorem eq_of_names {family family' : FieldFamily} {field : String} (h : family.Names field)
    (h' : family'.Names field) : family = family' := by
  obtain ⟨kind, hkind⟩ := h
  obtain ⟨kind', hkind'⟩ := h'
  rcases List.suffix_or_suffix_of_suffix hkind hkind' with hs | hs
  · exact eq_of_ending_suffix hs
  · exact (eq_of_ending_suffix hs).symm

end FieldFamily

theorem FieldPath.names_name (p : FieldPath) : p.family.Names p.name := by
  refine ⟨p.kind, ?_⟩
  have hname : p.name = p.mark.getD "" ++ (p.parent.map fun step => Field.safe step.slug).getD
      Field.rootSlug ++ p.family.ending p.kind := by
    simp only [FieldPath.name, FieldFamily.ending, String.append_assoc]
  rw [hname, String.toList_append]
  exact List.suffix_append _ _

/-! ## Paths -/

/-- What an alternative adds to a query under field names is about fields of one hierarchy. -/
structure Alternative.Within (a : Alternative) (family : FieldFamily) : Prop where
  ranges : ∀ field ∈ a.fragment.ranges, family.Names field
  facet : ∀ m ∈ a.facet, family.Names m.field
  range : ∀ found ∈ a.range, family.Names found.1

namespace Compiler

variable {c : Compiler} {answer : String → Option Entity} {source : PathSource} {field : FieldPath}
  {path : List String} {f : Fragment} {a : Alternative}

/-- The buckets of a range stand under the name of its field. -/
theorem mem_ranges_rangeEnd {literal : RangeLiteral} {given : Bool} {name : String}
    (h : name ∈ (c.rangeEnd source field path f literal given).fragment.ranges) :
    name = field.name ∨ name ∈ f.ranges := by
  have hrequired {clause : Clause}
      (h : name ∈ (if given = true then f.require clause else f).ranges) : name ∈ f.ranges := by
    cases given <;> exact h
  unfold rangeEnd at h
  dsimp only at h
  split at h
  · exact .inr h
  · split at h
    · exact .inr (hrequired h)
    · split at h
      · rcases Std.ExtTreeMap.mem_insert.1 h with he | h
        · exact .inl (Std.LawfulEqCmp.compare_eq_iff_eq.1 he).symm
        · exact .inr (hrequired h)
      · exact .inr (hrequired h)

theorem mem_ranges_literalEnd {raw : Option String} {name : String}
    (h : c.literalEnd source field path f raw = .ok a) (hname : name ∈ a.fragment.ranges) :
    name = field.name ∨ name ∈ f.ranges := by
  cases hk : field.kind.axis? with
  | some kind =>
      rw [literalEnd_of_axis hk] at h
      obtain ⟨literal, -, rfl⟩ := Except.map_eq_ok h
      exact mem_ranges_rangeEnd hname
  | none =>
      -- texts and identifiers have no buckets
      unfold literalEnd at h
      cases hkind : field.kind <;> simp only [hkind, DataKind.axis?, reduceCtorEq] at hk h
      all_goals obtain rfl := Except.ok.inj h
      · exact .inr hname
      · rw [withWords_eq] at hname
        exact .inr hname

theorem mem_ranges_arrival {t : Trail} {name : String} (h : c.arrival source t path f = .ok a)
    (hname : name ∈ a.fragment.ranges) : name = t.field.name ∨ name ∈ f.ranges := by
  unfold arrival at h
  split at h
  · exact mem_ranges_literalEnd h hname
  · unfold pathEnd at h
    split at h
    · exact mem_ranges_literalEnd h hname
    · obtain rfl := Except.ok.inj h
      exact .inr hname

/-- **Whatever a path leads to stays in its hierarchy.** -/
theorem Arrives.within {family : FieldFamily} (h : c.Arrives family a) : a.Within family := by
  obtain ⟨source, t, path, -, rfl, harrival⟩ := h
  refine ⟨fun name hname => ?_, fun m hm => ?_, fun found hfound => ?_⟩
  · rcases mem_ranges_arrival harrival hname with rfl | hlevels
    · exact t.field.names_name
    · rw [requireLevels_eq] at hlevels
      exact absurd hlevels Std.ExtTreeMap.not_mem_empty
  · obtain ⟨_, _, rfl⟩ := facet_arrival harrival hm
    exact t.field.names_name
  · rw [(keeps_arrival harrival).range] at hfound
    obtain ⟨u, hu, rfl⟩ := Option.map_eq_some_iff.1 hfound
    rw [Trail.field_of_range? hu]
    exact t.field.names_name

theorem within_values {family : FieldFamily} {count : Nat} {values : List String}
    {outcomes : List PathOutcome}
    (h : Compiling.under answer (c.values family count values) = .ok outcomes) :
    ∀ a ∈ outcomes.filterMap PathOutcome.alternative?, a.Within family := fun a ha =>
  ((obeys_values family count values).under h a ha).within

end Compiler

end FacetSearch
