import FacetSearch.Proofs.Compilation.Arrivals
import Mathlib

set_option autoImplicit false

/-! # Queries that are settled

Once the index has answered, its table tells the bounds of every field, of those that the answer leaves
out too. So nothing in a query that is compiled with the table waits for bounds, whatever the resolver
answers, and no answer leads to a second prequery (`obeys_compile`). -/

namespace FacetSearch

/-- No range waits, and no bounds are asked for. -/
structure Alternative.Settled (a : Alternative) : Prop where
  range : ∀ (field : String) (state : RangeState), a.range = some (field, state) → state.isAwaiting = false
  awaited : ∀ field, field ∉ a.fragment.awaited

/-- No range waits, and no bounds are asked for. -/
structure CompiledQuery.Settled (q : CompiledQuery) : Prop where
  ranges : ∀ (field : String) (state : RangeState), q.ranges[field]? = some state → state.isAwaiting = false
  awaited : ∀ field, field ∉ q.fragment.awaited

namespace Compiler

variable {c : Compiler} {q q' : CompiledQuery}

/-! ## Paths -/

/-- An end whose trail waits for nothing is settled, if what comes before it is. -/
theorem Keeps.settled {t : Trail} {f : Fragment} {a : Alternative} (h : c.Keeps t f a)
    (hanswered : c.stats.answered = true) (hf : ∀ field, field ∉ f.awaited) : a.Settled := by
  constructor
  · intro field state ha
    rw [h.range] at ha
    obtain ⟨u, -, hu⟩ := Option.map_eq_some_iff.1 ha
    obtain ⟨-, rfl⟩ := Prod.mk.inj hu
    rw [isAwaiting_rangeState]
    exact waits_eq_false_of_answered hanswered u
  · intro field hfield
    rcases (h.mem_awaited field).1 hfield with hmem | ⟨u, -, -, hwaits⟩
    · exact hf field hmem
    · rw [waits_eq_false_of_answered hanswered u] at hwaits
      exact absurd hwaits (by decide)

/-- What a path comes to is settled once the index has answered. -/
theorem Arrives.settled {family : FieldFamily} {a : Alternative} (h : c.Arrives family a)
    (hanswered : c.stats.answered = true) :
    a.Settled := by
  obtain ⟨source, t, path, -, -, ha⟩ := h
  refine (keeps_arrival ha).settled hanswered ?_
  rw [requireLevels_eq]
  exact fun _ => Std.ExtTreeSet.not_mem_empty

/-! ## Paths in a query -/

theorem settled_addAlternative {a : Alternative} (hq : q.Settled) (ha : a.Settled) :
    (q.addAlternative a).Settled := by
  constructor
  · intro field state h
    rw [ranges_addAlternative] at h
    split at h
    · next name found hrange =>
      rw [Std.ExtTreeMap.getElem?_insert] at h
      by_cases hname : compare name field = .eq
      · rw [if_pos hname] at h
        obtain rfl := Option.some.inj h
        exact ha.range name _ hrange
      · rw [if_neg hname] at h
        exact hq.ranges field state h
    · exact hq.ranges field state h
  · intro field hfield
    rw [show (q.addAlternative a).fragment = q.fragment from fragment_foldl_addAlternative [a] q]
      at hfield
    exact hq.awaited field hfield

theorem settled_foldl_addAlternative {found : List Alternative} (hq : q.Settled)
    (hfound : ∀ a ∈ found, a.Settled) : (found.foldl CompiledQuery.addAlternative q).Settled := by
  induction found generalizing q with
  | nil => exact hq
  | cons a rest ih =>
      have hfirst := settled_addAlternative hq (hfound a (List.mem_cons_self ..))
      exact ih hfirst fun b hb => hfound b (List.mem_cons_of_mem _ hb)

theorem settled_addPaths {outcomes : List PathOutcome} (hq : q.Settled)
    (hfound : ∀ a ∈ outcomes.filterMap PathOutcome.alternative?, a.Settled) :
    (q.addPaths outcomes).Settled := by
  constructor
  · intro field state hstate
    rw [ranges_addPaths] at hstate
    exact (settled_foldl_addAlternative hq hfound).ranges field state hstate
  · intro field hfield
    rw [fragment_addPaths] at hfield
    split at hfield
    · split at hfield
      · exact hq.awaited field hfield
      · exact hq.awaited field hfield
    · rcases CompiledQuery.mem_awaited_requireOneOf.1 hfield with hmem | ⟨f, hf, hmem⟩
      · exact hq.awaited field hmem
      · obtain ⟨a, ha, rfl⟩ := List.mem_map.1 hf
        exact (hfound a ha).awaited field hmem

/-! ## Requests -/

theorem SameRanges.settled (h : SameRanges q q') (hq : q.Settled) : q'.Settled :=
  ⟨fun field state hstate => hq.ranges field state (h.ranges ▸ hstate),
    fun field hfield => hq.awaited field ((h.mem_awaited field).1 hfield)⟩

theorem invariant_settled (c : Compiler) :
    c.Invariant fun q => c.stats.answered = true → q.Settled where
  start _ := ⟨fun field state h => absurd h (by simp [start]), fun _ => Std.ExtTreeSet.not_mem_empty⟩
  addPaths _ hq hfound hanswered :=
    settled_addPaths (hq hanswered) fun a ha => (hfound a ha).settled hanswered
  sameRequests hq hsame hanswered := hsame.sameRanges.settled (hq hanswered)
  withFacet facet _ hq hanswered := (unmoved_withFacet [facet] _).sameRanges.settled (hq hanswered)

/-- **A compilation asks for the names in its request, and is settled once the index has
    answered.** -/
theorem obeys_compile (c : Compiler) (params : Params) :
    (c.compile params).Obeys (· ∈ c.askedNames params.entries)
      fun q => c.stats.answered = true → q.Settled :=
  c.invariant_settled.obeys_compile params

end Compiler

end FacetSearch
