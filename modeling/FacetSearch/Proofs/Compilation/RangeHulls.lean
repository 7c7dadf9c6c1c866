import FacetSearch.Proofs.Compilation.Effects
import FacetSearch.Proofs.Index.DatePoints

set_option autoImplicit false

/-! # Ranges of alternatives

Alternatives that ask for dates of one field come together to one request for it. Joining two requests
gives the range across both, with a gap of whole days, and the first request itself when it covers the
second (`RangeRequest.union_eq`, `RangeRequest.IsDated.union`). What joined fragments ask for on a field
depends on their requests on that field alone (`Fragment.getElem?_absorb`), so in whatever order and
groups fragments are put together, the request runs from the first start to the last end
(`Combination.hull_of_ranges`). -/

namespace FacetSearch

open Calendar

/-! ## Gaps of whole days -/

namespace Gap

/-- The text stands for a whole number of days, and at least one. -/
def IsDays (gap : String) : Prop := ∃ n : Nat, 1 ≤ n ∧ gap = "+" ++ toString n ++ "DAYS"

/-- Across a span of fewer than `2 ^ 39` seconds, buckets are whole days wide. -/
theorem isDays_render {span : Binary64} (h : span.Within (2 ^ 39 * Binary64.one)) (groups : Nat) :
    IsDays (render .date span groups) := by
  have hfinite : 2 ^ 39 * Binary64.one < Binary64.overflow := Binary64.whole_lt_overflow (by decide)
  have hdays : daySeconds.OneOrMore := Binary64.oneOrMore_ofNat (n := 86400) (by decide)
  have hgroups := Binary64.oneOrMore_ofNat (le_max_right groups 1)
  have hwidth := (h.div hfinite hdays).div hfinite hgroups
  obtain ⟨n, hpos, hlt, hwhole⟩ := hwidth.max_one_ceil (by decide)
  refine ⟨n, hpos, ?_⟩
  show "+" ++ ((span / daySeconds / Binary64.ofNat (max groups 1)).ceil.max 1).plain ++ "DAYS" = _
  rw [hwhole, Binary64.plain_whole hlt]

end Gap

/-! ## Two ranges -/

namespace RangeRequest

variable {r other : RangeRequest}

/-- The instant that the start of a range names. -/
def startInstant (r : RangeRequest) : Int := (Point.instantOf? r.start).getD 0

/-- The instant that the end of a range names. -/
def stopInstant (r : RangeRequest) : Int := (Point.instantOf? r.stop).getD 0

/-- The range runs between written instants, in buckets of whole days. -/
structure IsDated (r : RangeRequest) : Prop where
  kind : r.kind = .date
  start : timestamp r.startInstant = some r.start
  stop : timestamp r.stopInstant = some r.stop
  gap : Gap.IsDays r.gap

theorem isDated_of {low high : Int} (hkind : r.kind = .date) (hlow : timestamp low = some r.start)
    (hhigh : timestamp high = some r.stop) (hgap : Gap.IsDays r.gap) :
    r.IsDated ∧ r.startInstant = low ∧ r.stopInstant = high := by
  have hstart : r.startInstant = low := by
    rw [startInstant, Point.instantOf?_of_timestamp hlow, Option.getD_some]
  have hstop : r.stopInstant = high := by
    rw [stopInstant, Point.instantOf?_of_timestamp hhigh, Option.getD_some]
  exact ⟨⟨hkind, hstart ▸ hlow, hstop ▸ hhigh, hgap⟩, hstart, hstop⟩

theorem IsDated.ends? (h : r.IsDated) :
    r.ends? = some (.ofInt r.startInstant, .ofInt r.stopInstant) := by
  rw [RangeRequest.ends?, h.kind, Point.parse, Point.date_of_timestamp h.start,
    Point.date_of_timestamp h.stop]
  rfl

theorem IsDated.writable (h : r.IsDated) : Writable r.startInstant ∧ Writable r.stopInstant :=
  ⟨(timestamp_eq_some_iff.1 h.start).1, (timestamp_eq_some_iff.1 h.stop).1⟩

/-- The range across two ranges; the first one where it covers the second. -/
theorem union_eq (h : r.IsDated) (h' : other.IsDated) : r.union other =
    if r.startInstant ≤ other.startInstant ∧ other.stopInstant ≤ r.stopInstant then r else
    { r with
      start := Point.render .date (.ofInt (min r.startInstant other.startInstant))
      stop := Point.render .date (.ofInt (max r.stopInstant other.stopInstant))
      gap := Gap.render .date (.ofInt (max r.stopInstant other.stopInstant
        - min r.startInstant other.startInstant))
        (r.groups (.ofInt r.startInstant) (.ofInt r.stopInstant)) } := by
  have hstart := Point.natAbs_lt_of_writable h.writable.1
  have hstop := Point.natAbs_lt_of_writable h.writable.2
  have hstart' := Point.natAbs_lt_of_writable h'.writable.1
  have hstop' := Point.natAbs_lt_of_writable h'.writable.2
  rw [union, h.kind, h'.kind, h.ends?, h'.ends?]
  generalize r.startInstant = low at *
  generalize r.stopInstant = high at *
  generalize other.startInstant = otherLow at *
  generalize other.stopInstant = otherHigh at *
  have hlow : (min low otherLow).natAbs < 2 ^ 53 := by omega
  have hhigh : (max high otherHigh).natAbs < 2 ^ 53 := by omega
  dsimp only
  rw [if_neg (not_not.2 rfl), Binary64.min_ofInt hstart hstart', Binary64.max_ofInt hstop hstop',
    Binary64.eqv_ofInt hlow hstart, Binary64.eqv_ofInt hhigh hstop, Binary64.ofInt_sub_ofInt hhigh hlow]
  have hcovers : (decide (min low otherLow = low) && decide (max high otherHigh = high)) = true ↔
      low ≤ otherLow ∧ otherHigh ≤ high := by
    rw [Bool.and_eq_true, decide_eq_true_eq, decide_eq_true_eq, min_eq_left_iff, max_eq_left_iff]
  simp only [hcovers]

theorem union_eq_self (h : r.IsDated) (h' : other.IsDated)
    (hstart : r.startInstant ≤ other.startInstant) (hstop : other.stopInstant ≤ r.stopInstant) :
    r.union other = r := by
  rw [union_eq h h', if_pos ⟨hstart, hstop⟩]

/-- **Two ranges of dates are joined to the range across both.** -/
theorem IsDated.union (h : r.IsDated) (h' : other.IsDated) : (r.union other).IsDated ∧
    (r.union other).startInstant = min r.startInstant other.startInstant ∧
    (r.union other).stopInstant = max r.stopInstant other.stopInstant := by
  rw [union_eq h h']
  split
  · next hcovers => exact ⟨h, (min_eq_left hcovers.1).symm, (max_eq_left hcovers.2).symm⟩
  · have hwithin := writable_iff.1 h.writable.1
    have hwithin' := writable_iff.1 h'.writable.1
    have hwithinStop := writable_iff.1 h.writable.2
    have hwithinStop' := writable_iff.1 h'.writable.2
    generalize r.groups _ _ = groups
    generalize r.startInstant = low at *
    generalize r.stopInstant = high at *
    generalize other.startInstant = otherLow at *
    generalize other.stopInstant = otherHigh at *
    have hstart := Point.timestamp_eq_render (writable_iff.2 (show
      -62167219200 ≤ min low otherLow ∧ min low otherLow < 253402300800 by omega))
    have hstop := Point.timestamp_eq_render (writable_iff.2 (show
      -62167219200 ≤ max high otherHigh ∧ max high otherHigh < 253402300800 by omega))
    have hgap := Gap.isDays_render (Binary64.within_ofInt (n := 2 ^ 39) (show
      (max high otherHigh - min low otherLow).natAbs < 2 ^ 53 by omega) (by omega)) groups
    generalize Point.render _ _ = start at hstart ⊢
    generalize Point.render _ _ = stop at hstop ⊢
    generalize Gap.render _ _ _ = gap at hgap ⊢
    exact isDated_of h.kind hstart hstop hgap

end RangeRequest

/-! ## Requests of joined fragments -/

namespace Fragment

variable {field : String}

/-- What joined fragments ask for on a field is what each of them asks for there, joined. -/
theorem getElem?_absorb (f other : Fragment) : (f.absorb other).ranges[field]?
    = f.ranges[field]?.merge RangeRequest.union other.ranges[field]? :=
  getElem?_foldl_addRange f.ranges other.ranges

theorem getElem?_anyOf (alternatives : List Fragment) : (anyOf alternatives).ranges[field]?
    = alternatives.foldl (fun held f => held.merge RangeRequest.union f.ranges[field]?) none := by
  have hfold (f : Fragment) : (alternatives.foldl absorb f).ranges[field]? = alternatives.foldl
      (fun held f => held.merge RangeRequest.union f.ranges[field]?) f.ranges[field]? := by
    induction alternatives generalizing f with
    | nil => rfl
    | cons first rest ih => rw [List.foldl_cons, ih, getElem?_absorb, List.foldl_cons]
  exact (hfold .empty).trans (by rw [empty, Std.ExtTreeMap.getElem?_empty])

/-- The fragment without its request on a field. -/
def withoutRange (field : String) (f : Fragment) : Fragment :=
  { f with ranges := f.ranges.erase field }

end Fragment

/-! ## Orders and groups -/

/-- A way to put fragments together. -/
inductive Combination where
  | single (f : Fragment)
  /-- What both parts require. -/
  | merge (c other : Combination)
  /-- What one of several parts requires. -/
  | anyOf (count : Nat) (part : Fin count → Combination)

namespace Combination

variable {field : String}

/-- The fragments, in the order in which they are joined. -/
def fragments : Combination → List Fragment
  | single f => [f]
  | merge c other => c.fragments ++ other.fragments
  | anyOf _ part => (List.ofFn fun i => (part i).fragments).flatten

/-- What becomes of the fragments. -/
def result : Combination → Fragment
  | single f => f
  | merge c other => c.result.merge other.result
  | anyOf _ part => Fragment.anyOf (List.ofFn fun i => (part i).result)

/-- The same way, for other fragments. -/
def map (edit : Fragment → Fragment) : Combination → Combination
  | single f => single (edit f)
  | merge c other => merge (c.map edit) (other.map edit)
  | anyOf count part => anyOf count fun i => (part i).map edit

/-- The requests of the fragments on a field, in the order in which they are joined. -/
def requests (c : Combination) (field : String) : List RangeRequest :=
  c.fragments.filterMap (·.ranges[field]?)

theorem requests_single (f : Fragment) :
    (single f).requests field = f.ranges[field]?.toList := by
  show [f].filterMap (·.ranges[field]?) = _
  cases hf : f.ranges[field]? <;> simp [hf]

theorem requests_merge (c other : Combination) :
    (merge c other).requests field = c.requests field ++ other.requests field :=
  List.filterMap_append ..

theorem requests_anyOf (count : Nat) (part : Fin count → Combination) :
    (anyOf count part).requests field = (List.ofFn part).flatMap (·.requests field) := by
  have hparts : (List.ofFn fun i => (part i).fragments) = (List.ofFn part).map fragments :=
    List.map_ofFn.symm
  rw [requests, fragments, hparts, List.filterMap_flatten, List.map_map]
  rfl

theorem ranges_merge (c other : Combination) : (merge c other).result.ranges[field]?
    = c.result.ranges[field]?.merge RangeRequest.union other.result.ranges[field]? :=
  Fragment.getElem?_absorb c.result other.result

theorem ranges_anyOf (count : Nat) (part : Fin count → Combination) :
    (anyOf count part).result.ranges[field]? = (List.ofFn part).foldl
      (fun held c => held.merge RangeRequest.union c.result.ranges[field]?) none := by
  have hparts : (List.ofFn fun i => (part i).result) = (List.ofFn part).map result :=
    List.map_ofFn.symm
  rw [result, Fragment.getElem?_anyOf, hparts, List.foldl_map]

section Joining

variable {P : List RangeRequest → Option RangeRequest → Prop}

/-- Parts are joined from the left, to what those before them came to. -/
theorem foldl_ranges_induction
    (happend : ∀ {l l' x x'}, P l x → P l' x' → P (l ++ l') (x.merge RangeRequest.union x'))
    {parts : List Combination}
    (hparts : ∀ c ∈ parts, P (c.requests field) c.result.ranges[field]?)
    {front : List RangeRequest} {x : Option RangeRequest} (hfront : P front x) :
    P (front ++ parts.flatMap (·.requests field))
      (parts.foldl (fun held c => held.merge RangeRequest.union c.result.ranges[field]?) x) := by
  induction parts generalizing front x with
  | nil => rwa [List.flatMap_nil, List.append_nil]
  | cons c rest ih =>
      obtain ⟨hc, hrest⟩ := List.forall_mem_cons.1 hparts
      rw [List.flatMap_cons, ← List.append_assoc, List.foldl_cons]
      exact ih hrest (happend hfront hc)

/-- What a combination asks for on a field is put together from the requests there: what holds of no
    request and of each of them alone, and is kept by joining, holds of all. -/
theorem ranges_induction (hnil : P [] none)
    (happend : ∀ {l l' x x'}, P l x → P l' x' → P (l ++ l') (x.merge RangeRequest.union x'))
    (c : Combination) (hsingle : ∀ r ∈ c.requests field, P [r] (some r)) :
    P (c.requests field) c.result.ranges[field]? := by
  induction c with
  | single f =>
      rw [requests_single] at hsingle ⊢
      show P _ f.ranges[field]?
      cases hf : f.ranges[field]? with
      | none => exact hnil
      | some r => exact hsingle r (by rw [hf]; exact List.mem_singleton_self r)
  | merge c other ih ih' =>
      rw [requests_merge, List.forall_mem_append] at hsingle
      rw [requests_merge, ranges_merge]
      exact happend (ih hsingle.1) (ih' hsingle.2)
  | anyOf count part ih =>
      rw [requests_anyOf] at hsingle ⊢
      rw [ranges_anyOf]
      refine foldl_ranges_induction happend ?_ hnil
      intro c hc
      obtain ⟨i, rfl⟩ := (List.mem_ofFn' part c).1 hc
      exact ih i fun r hr => hsingle r (List.mem_flatMap.2 ⟨_, hc, hr⟩)

end Joining

/-- Requests on one field do not depend on those on another. -/
theorem ranges_map_withoutRange {other : String} (hne : other ≠ field) (c : Combination) :
    (c.map (Fragment.withoutRange field)).result.ranges[other]? = c.result.ranges[other]? := by
  induction c with
  | single f =>
      have hcompare : compare field other ≠ .eq := fun he =>
        hne (Std.LawfulEqCmp.compare_eq_iff_eq.1 he).symm
      show (f.ranges.erase field)[other]? = f.ranges[other]?
      rw [Std.ExtTreeMap.getElem?_erase, if_neg hcompare]
  | merge c c' ih ih' => rw [map, ranges_merge, ih, ih', ranges_merge]
  | anyOf count part ih =>
      have hparts : (List.ofFn fun i => (part i).map (Fragment.withoutRange field))
          = (List.ofFn part).map (map (Fragment.withoutRange field)) := List.map_ofFn.symm
      rw [map, ranges_anyOf, ranges_anyOf, hparts, List.foldl_map]
      refine List.foldl_ext _ _ _ fun held c hc => ?_
      obtain ⟨i, rfl⟩ := (List.mem_ofFn' part c).1 hc
      rw [ih i]

end Combination

/-! ## Hulls -/

namespace RangeRequest

/-- The request runs from the earliest start of some requests to their latest end, and is the first of
    them where that covers all. -/
structure IsHull (r : RangeRequest) (l : List RangeRequest) : Prop where
  dated : r.IsDated
  start : IsLeast (startInstant '' {q | q ∈ l}) r.startInstant
  stop : IsGreatest (stopInstant '' {q | q ∈ l}) r.stopInstant
  kept : ∀ first, l.head? = some first → first.startInstant = r.startInstant →
    first.stopInstant = r.stopInstant → r = first

theorem IsDated.isHull {r : RangeRequest} (h : r.IsDated) : r.IsHull [r] := by
  have hset : {q | q ∈ [r]} = {r} := by
    ext q
    exact List.mem_singleton
  refine ⟨h, ?_, ?_, fun first hfirst _ _ => Option.some.inj hfirst⟩
  · rw [hset, Set.image_singleton]
    exact isLeast_singleton
  · rw [hset, Set.image_singleton]
    exact isGreatest_singleton

theorem IsHull.append {r r' : RangeRequest} {l l' : List RangeRequest} (h : r.IsHull l)
    (h' : r'.IsHull l') : (r.union r').IsHull (l ++ l') := by
  obtain ⟨hunion, hlow, hhigh⟩ := h.dated.union h'.dated
  have hset : {q | q ∈ l ++ l'} = {q | q ∈ l} ∪ {q | q ∈ l'} := by
    ext q
    exact List.mem_append
  refine ⟨hunion, ?_, ?_, ?_⟩
  · rw [hset, Set.image_union, hlow]
    exact h.start.union h'.start
  · rw [hset, Set.image_union, hhigh]
    exact h.stop.union h'.stop
  · intro first hfirst hsameStart hsameStop
    obtain ⟨q, hq, -⟩ := h.start.1
    rw [List.head?_append_of_ne_nil _ (List.ne_nil_of_mem hq)] at hfirst
    have hmem : first ∈ l := List.mem_of_mem_head? hfirst
    -- the first request reaches as far as all do, so what it came to before does too
    have hleast := h.start.2 (Set.mem_image_of_mem _ hmem)
    have hgreatest := h.stop.2 (Set.mem_image_of_mem _ hmem)
    rw [union_eq_self h.dated h'.dated (by omega) (by omega)]
    exact h.kept first hfirst (by omega) (by omega)

/-- A first request that covers all of them is what they come to. -/
theorem IsHull.eq_first {r first : RangeRequest} {l : List RangeRequest} (h : r.IsHull l)
    (hfirst : l.head? = some first) (hcovers : ∀ q ∈ l,
      first.startInstant ≤ q.startInstant ∧ q.stopInstant ≤ first.stopInstant) : r = first := by
  have hmem : first ∈ l := List.mem_of_mem_head? hfirst
  obtain ⟨q, hq, hstart⟩ := h.start.1
  obtain ⟨q', hq', hstop⟩ := h.stop.1
  have hleast := h.start.2 (Set.mem_image_of_mem _ hmem)
  have hgreatest := h.stop.2 (Set.mem_image_of_mem _ hmem)
  have hbefore := (hcovers q hq).1
  have hafter := (hcovers q' hq').2
  exact h.kept first hfirst (by omega) (by omega)

/-- What requests come to, if there are any. -/
inductive Joins : List RangeRequest → Option RangeRequest → Prop where
  | nil : Joins [] none
  | hull {l : List RangeRequest} {r : RangeRequest} (h : r.IsHull l) : Joins l (some r)

theorem Joins.append {l l' : List RangeRequest} {x x' : Option RangeRequest} (h : Joins l x)
    (h' : Joins l' x') : Joins (l ++ l') (x.merge union x') := by
  cases h with
  | nil => rwa [List.nil_append, Option.merge_none_left]
  | hull h =>
      cases h' with
      | nil =>
          rw [List.append_nil, Option.merge_none_right]
          exact .hull h
      | hull h' => exact .hull (h.append h')

/-- What a lone request comes to is the request, and nothing comes from none. -/
def KeepsLone (l : List RangeRequest) (x : Option RangeRequest) : Prop :=
  (l = [] → x = none) ∧ ∀ r, l = [r] → x = some r

theorem KeepsLone.append {l l' : List RangeRequest} {x x' : Option RangeRequest} (h : KeepsLone l x)
    (h' : KeepsLone l' x') : KeepsLone (l ++ l') (x.merge union x') := by
  constructor
  · intro hnil
    obtain ⟨hl, hl'⟩ := List.append_eq_nil_iff.1 hnil
    rw [h.1 hl, h'.1 hl', Option.merge_none_left]
  · intro r hone
    rcases List.append_eq_singleton_iff.1 hone with ⟨hl, hl'⟩ | ⟨hl, hl'⟩
    · rw [h.1 hl, h'.2 r hl', Option.merge_none_left]
    · rw [h.2 r hl, h'.1 hl', Option.merge_none_right]

end RangeRequest

namespace Combination

variable {field : String}

theorem head?_requests {c : Combination} {f : Fragment} {r : RangeRequest}
    (hf : c.fragments.head? = some f) (hr : f.ranges[field]? = some r) :
    (c.requests field).head? = some r := by
  obtain ⟨rest, hrest⟩ := List.head?_eq_some_iff.1 hf
  simp [requests, hrest, hr]

theorem mem_requests {c : Combination} {fragments : List Fragment} (hc : c.fragments.Perm fragments)
    {r : RangeRequest} : r ∈ c.requests field ↔ ∃ f ∈ fragments, f.ranges[field]? = some r := by
  rw [requests, List.mem_filterMap]
  simp only [hc.mem_iff]

/-- Requests for dates come to their hull. -/
theorem exists_isHull {c : Combination} (hne : c.requests field ≠ [])
    (hdated : ∀ r ∈ c.requests field, r.IsDated) :
    ∃ r, c.result.ranges[field]? = some r ∧ r.IsHull (c.requests field) := by
  have hjoins : RangeRequest.Joins (c.requests field) c.result.ranges[field]? :=
    c.ranges_induction .nil .append fun r hr => .hull (hdated r hr).isHull
  generalize c.result.ranges[field]? = x at hjoins ⊢
  generalize c.requests field = l at hne hjoins ⊢
  cases hjoins with
  | nil => exact absurd rfl hne
  | hull h => exact ⟨_, rfl, h⟩

theorem keepsLone (c : Combination) :
    RangeRequest.KeepsLone (c.requests field) c.result.ranges[field]? := by
  refine c.ranges_induction ?_ .append ?_
  · exact ⟨fun _ => rfl, fun r hr => absurd hr (by simp)⟩
  · intro r _
    exact ⟨fun hr => absurd hr (by simp), fun q hq => congrArg some (List.singleton_inj.1 hq)⟩

/-- **Alternatives ask for the range across all of them.** In whatever order and groups fragments that
    ask for dates of a field are joined, together they ask for the dates from the earliest start to the
    latest end, in buckets of whole days; the first request is kept as it is where it covers all the
    others. On other fields they ask for what they would without these requests, and what just one of
    them asks for there is kept. -/
theorem hull_of_ranges {fragments : List Fragment} (hne : fragments ≠ [])
    (hheld : ∀ f ∈ fragments, ∃ q, f.ranges[field]? = some q ∧ q.IsDated) (c : Combination)
    (hc : c.fragments.Perm fragments) :
    (∃ r, c.result.ranges[field]? = some r ∧ r.IsDated ∧
      IsLeast (RangeRequest.startInstant '' {q | ∃ f ∈ fragments, f.ranges[field]? = some q})
        r.startInstant ∧
      IsGreatest (RangeRequest.stopInstant '' {q | ∃ f ∈ fragments, f.ranges[field]? = some q})
        r.stopInstant ∧
      ∀ f, c.fragments.head? = some f → ∀ first, f.ranges[field]? = some first →
        (∀ f ∈ fragments, ∀ q, f.ranges[field]? = some q →
          first.startInstant ≤ q.startInstant ∧ q.stopInstant ≤ first.stopInstant) → r = first) ∧
    ∀ other, other ≠ field →
      (c.map (Fragment.withoutRange field)).result.ranges[other]? = c.result.ranges[other]? ∧
      (c.requests other = [] → c.result.ranges[other]? = none) ∧
      ∀ q, c.requests other = [q] → c.result.ranges[other]? = some q := by
  have hset : {q | q ∈ c.requests field} = {q | ∃ f ∈ fragments, f.ranges[field]? = some q} :=
    Set.ext fun q => mem_requests hc
  constructor
  · have hsome : c.requests field ≠ [] := by
      obtain ⟨f, hf⟩ := List.exists_mem_of_ne_nil _ hne
      obtain ⟨q, hget, -⟩ := hheld f hf
      exact List.ne_nil_of_mem ((mem_requests hc).2 ⟨f, hf, hget⟩)
    have hdated : ∀ q ∈ c.requests field, q.IsDated := by
      intro q hq
      obtain ⟨f, hf, hget⟩ := (mem_requests hc).1 hq
      obtain ⟨q', hget', hdated⟩ := hheld f hf
      obtain rfl := Option.some.inj (hget.symm.trans hget')
      exact hdated
    obtain ⟨r, hr, hhull⟩ := exists_isHull hsome hdated
    refine ⟨r, hr, hhull.dated, hset ▸ hhull.start, hset ▸ hhull.stop, ?_⟩
    intro f hf first hget hcovers
    refine hhull.eq_first (head?_requests hf hget) fun q hq => ?_
    obtain ⟨g, hg, hgq⟩ := (mem_requests hc).1 hq
    exact hcovers g hg q hgq
  · intro other hother
    exact ⟨c.ranges_map_withoutRange hother, c.keepsLone⟩

/-- The days of the eighties, a month to a bucket. -/
def eighties : RangeRequest where
  kind := .date
  start := "1980-01-01T00:00:00Z"
  stop := "1990-01-01T00:00:00Z"
  gap := "+30DAYS"

/-- The days of the nineties, a week to a bucket. -/
def nineties : RangeRequest where
  kind := .date
  start := "1990-01-01T00:00:00Z"
  stop := "2000-01-01T00:00:00Z"
  gap := "+7DAYS"

/-- A fragment that asks for one range of the days of finds. -/
def foundIn (r : RangeRequest) : Fragment :=
  { ranges := (∅ : Std.ExtTreeMap String RangeRequest).insert "found" r }

/-- The nineties, or both decades at once: the two decades. -/
def decades : Combination :=
  anyOf 2 ![single (foundIn nineties), merge (single (foundIn eighties)) (single (foundIn nineties))]

theorem hull_of_ranges_decades :
    (∀ f ∈ [foundIn eighties, foundIn nineties, foundIn nineties],
      ∃ q, f.ranges["found"]? = some q ∧ q.IsDated) ∧
    decades.fragments.Perm [foundIn eighties, foundIn nineties, foundIn nineties] ∧
    ∃ r, decades.result.ranges["found"]? = some r ∧ r.start = "1980-01-01T00:00:00Z" ∧
      r.stop = "2000-01-01T00:00:00Z" ∧ Gap.IsDays r.gap := by
  have heighties : eighties.IsDated ∧ eighties.startInstant = 315532800 ∧
      eighties.stopInstant = 631152000 :=
    RangeRequest.isDated_of rfl (by decide) (by decide) ⟨30, by decide, by decide⟩
  have hnineties : nineties.IsDated ∧ nineties.startInstant = 631152000 ∧
      nineties.stopInstant = 946684800 :=
    RangeRequest.isDated_of rfl (by decide) (by decide) ⟨7, by decide, by decide⟩
  have hget (r : RangeRequest) : (foundIn r).ranges["found"]? = some r :=
    Std.ExtTreeMap.getElem?_insert_self
  have hheld : ∀ f ∈ [foundIn eighties, foundIn nineties, foundIn nineties],
      ∃ q, f.ranges["found"]? = some q ∧ q.IsDated := by
    simp only [List.forall_mem_cons, hget, Option.some.injEq, exists_eq_left']
    exact ⟨heighties.1, hnineties.1, hnineties.1, nofun⟩
  have hperm : decades.fragments.Perm [foundIn eighties, foundIn nineties, foundIn nineties] :=
    List.Perm.swap _ _ _
  obtain ⟨⟨r, hr, hdated, hstart, hstop, -⟩, -⟩ := hull_of_ranges (by simp) hheld decades hperm
  have hset : {q | ∃ f ∈ [foundIn eighties, foundIn nineties, foundIn nineties],
      f.ranges["found"]? = some q} = {eighties, nineties} := by
    ext q
    simp [hget, eq_comm]
  rw [hset, Set.image_pair, heighties.2.1, hnineties.2.1] at hstart
  rw [hset, Set.image_pair, heighties.2.2, hnineties.2.2] at hstop
  have hfirst := hdated.start
  have hlast := hdated.stop
  rw [hstart.unique isLeast_pair] at hfirst
  rw [hstop.unique isGreatest_pair] at hlast
  exact ⟨hheld, hperm, r, hr, (Option.some.inj hfirst).symm.trans (by decide),
    (Option.some.inj hlast).symm.trans (by decide), hdated.gap⟩

end Combination

end FacetSearch
