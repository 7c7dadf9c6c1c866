import FacetSearch.Proofs.Compilation.ClauseText
import Mathlib

set_option autoImplicit false

/-! # Meaning of clauses

A valuation says which atomic clauses a document satisfies, and a fragment holds when all its clauses
do. Clauses that read the same are kept once and equal groups of a choice too; neither changes the
meaning as long as clauses with one text are equal, which `ClauseText` provides. `Adds` collects what a
parameter does to the clauses of a query, and `adds_requireOneOf` says it of a choice. -/

namespace FacetSearch

/-! ## Valuations -/

/-- Which atomic clauses hold, told by their texts. The clause that matches no document never does. -/
structure Valuation where
  holds : String → Bool
  holds_nothing : holds Clause.nothing.text = false

/-- A choice holds when every clause of one of its groups does. -/
def Clause.Holds (v : Valuation) : Clause → Prop
  | single text => v.holds text = true
  | anyOf groups => ∃ group ∈ groups, ∀ text ∈ group, v.holds text = true

/-- A fragment holds when all its clauses do. -/
def Fragment.Holds (v : Valuation) (f : Fragment) : Prop := ∀ clause ∈ f.clauses, clause.Holds v

/-- One of some groups of clauses holds, each of its clauses with it. -/
def Valuation.HoldsOne (v : Valuation) (groups : List (List String)) : Prop :=
  ∃ group ∈ groups, ∀ text ∈ group, v.holds text = true

namespace Clause

/-! ## Clauses that read the same -/

theorem mem_add {clauses : List Clause} {new clause : Clause}
    (h : ∀ held ∈ clauses, held.text = new.text → held = new) :
    clause ∈ add clauses new ↔ clause ∈ clauses ∨ clause = new := by
  by_cases hc : (texts clauses).contains new.text = true
  · rw [add, if_pos hc]
    obtain ⟨held, hheld, ht⟩ := List.mem_map.1 (List.contains_iff_mem.1 hc)
    obtain rfl := h held hheld ht
    exact ⟨.inl, fun hm => hm.elim id fun he => he ▸ hheld⟩
  · rw [add, if_neg hc, List.mem_append, List.mem_singleton]

/-- Adding clauses loses none as long as clauses with one text are equal. -/
theorem mem_foldl_add {new clauses : List Clause} {clause : Clause}
    (h : ∀ added ∈ new, ∀ held ∈ clauses ++ new, held.text = added.text → held = added) :
    clause ∈ new.foldl add clauses ↔ clause ∈ clauses ∨ clause ∈ new := by
  induction new generalizing clauses with
  | nil => simp
  | cons first rest ih =>
      have hfirst : ∀ held ∈ clauses, held.text = first.text → held = first := fun held hheld =>
        h first (List.mem_cons_self ..) held (List.mem_append_left _ hheld)
      have hrest : ∀ added ∈ rest, ∀ held ∈ add clauses first ++ rest,
          held.text = added.text → held = added := by
        intro added hadded held hheld
        apply h added (List.mem_cons_of_mem _ hadded)
        rcases List.mem_append.1 hheld with hheld | hheld
        · rcases (mem_add hfirst).1 hheld with hheld | rfl
          · exact List.mem_append_left _ hheld
          · simp
        · exact List.mem_append_right _ (List.mem_cons_of_mem _ hheld)
      rw [List.foldl_cons, ih hrest, mem_add hfirst, List.mem_cons, or_assoc]

/-- The clauses that some texts are. -/
def singles (group : List String) : List Clause := group.map single

theorem addTexts_eq_foldl (clauses : List Clause) (group : List String) :
    Compiler.addTexts clauses group = (singles group).foldl add clauses := by
  rw [Compiler.addTexts, singles, List.foldl_map]

theorem mem_addTexts_nil {group : List String} {clause : Clause} :
    clause ∈ Compiler.addTexts [] group ↔ ∃ text ∈ group, single text = clause := by
  rw [addTexts_eq_foldl, mem_foldl_add, singles]
  · simp
  · intro added hadded held hheld ht
    simp only [singles, List.nil_append, List.mem_map] at hadded hheld
    obtain ⟨_, -, rfl⟩ := hadded
    obtain ⟨_, -, rfl⟩ := hheld
    exact congrArg single ht

theorem prefix_addTexts (clauses : List Clause) (group : List String) :
    clauses <+: Compiler.addTexts clauses group := by
  induction group generalizing clauses with
  | nil => exact List.prefix_refl _
  | cons text rest ih =>
      refine List.IsPrefix.trans ?_ (ih (add clauses (.single text)))
      unfold add
      split
      · exact List.prefix_refl _
      · exact List.prefix_append _ _

/-- Texts that are put together as a fragment begin with the first one. -/
theorem addTexts_nil_cons (text : String) (rest : List String) :
    ∃ others, Compiler.addTexts [] (text :: rest) = .single text :: others := by
  obtain ⟨others, ho⟩ := prefix_addTexts [.single text] rest
  exact ⟨others, ho.symm⟩

/-! ## Groups of a choice -/

/-- Every clause of a group is a single one. -/
def IsPlain (group : List Clause) : Prop := ∀ clause ∈ group, ∃ text, clause = .single text

theorem isPlain_addTexts_nil (group : List String) : IsPlain (Compiler.addTexts [] group) := by
  intro clause hclause
  obtain ⟨text, -, rfl⟩ := mem_addTexts_nil.1 hclause
  exact ⟨text, rfl⟩

theorem isPlain_of_mem_map {groups : List (List String)} :
    ∀ group ∈ groups.map (Compiler.addTexts []), IsPlain group := by
  intro group hg
  obtain ⟨texts, -, rfl⟩ := List.mem_map.1 hg
  exact isPlain_addTexts_nil texts

theorem IsPlain.eq_of_texts_eq {group group' : List Clause} (h : IsPlain group)
    (h' : IsPlain group') (ht : texts group = texts group') : group = group' := by
  have hsingles : ∀ {g : List Clause}, IsPlain g → singles (texts g) = g := by
    intro g hg
    rw [singles, texts, List.map_map]
    refine (List.map_congr_left fun clause hclause => ?_).trans (List.map_id g)
    obtain ⟨text, rfl⟩ := hg clause hclause
    rfl
  rw [← hsingles h, ← hsingles h', ht]

/-- A step keeps a group unless it is empty or its texts stand there already. -/
theorem mem_keepGroup {kept : List (List Clause)} {first group : List Clause}
    (hkept : ∀ g ∈ kept, IsPlain g) (hfirst : IsPlain first) :
    group ∈ (if first.isEmpty || (kept.map texts).contains (texts first) then kept
      else kept ++ [first]) ↔ group ∈ kept ∨ group = first ∧ group ≠ [] := by
  split
  · next hskip =>
    have hmem : first = [] ∨ first ∈ kept := by
      rcases Bool.or_eq_true _ _ ▸ hskip with he | hc
      · exact .inl (List.isEmpty_iff.1 he)
      · -- the same texts are the same clauses, since none of them is a choice
        obtain ⟨g, hg, ht⟩ := List.mem_map.1 (List.contains_iff_mem.1 hc)
        exact .inr ((hkept g hg).eq_of_texts_eq hfirst ht ▸ hg)
    constructor
    · exact .inl
    · rintro (hg | ⟨rfl, hne⟩)
      · exact hg
      · exact hmem.resolve_left hne
  · next hskip =>
    have hne : first ≠ [] := by
      rintro rfl
      exact hskip rfl
    rw [List.mem_append, List.mem_singleton]
    constructor
    · rintro (hg | rfl)
      · exact .inl hg
      · exact .inr ⟨rfl, hne⟩
    · rintro (hg | ⟨rfl, -⟩)
      · exact .inl hg
      · exact .inr rfl

/-- Of groups of single clauses, only the empty ones are lost. -/
theorem mem_distinctGroups {groups : List (List Clause)} (h : ∀ group ∈ groups, IsPlain group)
    {group : List Clause} : group ∈ distinctGroups groups ↔ group ∈ groups ∧ group ≠ [] := by
  -- for the induction: some groups are kept already
  suffices hkept : ∀ kept : List (List Clause), (∀ g ∈ kept, IsPlain g) →
      (group ∈ groups.foldl (fun done group =>
        if group.isEmpty || (done.map texts).contains (texts group) then done
        else done ++ [group]) kept ↔ group ∈ kept ∨ group ∈ groups ∧ group ≠ []) by
    have hnil := hkept [] (by simp)
    rwa [← distinctGroups, or_iff_right (by simp)] at hnil
  induction groups with
  | nil => simp
  | cons first rest ih =>
      intro kept hplain
      have hfirst := h first (List.mem_cons_self ..)
      rw [List.foldl_cons, ih fun g hg => h g (List.mem_cons_of_mem _ hg)]
      · rw [mem_keepGroup hplain hfirst, List.mem_cons, or_and_right, or_assoc]
      · intro g hg
        rcases (mem_keepGroup hplain hfirst).1 hg with hg | ⟨rfl, -⟩
        · exact hplain g hg
        · exact hfirst

theorem holds_addTexts_nil {v : Valuation} {group : List String} :
    (∀ clause ∈ Compiler.addTexts [] group, clause.Holds v) ↔
      ∀ text ∈ group, v.holds text = true := by
  simp only [mem_addTexts_nil, forall_exists_index, and_imp, forall_apply_eq_imp_iff₂, Holds]

theorem holds_texts {v : Valuation} {group : List Clause} (h : IsPlain group) :
    (∀ text ∈ texts group, v.holds text = true) ↔ ∀ clause ∈ group, clause.Holds v := by
  simp only [texts, List.mem_map, forall_exists_index, and_imp, forall_apply_eq_imp_iff₂]
  refine forall₂_congr ?_
  intro clause hclause
  obtain ⟨text, rfl⟩ := h clause hclause
  rfl

/-- **A disjunction of groups holds when one of them does**, as long as none of them is empty. -/
theorem holds_disjunction {v : Valuation} {groups : List (List Clause)} (hgroups : groups ≠ [])
    (hne : ∀ group ∈ groups, group ≠ []) (hplain : ∀ group ∈ groups, IsPlain group) :
    (∀ clause ∈ disjunction groups, clause.Holds v) ↔
      ∃ group ∈ groups, ∀ clause ∈ group, clause.Holds v := by
  have hmem : ∀ group, group ∈ distinctGroups groups ↔ group ∈ groups := fun group =>
    (mem_distinctGroups hplain).trans (and_iff_left_of_imp (hne group))
  unfold disjunction
  split
  · next hnil =>
    obtain ⟨group, hg⟩ := List.exists_mem_of_ne_nil groups hgroups
    exact absurd ((hmem group).2 hg) (by simp [hnil])
  · next group hone =>
    have hall : ∀ g, g ∈ groups ↔ g = group := fun g => by rw [← hmem, hone, List.mem_singleton]
    simp only [hall, exists_eq_left]
  · simp only [List.mem_singleton, forall_eq, Holds, List.mem_map, exists_exists_and_eq_and, hmem]
    refine exists_congr fun group => and_congr_right ?_
    intro hg
    exact holds_texts (hplain group hg)

/-! ## What a parameter adds -/

/-- Clauses that a parameter may add: atomic ones, or one choice. -/
def WrittenBy (p : Parameter) (new : List Clause) : Prop :=
  (∀ clause ∈ new, ∃ text, clause = .single text ∧ IsAtom text) ∨
    p ∈ choosers ∧ ∃ choice, new = [choice] ∧ choice.IsChoiceOf p

/-- The clauses of a query behind a parameter are those before it and new ones with a meaning. -/
def Adds (p : Parameter) (before after : List Clause) (meaning : Valuation → Prop) : Prop :=
  ∃ new, after = new.foldl add before ∧ WrittenBy p new ∧
    ∀ v, (∀ clause ∈ new, clause.Holds v) ↔ meaning v

/-- Clauses that some parameters have written. -/
def Known (ps : List Parameter) (clauses : List Clause) : Prop :=
  ∀ clause ∈ clauses, (∃ text, clause = .single text ∧ IsAtom text) ∨
    ∃ p ∈ ps, p ∈ choosers ∧ clause.IsChoiceOf p

variable {p : Parameter} {ps : List Parameter} {before after new : List Clause}

/-- What one more parameter writes reads like no other clause. -/
theorem WrittenBy.eq_of_text_eq (hnew : WrittenBy p new) (hknown : Known ps before) (hp : p ∉ ps) :
    ∀ added ∈ new, ∀ held ∈ before ++ new, held.text = added.text → held = added := by
  intro added hadded held hheld ht
  have hheld : (∃ text, held = .single text ∧ IsAtom text) ∨
      (∃ p' ∈ ps, p' ∈ choosers ∧ held.IsChoiceOf p') ∨ held ∈ new := by
    rcases List.mem_append.1 hheld with hb | hn
    · exact (hknown held hb).imp id .inl
    · exact .inr (.inr hn)
  -- two atomic clauses with one text are equal, and every other pair has two texts
  rcases hnew with hatoms | ⟨hchooser, choice, rfl, hchoice⟩
  · obtain ⟨text, rfl, hatom⟩ := hatoms added hadded
    rcases hheld with ⟨text', rfl, -⟩ | ⟨p', -, hp', hc⟩ | hn
    · exact congrArg single ht
    · exact absurd ht.symm (text_ne_of_isAtom hp' hc hatom)
    · obtain ⟨text', rfl, -⟩ := hatoms held hn
      exact congrArg single ht
  · obtain rfl := List.mem_singleton.1 hadded
    rcases hheld with ⟨text', rfl, hatom⟩ | ⟨p', hmem, hp', hc⟩ | hn
    · exact absurd ht (text_ne_of_isAtom hchooser hchoice hatom)
    · have hne : p' ≠ p := fun he => hp (he ▸ hmem)
      exact absurd ht (text_ne_of_isChoiceOf hp' hchooser hne hc hchoice)
    · exact List.mem_singleton.1 hn

theorem Adds.known {meaning : Valuation → Prop} (h : Adds p before after meaning)
    (hknown : Known ps before) (hp : p ∉ ps) : Known (p :: ps) after := by
  obtain ⟨new, rfl, hnew, -⟩ := h
  intro clause hclause
  rcases (mem_foldl_add (hnew.eq_of_text_eq hknown hp)).1 hclause with hb | hn
  · rcases hknown clause hb with hatom | ⟨p', hmem, hc⟩
    · exact .inl hatom
    · exact .inr ⟨p', List.mem_cons_of_mem _ hmem, hc⟩
  · rcases hnew with hatoms | ⟨hchooser, choice, rfl, hchoice⟩
    · exact .inl (hatoms clause hn)
    · obtain rfl := List.mem_singleton.1 hn
      exact .inr ⟨p, List.mem_cons_self .., hchooser, hchoice⟩

/-- **Nothing is lost between parameters**: the clauses behind one more of them mean what they meant
    before it, and what it adds. -/
theorem Adds.holds_iff {meaning : Valuation → Prop} (h : Adds p before after meaning)
    (hknown : Known ps before) (hp : p ∉ ps) (v : Valuation) :
    (∀ clause ∈ after, clause.Holds v) ↔ (∀ clause ∈ before, clause.Holds v) ∧ meaning v := by
  obtain ⟨new, rfl, hnew, hmeaning⟩ := h
  simp only [mem_foldl_add (hnew.eq_of_text_eq hknown hp), ← hmeaning v]
  exact ⟨fun hall => ⟨fun c hc => hall c (.inl hc), fun c hc => hall c (.inr hc)⟩,
    fun hall c hc => hc.elim (hall.1 c) (hall.2 c)⟩

theorem Adds.congr {meaning meaning' : Valuation → Prop} (h : Adds p before after meaning)
    (hm : ∀ v, meaning v ↔ meaning' v) : Adds p before after meaning' := by
  obtain ⟨new, hafter, hnew, hmeaning⟩ := h
  exact ⟨new, hafter, hnew, fun v => (hmeaning v).trans (hm v)⟩

theorem adds_same (p : Parameter) (clauses : List Clause) :
    Adds p clauses clauses fun _ => True :=
  ⟨[], rfl, .inl (by simp), by simp⟩

theorem adds_nothing (p : Parameter) (q : CompiledQuery) :
    Adds p q.fragment.clauses q.requireNothing.fragment.clauses fun _ => False := by
  refine ⟨[nothing], rfl, .inl ?_, fun v => ?_⟩
  · intro clause hclause
    exact ⟨_, List.mem_singleton.1 hclause, isAtom_nothing⟩
  · have hv : v.holds "-*:*" = false := v.holds_nothing
    simp [nothing, Holds, hv]

/-- Groups of atomic clauses that begin as the parameter's first level does. -/
structure OpenWith (p : Parameter) (groups : List (List String)) : Prop where
  atoms : ∀ group ∈ groups, ∀ text ∈ group, IsAtom text
  opens : ∀ group ∈ groups, ∃ text rest, group = text :: rest ∧ p.opening.toList <+: text.toList

theorem writtenBy_disjunction {groups : List (List String)} (hp : p ∈ choosers)
    (h : OpenWith p groups) : WrittenBy p (disjunction (groups.map (Compiler.addTexts []))) := by
  -- every group that is kept comes from one that opens as it should
  have horigin : ∀ group ∈ distinctGroups (groups.map (Compiler.addTexts [])),
      ∃ origin ∈ groups, Compiler.addTexts [] origin = group := fun group hg =>
    List.mem_map.1 ((mem_distinctGroups isPlain_of_mem_map).1 hg).1
  have hatoms : ∀ group ∈ distinctGroups (groups.map (Compiler.addTexts [])),
      ∀ clause ∈ group, ∃ text, clause = .single text ∧ IsAtom text := by
    intro group hg clause hclause
    obtain ⟨origin, horigin, rfl⟩ := horigin group hg
    obtain ⟨text, htext, rfl⟩ := mem_addTexts_nil.1 hclause
    exact ⟨text, rfl, h.atoms origin horigin text htext⟩
  unfold disjunction
  split
  · exact .inl (by simp)
  · next group hone => exact .inl (hatoms group (by simp [hone]))
  · next hnil hone =>
    refine .inr ⟨hp, _, rfl, isChoiceOf_anyOf (by simpa using hnil) ?_ ?_⟩
    · intro group hg text htext
      obtain ⟨kept, hkept, rfl⟩ := List.mem_map.1 hg
      obtain ⟨clause, hclause, rfl⟩ := List.mem_map.1 htext
      obtain ⟨text, rfl, hatom⟩ := hatoms kept hkept clause hclause
      exact hatom
    · intro group hg
      obtain ⟨kept, hkept, rfl⟩ := List.mem_map.1 hg
      obtain ⟨origin, horigin, rfl⟩ := horigin kept hkept
      obtain ⟨text, rest, rfl, hopen⟩ := h.opens origin horigin
      obtain ⟨others, hothers⟩ := addTexts_nil_cons text rest
      exact ⟨text, texts others, by rw [hothers]; rfl, hopen⟩

/-- **A choice between fragments adds that one of them holds**, if there are any. -/
theorem adds_requireOneOf {q : CompiledQuery} {fragments : List Fragment}
    {groups : List (List String)} (hp : p ∈ choosers) (h : OpenWith p groups)
    (hf : fragments.map (·.clauses) = groups.map (Compiler.addTexts [])) :
    Adds p q.fragment.clauses (q.requireOneOf fragments).fragment.clauses fun v =>
      groups ≠ [] → v.HoldsOne groups := by
  have hafter : (q.requireOneOf fragments).fragment.clauses
      = (disjunction (groups.map (Compiler.addTexts []))).foldl add q.fragment.clauses := by
    rw [← hf]
    rfl
  refine ⟨_, hafter, writtenBy_disjunction hp h, ?_⟩
  intro v
  by_cases hnil : groups = []
  · subst hnil
    simp [disjunction, distinctGroups]
  · have hne : ∀ group ∈ groups.map (Compiler.addTexts []), group ≠ [] := by
      intro group hg
      obtain ⟨origin, horigin, rfl⟩ := List.mem_map.1 hg
      obtain ⟨text, rest, rfl, -⟩ := h.opens origin horigin
      obtain ⟨others, hothers⟩ := addTexts_nil_cons text rest
      rw [hothers]
      exact List.cons_ne_nil _ _
    rw [holds_disjunction (by simpa using hnil) hne isPlain_of_mem_map]
    simp only [List.mem_map, exists_exists_and_eq_and, holds_addTexts_nil, Valuation.HoldsOne]
    exact ⟨fun hone _ => hone, fun hone => hone hnil⟩

end Clause

end FacetSearch
