import FacetSearch.Proofs.Ancestry.Calls
import FacetSearch.Proofs.Entity.Catalogue

set_option autoImplicit false

/-! # What a resolver says of a name

A resolver over a steady catalogue repeats what the catalogue says, but for one thing: an entity that
was found under some name is remembered under its identifier too, though the identifier may belong to
another entity. `Said` allows for this, and `Steady.answering` shows that it allows for all. When the
catalogue falters, nothing else is said for that (`Faltering.answering`). -/

namespace FacetSearch

variable {σ : Type}

section

variable (used : String → Prop) (store : String → Except StoreError (Option Entity))

/-- The catalogue says so of the name, or the name is the identifier of an entity that it found. -/
def Said (name : String) (found : Option Entity) : Prop :=
  (used name ∧ store name = .ok found) ∨
    ∃ e asked, found = some e ∧ e.identifier = name ∧ used asked ∧ store asked = .ok (some e)

/-- What a resolver may answer: nothing to a name that is never asked for, and else what was said. -/
def ResolverSettings.MayAnswer (s : ResolverSettings) (raw : String) (found : Option Entity) : Prop :=
  if (Text.trim raw).isEmpty || s.isRoot (Text.trim raw) then found = none
  else Said used store (Text.trim raw) found

/-- All that is remembered of names was said. -/
def Memo.Recalls (m : Memo) : Prop :=
  ∀ name found, m.entities[name]? = some found → Said used store name found

end

variable {used : String → Prop} {store : String → Except StoreError (Option Entity)}
  {s : ResolverSettings}

theorem Said.found {name : String} {e : Entity} (h : Said used store name (some e)) :
    ∃ asked, used asked ∧ store asked = .ok (some e) := by
  rcases h with ⟨hname, hstore⟩ | ⟨_, asked, hfound, -, hasked, hstore⟩
  · exact ⟨name, hname, hstore⟩
  · obtain rfl := Option.some.inj hfound
    exact ⟨asked, hasked, hstore⟩

theorem ResolverSettings.MayAnswer.said {raw : String} {e : Entity}
    (h : s.MayAnswer used store raw (some e)) : Said used store (Text.trim raw) (some e) := by
  unfold MayAnswer at h
  split at h
  · exact absurd h (by simp)
  · exact h

/-- The entity that a name stands for; none for a name that is never asked for. -/
def ResolverSettings.answer (s : ResolverSettings) (find : String → Option Entity) (raw : String) :
    Option Entity :=
  if (Text.trim raw).isEmpty || s.isRoot (Text.trim raw) then none else find (Text.trim raw)

/-- When entities are found under their identifiers, a name is answered with what is found. -/
theorem ResolverSettings.MayAnswer.eq_answer {find : String → Option Entity}
    (hids : ∀ name e, find name = some e → find e.identifier = some e) {raw : String}
    {found : Option Entity} (h : s.MayAnswer used (fun name => .ok (find name)) raw found) :
    found = s.answer find raw := by
  unfold MayAnswer at h
  unfold answer
  split at h
  · next hskip => rw [if_pos hskip, h]
  · next hskip =>
    rw [if_neg hskip]
    rcases h with ⟨-, hfind⟩ | ⟨e, asked, rfl, hidentifier, -, hfind⟩
    · exact (Except.ok.inj hfind).symm
    · rw [← hidentifier, hids asked e (Except.ok.inj hfind)]

/-- Over a catalogue whose entities share no names, a name is answered with what is found. -/
theorem ResolverSettings.MayAnswer.eq_answer_of_namesApart {entities : List Entity}
    (hapart : Catalogue.NamesApart entities) {raw : String} {found : Option Entity}
    (h : s.MayAnswer used (fun name => .ok ((Catalogue.ofList entities).find? name)) raw found) :
    found = s.answer (Catalogue.ofList entities).find? raw :=
  h.eq_answer fun _ _ he => hapart.find?_identifier he

/-- An answer is remembered under its name and under the identifier of the entity found. -/
theorem Memo.of_getElem?_remember {m : Memo} {name name' : String} {answer found : Option Entity}
    (h : (m.remember name answer).entities[name']? = some found) :
    (found = answer ∧ (name' = name ∨ ∃ e, answer = some e ∧ e.identifier = name')) ∨
      m.entities[name']? = some found := by
  unfold remember at h
  dsimp only at h
  rw [Std.ExtTreeMap.getElem?_insert] at h
  split at h
  · next hname =>
    refine .inl ⟨(Option.some.inj h).symm, .inl ?_⟩
    exact (Std.LawfulEqCmp.compare_eq_iff_eq.1 hname).symm
  · cases answer with
    | none => exact .inr h
    | some e =>
        dsimp only at h
        split at h
        · exact .inr h
        · rw [Std.ExtTreeMap.getElem?_insert] at h
          split at h
          · next hidentifier =>
            refine .inl ⟨(Option.some.inj h).symm, .inr ⟨e, rfl, ?_⟩⟩
            exact Std.LawfulEqCmp.compare_eq_iff_eq.1 hidentifier
          · exact .inr h

theorem Memo.recalls_empty : ({} : Memo).Recalls used store := by
  intro name found hfound
  exact absurd hfound (by simp)

theorem Memo.Recalls.remember {m : Memo} (h : m.Recalls used store) {name : String}
    {answer : Option Entity} (hname : used name) (hstore : store name = .ok answer) :
    (m.remember name answer).Recalls used store := by
  intro name' found hfound
  rcases Memo.of_getElem?_remember hfound with ⟨rfl, rfl | ⟨e, rfl, hidentifier⟩⟩ | hold
  · exact .inl ⟨hname, hstore⟩
  · exact .inr ⟨e, name, rfl, hidentifier, hname, hstore⟩
  · exact h name' found hold

/-- What a memory answers may be answered, and all that it remembers then was said; it fails when the
    catalogue does. -/
theorem Memo.Recalls.look {m : Memo} (h : m.Recalls used store) {raw : String}
    (hraw : used (Text.trim raw)) :
    (m.look s store raw).2.Recalls used store ∧
      match (m.look s store raw).1 with
      | .ok found => s.MayAnswer used store raw found
      | .error error => store (Text.trim raw) = .error error := by
  unfold Memo.look ResolverSettings.MayAnswer
  by_cases hskip : ((Text.trim raw).isEmpty || s.isRoot (Text.trim raw)) = true
  · simp only [if_pos hskip]
    exact ⟨h, trivial⟩
  · simp only [if_neg hskip]
    cases hmemo : m.entities[Text.trim raw]? with
    | some found => exact ⟨h, h _ _ hmemo⟩
    | none =>
        cases hstore : store (Text.trim raw) with
        | error error => exact ⟨h, rfl⟩
        | ok found => exact ⟨h.remember hraw hstore, .inl ⟨hraw, hstore⟩⟩

/-- A resolver says what the catalogue says, of the names in use and of the parents of what it found,
    unless the catalogue falters. -/
theorem Faltering.answering {b : Backing σ} {sound broken : σ → Prop} {fails : Prop}
    (h : Faltering b s.cacheSpace used store sound broken)
    (hstore : ∀ name error, used name → store name = .error error → fails)
    (hbroken : ∀ world, broken world → fails ∧ sound world)
    (hparents : ∀ name e, used name → store name = .ok (some e) →
      ∀ parent ∈ e.parents, used (Text.trim parent)) :
    Answering b s used (s.MayAnswer used store)
      (fun x => sound x.world ∧ x.memo.Recalls used store) fails where
  resolve := by
    intro raw hraw
    refine ⟨fun x ⟨hsound, hrecalls⟩ => ?_⟩
    rcases h.resolve?_cases hraw hsound with ⟨world, hworld, hrun⟩ | ⟨error, world, hworld, hrun⟩
    · obtain ⟨hrecalls', hanswer⟩ := hrecalls.look (s := s) hraw
      rw [hrun]
      generalize x.memo.look s store raw = looked at hrecalls' hanswer
      obtain ⟨_ | found, m⟩ := looked
      · exact .error ⟨hstore _ _ hraw hanswer, hworld, hrecalls'⟩
      · exact .ok ⟨⟨hworld, hrecalls'⟩, hanswer⟩
    · rw [hrun]
      exact .error ⟨(hbroken world hworld).1, (hbroken world hworld).2, hrecalls⟩
  parents := by
    intro raw e he
    obtain ⟨asked, hasked, hstore⟩ := he.said.found
    exact hparents asked e hasked hstore
  learn := fun hx => hx

/-- **A resolver over a steady catalogue says what the catalogue says**, of the names in use and of the
    parents of what it found, and fails only when the catalogue does. -/
theorem Steady.answering {b : Backing σ} {sound : σ → Prop}
    (h : Steady b s.cacheSpace used store sound)
    (hparents : ∀ name e, used name → store name = .ok (some e) →
      ∀ parent ∈ e.parents, used (Text.trim parent)) :
    Answering b s used (s.MayAnswer used store)
      (fun x => sound x.world ∧ x.memo.Recalls used store)
      (∃ name error, used name ∧ store name = .error error) :=
  h.faltering.answering (fun name error hname herror => ⟨name, error, hname, herror⟩)
    (fun _ hbroken => hbroken.elim) hparents

end FacetSearch
