import FacetSearch.Proofs.Ancestry.Steady
import Mathlib

set_option autoImplicit false

/-! # Questions and their answers

`Exchange` follows an inquiry along one of its courses, with each question that it asks and the answer
that it is given. Nothing is said about who answers: the same question may be answered in two ways.
Every result belongs to such an exchange, be it under a fixed function (`exists_exchange`) or of a
session with a resolver (`exists_exchange_of_run`). -/

namespace FacetSearch.Inquiry

variable {α β : Type} {i : Inquiry α} {result : α} {log : List (String × Option Entity)}

/-- The inquiry comes to a result when its questions are answered in turn as the log has it. -/
inductive Exchange {α : Type} : Inquiry α → List (String × Option Entity) → α → Prop where
  | done (result : α) : Exchange (.done result) [] result
  | ask {name : String} {next : Option Entity → Inquiry α} {found : Option Entity}
    {log : List (String × Option Entity)} {result : α} (h : Exchange (next found) log result) :
    Exchange (.ask name next) ((name, found) :: log) result

theorem exchange_pure_iff {a : α} :
    (pure a : Inquiry α).Exchange log result ↔ log = [] ∧ result = a := by
  constructor
  · rintro ⟨⟩
    exact ⟨rfl, rfl⟩
  · rintro ⟨rfl, rfl⟩
    exact .done _

theorem exchange_entity?_iff {name : String} {found : Option Entity} :
    (entity? name).Exchange log found ↔ log = [(name, found)] := by
  constructor
  · rintro (_ | ⟨⟨⟩⟩)
    rfl
  · rintro rfl
    exact .ask (.done _)

/-- The questions of two parts are asked one part after the other. -/
theorem exchange_bind_iff {f : α → Inquiry β} {b : β} : (i >>= f).Exchange log b ↔
    ∃ before behind a, log = before ++ behind ∧ i.Exchange before a ∧ (f a).Exchange behind b := by
  constructor
  · intro h
    induction i generalizing log with
    | done result => exact ⟨[], log, result, rfl, .done _, h⟩
    | ask name next ih =>
        cases h with
        | @ask _ _ found log _ h =>
            obtain ⟨before, behind, a, rfl, hfirst, hsecond⟩ := ih found h
            exact ⟨(name, found) :: before, behind, a, rfl, .ask hfirst, hsecond⟩
  · rintro ⟨before, behind, a, rfl, hfirst, hsecond⟩
    induction hfirst with
    | done result => exact hsecond
    | ask h ih => exact .ask (ih hsecond)

/-- What holds under all answers holds of every exchange. -/
theorem Obeys.of_exchange {asked : String → Prop} {P : α → Prop} (hi : i.Obeys asked P)
    (h : i.Exchange log result) : P result := by
  induction h with
  | done result => exact hi
  | @ask name next found log result h ih => exact ih (hi.2 found)

theorem exists_exchange (answer : String → Option Entity) (i : Inquiry α) :
    ∃ log, i.Exchange log (i.answeredBy answer) ∧ ∀ entry ∈ log, entry.2 = answer entry.1 := by
  induction i with
  | done result => exact ⟨[], .done _, by simp⟩
  | ask name next ih =>
      obtain ⟨log, hlog, hanswers⟩ := ih (answer name)
      exact ⟨(name, answer name) :: log, .ask hlog, List.forall_mem_cons.2 ⟨rfl, hanswers⟩⟩

theorem exists_exchange_of_run {σ : Type} {look : String → Lookups σ (Option Entity)} {x : Session σ}
    (h : (((i.run look).run).run x).1 = .ok result) : ∃ log, i.Exchange log result := by
  induction i generalizing x with
  | done result' =>
      obtain rfl := Except.ok.inj h
      exact ⟨[], .done _⟩
  | ask name next ih =>
      unfold Inquiry.run at h
      rw [run_bind_lookups] at h
      split at h
      · next found y _ =>
        obtain ⟨log, hlog⟩ := ih found h
        exact ⟨(name, found) :: log, .ask hlog⟩
      · exact absurd h (by simp)

end FacetSearch.Inquiry
