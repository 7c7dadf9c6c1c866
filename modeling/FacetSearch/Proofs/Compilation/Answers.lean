import FacetSearch.Compilation.Path
import Mathlib.Data.List.Forall2

set_option autoImplicit false

/-! # Compiling and its answers

Compiling asks for entities by name. Once a function says who answers to each name, nothing is left of
the asking: `Compiling.under answer` turns a compilation into a plain result or error, and the lemmas
here carry it through the monadic steps, so that later proofs see `Except` only.

A resolver need not answer as a fixed function would. `Obeys` says what holds of a computation whatever
the answers are: which names it asks for, and what it comes to. -/

namespace FacetSearch

variable {α β : Type}

/-! ## Results and errors -/

theorem Except.bind_eq_ok {ε : Type} {x : Except ε α} {f : α → Except ε β} {b : β}
    (h : x >>= f = .ok b) : ∃ a, x = .ok a ∧ f a = .ok b := by
  cases x with
  | error e => exact absurd h (by simp [bind, Except.bind])
  | ok a => exact ⟨a, rfl, h⟩

theorem Except.map_eq_ok {ε : Type} {x : Except ε α} {f : α → β} {b : β}
    (h : x.map f = .ok b) : ∃ a, x = .ok a ∧ f a = b := by
  cases x with
  | error e => exact absurd h (by simp [Except.map])
  | ok a => exact ⟨a, rfl, by simpa [Except.map] using h⟩

/-- Every step of a successful `mapM` succeeds, in the place of its argument. -/
theorem Except.forall₂_of_mapM_eq_ok {ε : Type} {f : α → Except ε β} {l : List α} {results : List β}
    (h : l.mapM f = .ok results) : List.Forall₂ (fun x r => f x = .ok r) l results := by
  induction l generalizing results with
  | nil =>
      obtain rfl : [] = results := by simpa [pure, Except.pure] using h
      exact .nil
  | cons x rest ih =>
      rw [List.mapM_cons] at h
      obtain ⟨r, hr, h⟩ := Except.bind_eq_ok h
      obtain ⟨rs, hrs, h⟩ := Except.bind_eq_ok h
      obtain rfl : r :: rs = results := by simpa [pure, Except.pure] using h
      exact .cons hr (ih hrs)

theorem Except.mapM_eq_ok {ε : Type} {f : α → Except ε β} {g : α → β} {l : List α}
    (h : ∀ a ∈ l, f a = .ok (g a)) : l.mapM f = .ok (l.map g) := by
  induction l with
  | nil => rfl
  | cons a rest ih =>
      rw [List.mapM_cons, h a (List.mem_cons_self ..), ih fun b hb => h b (List.mem_cons_of_mem _ hb)]
      rfl

/-! ## Inquiries -/

namespace Inquiry

theorem bind_done (i : Inquiry α) : i.bind done = i := by
  induction i with
  | done result => rfl
  | ask name next ih =>
      show ask name (fun answer => (next answer).bind done) = ask name next
      exact congrArg (ask name) (funext ih)

theorem bind_bind {γ : Type} (i : Inquiry α) (f : α → Inquiry β) (g : β → Inquiry γ) :
    (i.bind f).bind g = i.bind fun a => (f a).bind g := by
  induction i with
  | done result => rfl
  | ask name next ih =>
      show ask name (fun answer => ((next answer).bind f).bind g) = _
      exact congrArg (ask name) (funext ih)

instance : LawfulMonad Inquiry :=
  LawfulMonad.mk' Inquiry (fun i => bind_done i) (fun _ _ => rfl) (fun i f g => bind_bind i f g)

variable (answer : String → Option Entity)

@[simp] theorem answeredBy_pure (result : α) :
    (pure result : Inquiry α).answeredBy answer = result := rfl

@[simp] theorem answeredBy_bind (i : Inquiry α) (f : α → Inquiry β) :
    (i >>= f).answeredBy answer = (f (i.answeredBy answer)).answeredBy answer := by
  induction i with
  | done result => rfl
  | ask name next ih => exact ih (answer name)

/-- Looking names up goes through the parts of a computation in turn. -/
theorem run_bind {m : Type → Type} [Monad m] [LawfulMonad m] (look : String → m (Option Entity))
    (i : Inquiry α) (f : α → Inquiry β) :
    (i >>= f).run look = i.run look >>= fun a => (f a).run look := by
  induction i with
  | done result => exact (pure_bind result fun a => (f a).run look).symm
  | ask name next ih =>
      show (look name >>= fun answer => (next answer >>= f).run look)
        = (look name >>= fun answer => (next answer).run look) >>= fun a => (f a).run look
      rw [bind_assoc]
      exact bind_congr ih

/-- The computation asks only for some names and comes to something with a property, whatever the
    answers are. -/
def Obeys (asked : String → Prop) (P : α → Prop) : Inquiry α → Prop
  | done result => P result
  | ask name next => asked name ∧ ∀ answer, (next answer).Obeys asked P

variable {answer} {asked : String → Prop} {P : α → Prop} {Q : β → Prop}

theorem obeys_bind {i : Inquiry α} {f : α → Inquiry β} (h : i.Obeys asked P)
    (hf : ∀ a, P a → (f a).Obeys asked Q) : (i >>= f).Obeys asked Q := by
  induction i with
  | done result => exact hf result h
  | ask name next ih => exact ⟨h.1, fun answer => ih answer (h.2 answer)⟩

theorem Obeys.mono {asked' : String → Prop} {P' : α → Prop} {i : Inquiry α} (h : i.Obeys asked P)
    (ha : ∀ name, asked name → asked' name) (hP : ∀ result, P result → P' result) :
    i.Obeys asked' P' := by
  induction i with
  | done result => exact hP result h
  | ask name next ih => exact ⟨ha name h.1, fun answer => ih answer (h.2 answer)⟩

theorem obeys_pure {result : α} (h : P result) : (pure result : Inquiry α).Obeys asked P := h

/-- Every computation asks for something and comes to something. -/
theorem obeys_true (i : Inquiry α) : i.Obeys (fun _ => True) fun _ => True := by
  induction i with
  | done result => exact trivial
  | ask name next ih => exact ⟨trivial, ih⟩

theorem obeys_mapM {f : α → Inquiry β} {l : List α} (h : ∀ a ∈ l, (f a).Obeys asked Q) :
    (l.mapM f).Obeys asked fun results => ∀ result ∈ results, Q result := by
  induction l with
  | nil => exact obeys_pure (by simp)
  | cons a rest ih =>
      rw [List.mapM_cons]
      refine obeys_bind (h a (List.mem_cons_self ..)) ?_
      intro b hb
      refine obeys_bind (ih fun x hx => h x (List.mem_cons_of_mem _ hx)) ?_
      intro bs hbs
      exact obeys_pure (List.forall_mem_cons.2 ⟨hb, hbs⟩)

theorem Obeys.answeredBy {i : Inquiry α} (h : i.Obeys asked P) (answer : String → Option Entity) :
    P (i.answeredBy answer) := by
  induction i with
  | done result => exact h
  | ask name next ih => exact ih (answer name) (h.2 (answer name))

end Inquiry

/-! ## Compilations -/

namespace Compiling

/-- What a compilation comes to when `answer` tells the entity behind each name. -/
def under (answer : String → Option Entity) (x : Compiling α) : Except RequestError α :=
  x.run.answeredBy answer

variable (answer : String → Option Entity)

@[simp] theorem under_pure (result : α) : under answer (pure result) = .ok result := rfl

@[simp] theorem under_throw (e : RequestError) :
    under answer (throw e : Compiling α) = .error e := rfl

@[simp] theorem under_known (result : Except RequestError α) :
    under answer (.mk (pure result)) = result := rfl

@[simp] theorem under_entity? (name : String) :
    under answer (liftM (Inquiry.entity? name) : Compiling (Option Entity)) = .ok (answer name) := rfl

@[simp] theorem under_lift (i : Inquiry α) :
    under answer (ExceptT.lift i) = .ok (i.answeredBy answer) := by
  show (Except.ok <$> i : Inquiry (Except RequestError α)).answeredBy answer = _
  rw [map_eq_pure_bind, Inquiry.answeredBy_bind, Inquiry.answeredBy_pure]

@[simp] theorem under_bind (x : Compiling α) (f : α → Compiling β) :
    under answer (x >>= f) = under answer x >>= fun a => under answer (f a) := by
  simp only [under, ExceptT.run_bind, Inquiry.answeredBy_bind]
  cases x.run.answeredBy answer <;> rfl

theorem under_mapM (f : α → Compiling β) (l : List α) :
    under answer (l.mapM f) = l.mapM fun a => under answer (f a) := by
  induction l with
  | nil => rfl
  | cons a rest ih => simp only [List.mapM_cons, under_bind, under_pure, ih]; rfl

/-- The compilation asks only for some names, and what it comes to has a property, unless it is
    refused. -/
def Obeys (asked : String → Prop) (P : α → Prop) (x : Compiling α) : Prop :=
  x.run.Obeys asked fun outcome => ∀ result, outcome = .ok result → P result

variable {answer} {asked : String → Prop} {P : α → Prop} {Q : β → Prop}

theorem obeys_pure {result : α} (h : P result) : Obeys asked P (pure result) := by
  rintro _ ⟨⟩
  exact h

theorem obeys_throw (e : RequestError) : Obeys asked P (throw e : Compiling α) := by
  rintro _ ⟨⟩

theorem obeys_known {outcome : Except RequestError α} (h : ∀ result, outcome = .ok result → P result) :
    Obeys asked P (.mk (pure outcome)) := h

theorem obeys_bind {x : Compiling α} {f : α → Compiling β} (h : x.Obeys asked P)
    (hf : ∀ a, P a → (f a).Obeys asked Q) : (x >>= f).Obeys asked Q := by
  unfold Obeys
  rw [ExceptT.run_bind]
  refine Inquiry.obeys_bind h ?_
  intro outcome hp
  cases outcome with
  | ok result => exact hf result (hp result rfl)
  | error e =>
      rintro _ ⟨⟩

theorem obeys_lift {i : Inquiry α} (h : i.Obeys asked P) : Obeys asked P (ExceptT.lift i) := by
  refine Inquiry.obeys_bind h ?_
  intro a ha
  rintro _ ⟨⟩
  exact ha

theorem obeys_entity? {name : String} (h : asked name) :
    Obeys asked (fun _ => True) (liftM (Inquiry.entity? name) : Compiling (Option Entity)) :=
  ⟨h, fun _ _ _ => trivial⟩

theorem Obeys.mono {asked' : String → Prop} {P' : α → Prop} {x : Compiling α} (h : x.Obeys asked P)
    (ha : ∀ name, asked name → asked' name) (hP : ∀ result, P result → P' result) :
    x.Obeys asked' P' :=
  Inquiry.Obeys.mono h ha fun _ hr result he => hP result (hr result he)

theorem obeys_mapM {f : α → Compiling β} {l : List α} (h : ∀ a ∈ l, (f a).Obeys asked Q) :
    (l.mapM f).Obeys asked fun results => ∀ result ∈ results, Q result := by
  induction l with
  | nil => exact obeys_pure (by simp)
  | cons a rest ih =>
      rw [List.mapM_cons]
      refine obeys_bind (h a (List.mem_cons_self ..)) ?_
      intro b hb
      refine obeys_bind (ih fun x hx => h x (List.mem_cons_of_mem _ hx)) ?_
      intro bs hbs
      exact obeys_pure (List.forall_mem_cons.2 ⟨hb, hbs⟩)

theorem Obeys.under {x : Compiling α} (h : x.Obeys asked P) {answer : String → Option Entity}
    {result : α} (hx : Compiling.under answer x = .ok result) : P result :=
  Inquiry.Obeys.answeredBy h answer result hx

theorem Obeys.inquiry {x : Compiling α} (h : x.Obeys asked P) :
    x.run.Obeys asked fun outcome => ∀ result, outcome = .ok result → P result := h

-- the lemmas above are all that proofs need, and opening the definition runs the compilation
attribute [irreducible] Compiling.Obeys

end Compiling

end FacetSearch
