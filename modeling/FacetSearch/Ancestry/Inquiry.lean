import FacetSearch.Ancestry.Lookup

set_option autoImplicit false

/-! # Inquiries

A computation that asks for entities by name and knows nothing of who answers: either it is done, or it
asks for a name and goes on with the answer. `answeredBy` runs it against a fixed function from names
to entities, and `run` against anything that can look a name up. -/

namespace FacetSearch

inductive Inquiry (α : Type) where
  | done (result : α)
  | ask (name : String) (next : Option Entity → Inquiry α)

namespace Inquiry

variable {α β : Type}

def bind (i : Inquiry α) (f : α → Inquiry β) : Inquiry β :=
  match i with
  | done result => f result
  | ask name next => ask name fun answer => (next answer).bind f

instance : Monad Inquiry where
  pure := done
  bind := bind

/-- Ask for the entity behind a name. -/
def entity? (name : String) : Inquiry (Option Entity) := ask name done

/-- The result when `answer` tells the entity behind each name. -/
def answeredBy (answer : String → Option Entity) : Inquiry α → α
  | done result => result
  | ask name next => (next (answer name)).answeredBy answer

/-- The result when each name is looked up by `look`. -/
def run {m : Type → Type} [Monad m] (look : String → m (Option Entity)) : Inquiry α → m α
  | done result => pure result
  | ask name next => do (next (← look name)).run look

end Inquiry

end FacetSearch
