import FacetSearch.Index.Field
import FacetSearch.Index.Request

set_option autoImplicit false

/-! # Sort values

The order of results as a request asks for it: terms such as `interest--desc---item--asc`, each a key
and an order, with ascending order where none is given. A request without terms sorts by interest, the
greatest first. -/

namespace FacetSearch

inductive SortKey where
  | item
  | interest
  | updated
  | published
  | context
deriving DecidableEq, Repr

namespace SortKey

def all : List SortKey := [item, interest, updated, published, context]

def name : SortKey → String
  | item => "item"
  | interest => "interest"
  | updated => "updated"
  | published => "published"
  | context => "context"

def label : SortKey → String
  | item => "Item"
  | interest => "Interest score"
  | updated => "Updated"
  | published => "Published"
  | context => "Context"

/-- The index field that the key sorts on. -/
def field : SortKey → String
  | item => Field.slugTypeUriLabel
  | interest => Field.interestScore
  | updated => Field.updated
  | published => Field.published
  | context => Field.contextPath

def ofName? (name : String) : Option SortKey := all.find? (·.name = name)

end SortKey

structure SortTerm where
  key : SortKey
  order : SortOrder
deriving DecidableEq, Repr

namespace SortTerm

def spec (t : SortTerm) : SortSpec := ⟨t.key.field, t.order⟩

/-- What separates a key and its order. -/
def orderMark : String := "--"

/-- What separates terms. -/
def termMark : String := "---"

def render (t : SortTerm) : String := t.key.name ++ orderMark ++ t.order.name

/-- The terms of a request that names none. -/
def defaults : List SortTerm := [⟨.interest, .desc⟩]

/-- The name and the order in a term. -/
def parts (term : String) : Except RequestError (String × SortOrder) :=
  match Text.splitLast orderMark term with
  | none => .ok (term, .asc)
  | some (name, order) =>
    match SortOrder.parse? order with
    | some order => .ok (name, order)
    | none => .error (.invalidSort (.unknownOrder term))

/-- The terms of a list of texts, after those in `done`; blank texts are skipped. -/
def parseTerms : List SortTerm → List String → Except RequestError (List SortTerm)
  | done, [] => .ok done
  | done, text :: rest => do
    let term := Text.trim text
    if term.isEmpty then parseTerms done rest
    else
      let (name, order) ← parts term
      let some key := SortKey.ofName? (Text.trim name)
        | throw (.invalidSort (.unknownKey name))
      if done.any (·.key = key) then throw (.invalidSort (.repeated key.name))
      parseTerms (done ++ [⟨key, order⟩]) rest

/-- The terms of a sort value. -/
def parse (raw : String) : Except RequestError (List SortTerm) :=
  (parseTerms [] (Text.splitAt termMark raw)).map fun terms =>
    if terms.isEmpty then defaults else terms

def renderAll (terms : List SortTerm) : String := termMark.intercalate (terms.map render)

end SortTerm

end FacetSearch
