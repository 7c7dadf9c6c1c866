import FacetSearch.Ancestry.Lookup
import FacetSearch.Compilation.Compiler
import FacetSearch.Navigation.Assembly
import FacetSearch.Settings.Basic

set_option autoImplicit false

/-! # Search

A request from its parameters to its page. It is compiled against nothing; when a range waits for its
bounds, the index is asked for statistics and the request is compiled again with its answer, which
tells the bounds of every field. Then the index is asked for results and the page is assembled. The
first failure ends the search, and there is no partial page. Every search remembers entities on its
own, while the cache outlives it. -/

namespace FacetSearch

/-! ## Errors -/

/-- Why a search failed. -/
inductive SearchError where
  | request (error : RequestError)
  | store (error : StoreError)
  | engine (error : EngineError)
deriving DecidableEq, Repr

namespace SearchError

/-- The text of an error, where it has one of its own. -/
def message? : SearchError → Option String
  | request error => some error.message
  | store error => some ("Entity store failure: " ++ error.message)
  | engine error => error.message?.map ("Search index unavailable: " ++ ·)

/-- The fault lies with the request and not with what stands behind the service. -/
def isClientError : SearchError → Bool
  | request _ => true
  | _ => false

end SearchError

/-! ## Asking -/

variable {σ : Type}

/-- Run a computation that asks for entities with a resolver. -/
def Inquiry.resolved {α : Type} (b : Backing σ) (s : ResolverSettings) (i : Inquiry α) :
    Lookups σ α :=
  i.run (resolve? b s)

/-- The answer of the index to a request, given the requests before it. -/
abbrev Engine := List IndexRequest → IndexRequest → Except EngineError IndexReply

/-- Steps of a search: the requests that were sent so far, and what the resolver has learned. -/
abbrev Searching (σ : Type) :=
  ExceptT SearchError (StateT (List IndexRequest) (StateM (Session σ)))

namespace Searching

/-- A step that looks entities up. -/
def lookups {α : Type} (l : Lookups σ α) : Searching σ α :=
  ExceptT.mk fun sent => do
    match ← l.run with
    | .ok result => return (.ok result, sent)
    | .error error => return (.error (.store error), sent)

/-- Send a request to the index. -/
def send (engine : Engine) (request : IndexRequest) : Searching σ IndexReply := do
  let sent ← get
  set (sent ++ [request])
  match engine sent request with
  | .ok reply => return reply
  | .error error => throw (.engine error)

end Searching

/-! ## Compiling -/

/-- Compile a request against a table of statistics. -/
def compiled (s : Settings) (b : Backing σ) (stats : StatsTable) (params : Params) :
    Searching σ CompiledQuery := do
  let c : Compiler := { settings := s.compiler, stats }
  match ← Searching.lookups (Inquiry.resolved b s.resolver (c.compile params).run) with
  | .ok query => return query
  | .error error => throw (.request error)

/-- What is to be sent for a request first. -/
inductive Plan where
  /-- Bounds are missing, so their statistics come first. -/
  | prequery (request : IndexRequest)
  | query (request : IndexRequest)

def CompiledQuery.plan (q : CompiledQuery) : Plan :=
  if q.needsPrequery then .prequery q.prequery else .query q.toRequest

def Plan.request : Plan → IndexRequest
  | prequery request | query request => request

/-- The name of the phase that the plan is for. -/
def Plan.phase : Plan → String
  | prequery _ => "prequery"
  | query _ => "query"

def Plan.toJson (p : Plan) : Json :=
  .object [("phase", .string p.phase), ("request", p.request.toJson)]

/-- What would be sent for a request with known statistics. -/
def planned (s : Settings) (b : Backing σ) (stats : StatsTable) (params : Params) :
    Searching σ Plan :=
  return (← compiled s b stats params).plan

/-- Compile a request, with the statistics of the index where bounds are missing. -/
def compiledWithBounds (s : Settings) (b : Backing σ) (engine : Engine) (params : Params) :
    Searching σ CompiledQuery := do
  let q ← compiled s b {} params
  if q.needsPrequery then
    let reply ← Searching.send engine q.prequery
    compiled s b (.ofReply reply) params
  else return q

/-! ## Searching -/

/-- The page of a request. -/
def searched (s : Settings) (b : Backing σ) (engine : Engine) (params : Params) :
    Searching σ ResultPage := do
  let query ← compiledWithBounds s b engine params
  let reply ← Searching.send engine query.toRequest
  let a : Assembly := {
    settings := s.navigation, compiler := s.compiler, params, query, reply }
  Searching.lookups (Inquiry.resolved b s.resolver a.page)

/-- What came of a search: the requests that were sent, in order, and its page or its failure. -/
structure SearchRun (α : Type) where
  sent : List IndexRequest
  result : Except SearchError α

/-- Run the steps of a search with a resolver that knows nothing yet. -/
def Searching.start {α : Type} (steps : Searching σ α) (world : σ) : SearchRun α × σ :=
  let ((result, sent), session) := (steps.run []).run { world }
  ({ sent, result }, session.world)

/-- Search, from the state behind the service to the state that it leaves. -/
def search (s : Settings) (b : Backing σ) (engine : Engine) (params : Params) (world : σ) :
    SearchRun ResultPage × σ :=
  (searched s b engine params).start world

/-- Plan a request. -/
def plan (s : Settings) (b : Backing σ) (stats : StatsTable) (params : Params) (world : σ) :
    SearchRun Plan × σ :=
  (planned s b stats params).start world

end FacetSearch
