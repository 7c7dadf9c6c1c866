import FacetSearch.Ancestry.Deployment
import FacetSearch.CommandLine.Arguments
import FacetSearch.Service
import FacetSearch.Settings.Document

set_option autoImplicit false

/-! # Commands

The program as a function from its arguments, the files it may read and the index to its output. It
compiles requests, runs searches and converts tile paths. Files are looked at in a fixed order:
settings, entities, statistics; the first one that is missing or wrong ends the command. -/

namespace FacetSearch

/-! ## Commands -/

/-- What a request is compiled from. -/
structure RequestSource where
  /-- The file with the entities. -/
  entities : String
  query : String := ""
  /-- The file with the settings. -/
  settings : Option String := none
deriving DecidableEq, Repr

inductive Command where
  | compile (source : RequestSource) (stats : Option String)
  | search (source : RequestSource) (engineUrl : Option String) (timeout : Option Nat)
  | encode (earliest latest : Int) (magnitude : String) (years : Bool)
  | decode (path : String)
deriving DecidableEq, Repr

namespace Command

/-- The options of commands that compile requests. -/
def sourceOptions : List OptionSpec :=
  [⟨"entities", none⟩, ⟨"query", some 'q'⟩, ⟨"config", some 'c'⟩]

/-- The path that an option names, which is not empty. -/
def path? (a : Arguments) (name : String) : Option (Option String) :=
  match a.option? name with
  | some path => if path.isEmpty then none else some (some path)
  | none => some none

def source? (a : Arguments) : Option RequestSource := do
  guard a.positional.isEmpty
  return {
    entities := ← (← path? a "entities")
    query := (a.option? "query").getD ""
    settings := ← path? a "config" }

def compile? (words : List String) : Option Command := do
  let a ← ArgumentSpec.read { options := sourceOptions ++ [⟨"stats", none⟩] } words
  return .compile (← source? a) (← path? a "stats")

def search? (words : List String) : Option Command := do
  let a ← ArgumentSpec.read
    { options := sourceOptions ++ [⟨"engine-url", none⟩, ⟨"timeout-ms", none⟩] } words
  let timeout ← match a.option? "timeout-ms" with
    | some text => (Decimal.nat? Decimal.greatestWord text).map some
    | none => some none
  return .search (← source? a) (a.option? "engine-url") timeout

def encode? (words : List String) : Option Command := do
  let a ← ArgumentSpec.read
    { options := [⟨"prefix", none⟩], flags := ["years"], negatives := true } words
  match a.positional with
  | [earliest, latest] =>
    return .encode (← Decimal.int64? earliest) (← Decimal.int64? latest)
      ((a.option? "prefix").getD "") (a.flags.contains "years")
  | _ => none

def decode? (words : List String) : Option Command := do
  let a ← ArgumentSpec.read {} words
  match a.positional with
  | [path] => return .decode path
  | _ => none

/-- The command that words give, if they are understood. -/
def parse? : List String → Option Command
  | "compile" :: words => compile? words
  | "search" :: words => search? words
  | "tile" :: "encode" :: words => encode? words
  | "tile" :: "decode" :: words => decode? words
  | _ => none

/-- The files that a command may read. -/
def files : Command → List String
  | compile source stats => source.settings.toList ++ source.entities :: stats.toList
  | search source _ _ => source.settings.toList ++ [source.entities]
  | _ => []

end Command

/-! ## Failures -/

inductive CommandError where
  /-- The arguments are not understood. -/
  | usage
  /-- The file with the settings cannot be read, or does not hold any. -/
  | settingsFile (path : String) (why : Option SettingsError)
  | entities (path : String)
  /-- The file with the statistics cannot be read. -/
  | statsFile (path : String)
  /-- The file with the statistics does not hold any. -/
  | statsText (path : String)
  | compile (query : String) (why : SearchError)
  | settings (why : SettingsError)
  | search (query : String) (why : SearchError)
  | encode (earliest latest : Int) (why : TileError)
  | decode (path : String) (why : TileError)

namespace CommandError

def message : CommandError → String
  | usage => "unexpected arguments"
  | settingsFile path _ => s!"failed to load config from {path}"
  | entities path => s!"failed to load entities from {path}"
  | statsFile path => s!"failed to read stats from {path}"
  | statsText path => s!"failed to parse stats in {path}"
  | compile query _ => s!"failed to compile '{query}'"
  | settings _ => "invalid search configuration"
  | search query _ => s!"search for '{query}' failed"
  | encode earliest latest _ => s!"cannot encode {earliest} to {latest}"
  | decode path _ => s!"cannot decode '{path}'"

/-- The text of the fault behind an error, where the fault lies in the request, the settings or a
    tile. -/
def cause? : CommandError → Option String
  | settingsFile _ why => why.bind SettingsError.message?
  | settings why => why.message?
  | compile _ why | search _ why => if why.isClientError then why.message? else none
  | encode _ _ why | decode _ why => some why.message
  | _ => none

end CommandError

/-! ## Running -/

/-- The contents of the files that can be read. -/
abbrev Files := String → Option String

def loadSettings (files : Files) : Option String → Except CommandError Settings
  | none => .ok {}
  | some path =>
    match files path with
    | none => .error (.settingsFile path none)
    | some text => (Settings.ofText text).mapError fun e => .settingsFile path (some e)

def loadEntities (files : Files) (path : String) : Except CommandError Catalogue :=
  match (files path).bind Catalogue.ofText? with
  | some catalogue => .ok catalogue
  | none => .error (.entities path)

/-- The statistics of a file are a full answer of the index; without a file nothing is known. -/
def loadStats (files : Files) : Option String → Except CommandError StatsTable
  | none => .ok {}
  | some path =>
    match files path with
    | none => .error (.statsFile path)
    | some text =>
      match (Json.parse? text).bind (Json.map? FieldStats.ofJson?) with
      | some fields => .ok { fields, answered := true }
      | none => .error (.statsText path)

/-- The state behind a service over some entities. -/
def deploy (s : Settings) (catalogue : Catalogue) : Deployment :=
  { catalogue, cache := .empty s.resolver.cacheCapacity }

/-- A value as printed, on several lines with names in order. -/
def printed (value : Json) : String := value.sorted.pretty 0 ++ "\n"

/-- A span of time and the path that covers it. -/
def Chronology.Span.toJson (s : Chronology.Span) (path : String) : Json :=
  let int (n : Int) : Json := .number (.integer n)
  .object [("path", .string path), ("earliest", int s.earliest), ("latest", int s.latest),
    ("earliest_year", int s.earliestYear), ("latest_year", int s.latestYear),
    ("max_bound", int s.bound)]

/-- The settings of a search, with what the command line says of the index. -/
def searchSettings (s : Settings) (engineUrl : Option String) (timeout : Option Nat) : Settings :=
  { s with engine := {
      baseUrl := engineUrl.getD s.engine.baseUrl
      timeout := timeout.getD s.engine.timeout } }

/-- What a command prints. -/
def Command.run (files : Files) (engine : Settings → Engine) :
    Command → Except CommandError String
  | compile source statsFile => do
    let s ← loadSettings files source.settings
    let world := deploy s (← loadEntities files source.entities)
    let stats ← loadStats files statsFile
    let run := plan s Deployment.backing stats (Params.parse source.query) world
    let p ← run.1.result.mapError (.compile source.query)
    return printed p.toJson
  | search source engineUrl timeout => do
    let s := searchSettings (← loadSettings files source.settings) engineUrl timeout
    s.check.mapError .settings
    let world := deploy s (← loadEntities files source.entities)
    let run := FacetSearch.search s Deployment.backing (engine s) (Params.parse source.query) world
    let page ← run.1.result.mapError (.search source.query)
    return page.toJson.pretty 0 ++ "\n"
  | encode earliest latest magnitude years => do
    let path := if years then Chronology.encodeYears earliest latest magnitude
      else Chronology.encode earliest latest magnitude
    return (← path.mapError (.encode earliest latest)) ++ "\n"
  | decode path => do
    let span ← (Chronology.decode path).mapError (.decode path)
    return printed (span.toJson path)

/-- What the program prints for its arguments. -/
def runWords (files : Files) (engine : Settings → Engine) (words : List String) :
    Except CommandError String :=
  match Command.parse? words with
  | none => .error .usage
  | some command => command.run files engine

end FacetSearch
