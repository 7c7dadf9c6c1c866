import FacetSearch.Ancestry.Lookup
import FacetSearch.Compilation.Settings
import FacetSearch.Json.Record
import FacetSearch.Navigation.Assembly
import FacetSearch.Settings.BaseUrl

set_option autoImplicit false

/-! # Settings

All settings of a search service, one section for each of its parts. What is left out has its default,
unknown names are ignored, and before use every section is checked; the first fault is reported. -/

namespace FacetSearch

/-! ## Sections -/

structure EngineSettings where
  /-- Requests go to `select` below this URL. -/
  baseUrl : String := "http://127.0.0.1:8983/solr/strata"
  /-- How long a request may take, in milliseconds. -/
  timeout : Nat := 10000
deriving DecidableEq, Repr

/-- The URL that requests go to. -/
def EngineSettings.selectUrl (s : EngineSettings) : String :=
  String.ofList ((s.baseUrl.toList.reverse.dropWhile (· = '/')).reverse) ++ "/select"

structure LoggingSettings where
  level : String := "info"
deriving DecidableEq, Repr

structure Settings where
  compiler : CompilerSettings := {}
  resolver : ResolverSettings := {}
  engine : EngineSettings := {}
  navigation : NavigationSettings := {}
  logging : LoggingSettings := {}
deriving DecidableEq, Repr

/-! ## Faults -/

/-- What is wrong with a section. -/
inductive BadSetting where
  | empty (name : String)
  | zero (name : String)
  | tooManyRows (rows greatest : Nat)
  | noGroups
  | tooDeep (depth greatest : Nat)
  | outside (name : String) (greatest : Nat)
  | notUrl (text : String) (why : BadUrl)
  | scheme (name : String)
deriving DecidableEq, Repr

def BadSetting.message : BadSetting → String
  | empty name => s!"{name} must not be empty"
  | zero name => s!"{name} must be > 0"
  | tooManyRows rows greatest => s!"default_rows ({rows}) must be <= max_rows ({greatest})"
  | noGroups => "range group counts must be > 0"
  | tooDeep depth greatest => s!"max_depth must be <= {greatest}, got {depth}"
  | outside name greatest => s!"{name} must be within 1..={greatest}"
  | notUrl text why => s!"base_url '{text}' is not a URL: {why.message}"
  | scheme name => s!"base_url scheme must be http or https, got '{name}'"

/-- Why settings cannot be used. -/
inductive SettingsError where
  /-- The text does not follow its format, or a value has the wrong type. -/
  | unreadable
  | invalid (group : String) (why : BadSetting)
deriving DecidableEq, Repr

/-- The text of an error, where it has one of its own. -/
def SettingsError.message? : SettingsError → Option String
  | unreadable => none
  | invalid group why => some s!"Invalid [{group}] config: {why.message}"

/-! ## Checks -/

/-- An error if the condition does not hold. -/
def demand (holds : Bool) (why : BadSetting) : Except BadSetting Unit :=
  if holds then .ok () else .error why

def CompilerSettings.check (s : CompilerSettings) : Except BadSetting Unit := do
  demand (!s.orDelimiter.isEmpty) (.empty "or_delimiter")
  demand (0 < s.maxAlternatives) (.zero "max_alternatives")
  demand (s.defaultRows ≤ s.maxRows) (.tooManyRows s.defaultRows s.maxRows)
  demand (0 < s.rangeGroups && 0 < s.smallRangeGroups) .noGroups
  demand (!s.relatedMark.isEmpty) (.empty "related_prefix")

/-- The most hops that may be allowed. -/
def ResolverSettings.greatestDepth : Nat := 256

def ResolverSettings.check (s : ResolverSettings) : Except BadSetting Unit := do
  demand (0 < s.maxDepth) (.zero "max_depth")
  demand (s.maxDepth ≤ greatestDepth) (.tooDeep s.maxDepth greatestDepth)
  demand (0 < s.maxChains) (.zero "max_chains")
  demand (!Text.isBlankText s.rootName) (.empty "root_sentinel")
  demand (!Text.isBlankText s.cacheSpace) (.empty "cache_namespace")

def EngineSettings.check (s : EngineSettings) : Except BadSetting Unit := do
  let scheme ← (BaseUrl.scheme s.baseUrl).mapError (.notUrl s.baseUrl)
  demand (scheme = "http" || scheme = "https") (.scheme scheme)
  demand (0 < s.timeout) (.zero "timeout_ms")

def NavigationSettings.check (s : NavigationSettings) : Except BadSetting Unit := do
  let within (depth : Nat) (space : TileSpace) : Bool :=
    0 < depth && depth ≤ Compiler.deepest space
  demand (!s.baseUrl.isEmpty) (.empty "base_url")
  demand (within s.chronoDepth .chrono) (.outside "chrono_depth" (Compiler.deepest .chrono))
  demand (within s.geoDepth .geo) (.outside "geo_depth" (Compiler.deepest .geo))
  demand (0 < s.maxFacetOptions) (.zero "max_facet_options")

def LoggingSettings.check (s : LoggingSettings) : Except BadSetting Unit :=
  demand (!Text.isBlankText s.level) (.empty "level")

/-- Check every section in order. -/
def Settings.check (s : Settings) : Except SettingsError Unit := do
  s.compiler.check.mapError (.invalid "compiler")
  s.resolver.check.mapError (.invalid "resolver")
  s.engine.check.mapError (.invalid "engine")
  s.navigation.check.mapError (.invalid "facets")
  s.logging.check.mapError (.invalid "logging")

/-! ## JSON -/

/-- The names of a section's fields, in order. -/
def CompilerSettings.fields : List String :=
  ["or_delimiter", "max_alternatives", "default_rows", "max_rows", "range_groups",
    "small_range_groups", "small_count_threshold", "related_prefix"]

def CompilerSettings.ofJson? (value : Json) : Option CompilerSettings := do
  let d : CompilerSettings := {}
  let r ← value.record? fields
  return {
    orDelimiter := ← r.withDefault "or_delimiter" d.orDelimiter Json.string?
    maxAlternatives := ← r.withDefault "max_alternatives" d.maxAlternatives Json.word?
    defaultRows := ← r.withDefault "default_rows" d.defaultRows Json.word?
    maxRows := ← r.withDefault "max_rows" d.maxRows Json.word?
    rangeGroups := ← r.withDefault "range_groups" d.rangeGroups Json.word?
    smallRangeGroups := ← r.withDefault "small_range_groups" d.smallRangeGroups Json.word?
    smallCountThreshold := ← r.withDefault "small_count_threshold" d.smallCountThreshold Json.word?
    relatedMark := ← r.withDefault "related_prefix" d.relatedMark Json.string? }

def CompilerSettings.toJson (s : CompilerSettings) : Json :=
  .object [("or_delimiter", .string s.orDelimiter), ("max_alternatives", .ofNat s.maxAlternatives),
    ("default_rows", .ofNat s.defaultRows), ("max_rows", .ofNat s.maxRows),
    ("range_groups", .ofNat s.rangeGroups), ("small_range_groups", .ofNat s.smallRangeGroups),
    ("small_count_threshold", .ofNat s.smallCountThreshold),
    ("related_prefix", .string s.relatedMark)]

/-- The names of a section's fields, in order. -/
def ResolverSettings.fields : List String :=
  ["max_depth", "max_chains", "root_sentinel", "cache_namespace", "cache_capacity"]

def ResolverSettings.ofJson? (value : Json) : Option ResolverSettings := do
  let d : ResolverSettings := {}
  let r ← value.record? fields
  return {
    maxDepth := ← r.withDefault "max_depth" d.maxDepth Json.word?
    maxChains := ← r.withDefault "max_chains" d.maxChains Json.word?
    rootName := ← r.withDefault "root_sentinel" d.rootName Json.string?
    cacheSpace := ← r.withDefault "cache_namespace" d.cacheSpace Json.string?
    cacheCapacity := ← r.withDefault "cache_capacity" d.cacheCapacity Json.word? }

def ResolverSettings.toJson (s : ResolverSettings) : Json :=
  .object [("max_depth", .ofNat s.maxDepth), ("max_chains", .ofNat s.maxChains),
    ("root_sentinel", .string s.rootName), ("cache_namespace", .string s.cacheSpace),
    ("cache_capacity", .ofNat s.cacheCapacity)]

/-- The names of a section's fields, in order. -/
def EngineSettings.fields : List String := ["base_url", "timeout_ms"]

def EngineSettings.ofJson? (value : Json) : Option EngineSettings := do
  let d : EngineSettings := {}
  let r ← value.record? fields
  return {
    baseUrl := ← r.withDefault "base_url" d.baseUrl Json.string?
    timeout := ← r.withDefault "timeout_ms" d.timeout Json.word? }

def EngineSettings.toJson (s : EngineSettings) : Json :=
  .object [("base_url", .string s.baseUrl), ("timeout_ms", .ofNat s.timeout)]

/-- The names of a section's fields, in order. -/
def NavigationSettings.fields : List String :=
  ["base_url", "chrono_depth", "geo_depth", "max_facet_options"]

def NavigationSettings.ofJson? (value : Json) : Option NavigationSettings := do
  let d : NavigationSettings := {}
  let r ← value.record? fields
  return {
    baseUrl := ← r.withDefault "base_url" d.baseUrl Json.string?
    chronoDepth := ← r.withDefault "chrono_depth" d.chronoDepth Json.word?
    geoDepth := ← r.withDefault "geo_depth" d.geoDepth Json.word?
    maxFacetOptions := ← r.withDefault "max_facet_options" d.maxFacetOptions Json.word? }

def NavigationSettings.toJson (s : NavigationSettings) : Json :=
  .object [("base_url", .string s.baseUrl), ("chrono_depth", .ofNat s.chronoDepth),
    ("geo_depth", .ofNat s.geoDepth), ("max_facet_options", .ofNat s.maxFacetOptions)]

/-- The names of a section's fields, in order. -/
def LoggingSettings.fields : List String := ["level"]

def LoggingSettings.ofJson? (value : Json) : Option LoggingSettings := do
  let r ← value.record? fields
  return { level := ← r.withDefault "level" ({} : LoggingSettings).level Json.string? }

def LoggingSettings.toJson (s : LoggingSettings) : Json := .object [("level", .string s.level)]

namespace Settings

/-- The names of the sections and of their fields, in order. -/
def sections : List (String × List String) :=
  [("compiler", CompilerSettings.fields), ("resolver", ResolverSettings.fields),
    ("engine", EngineSettings.fields), ("facets", NavigationSettings.fields),
    ("logging", LoggingSettings.fields)]

def ofJson? (value : Json) : Option Settings := do
  let r ← value.record? (sections.map (·.1))
  return {
    compiler := ← r.withDefault "compiler" {} CompilerSettings.ofJson?
    resolver := ← r.withDefault "resolver" {} ResolverSettings.ofJson?
    engine := ← r.withDefault "engine" {} EngineSettings.ofJson?
    navigation := ← r.withDefault "facets" {} NavigationSettings.ofJson?
    logging := ← r.withDefault "logging" {} LoggingSettings.ofJson? }

def toJson (s : Settings) : Json :=
  .object [("compiler", s.compiler.toJson), ("resolver", s.resolver.toJson),
    ("engine", s.engine.toJson), ("facets", s.navigation.toJson), ("logging", s.logging.toJson)]

/-- Settings that can be used. -/
def checked (s : Settings) : Except SettingsError Settings := s.check.map fun _ => s

/-- Settings from a JSON value, checked. -/
def read (value : Json) : Except SettingsError Settings :=
  match ofJson? value with
  | some s => s.checked
  | none => .error .unreadable

end Settings

end FacetSearch
