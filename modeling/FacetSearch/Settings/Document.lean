import FacetSearch.Settings.Basic
import FacetSearch.Toml.Reader

set_option autoImplicit false

/-! # Settings documents

Settings are kept in a TOML document with a table for each section. A section may be written as an array
of its fields in order; what stands behind the last field is not looked at. -/

namespace FacetSearch.Settings

/-- A section, without the items of an array that are more than it has fields. -/
def fitSection (fields : List String) : Json → Json
  | .array items => .array (items.take fields.length)
  | other => other

/-- A member of a document, cut to size if it is a section. -/
def fitMember (name : String) (value : Json) : Json :=
  match sections.lookup name with
  | some fields => fitSection fields value
  | none => value

/-- A document with every section cut to size. -/
def fitted : Json → Json
  | .object members => .object (members.map fun (name, value) => (name, fitMember name value))
  | other => other

/-- Settings from the text of a document, checked. -/
def ofText (text : String) : Except SettingsError Settings :=
  match ((Toml.parse? text).map fitted).filter Json.readable with
  | some value => read value
  | none => .error .unreadable

end FacetSearch.Settings
