import FacetSearch.CommandLine.Command

set_option autoImplicit false

/-! # The program

Reads the files that the arguments name and prints what the command gives. The program has no
connection of its own, so a search that needs the index ends with a failure. -/

namespace FacetSearch

/-- The index that cannot be reached. -/
def unreachable (_ : Settings) : Engine := fun _ _ => .error (.connection "no connection")

/-- The contents of the files that can be read. -/
def readFiles (paths : List String) : IO (List (String × String)) :=
  paths.filterMapM fun (path : String) => do
    try
      let text ← IO.FS.readFile path
      return some (path, text)
    catch _ => return none

end FacetSearch

open FacetSearch in
/-- Run the command that the arguments give. -/
def main (words : List String) : IO UInt32 := do
  let paths := ((Command.parse? words).map Command.files).getD []
  let held ← readFiles paths
  match runWords (held.lookup ·) unreachable words with
  | .ok text =>
    IO.print text
    return 0
  | .error e =>
    IO.eprintln ("Error: " ++ e.message)
    if let some cause := e.cause? then IO.eprintln ("Caused by: " ++ cause)
    return if let .usage := e then 2 else 1
