import MethodLocals.Layout

/-! The command line: options, a method descriptor, and parameter names. -/

namespace MethodLocals

def usage : String := "usage: [--owner=CLASS] [--static] [--] DESCRIPTOR [NAME]..."

/-- Reads the arguments after the options; the first one is the descriptor. -/
def readPositional (request : LayoutRequest) : List String → Option LayoutRequest
  | [] => none
  | descriptor :: names => some { request with descriptor, names }

def readArguments (request : LayoutRequest) : List String → Option LayoutRequest
  | "--" :: rest => readPositional request rest
  | "--static" :: rest => readArguments { request with isStatic := true } rest
  | "--owner" :: owner :: rest => readArguments { request with owner } rest
  | argument :: rest =>
    if argument.startsWith "--owner=" then
      readArguments { request with owner := (argument.drop 8).toString } rest
    else readPositional request (argument :: rest)
  | [] => none

end MethodLocals

open MethodLocals in
def main (arguments : List String) : IO UInt32 := do
  match readArguments ⟨Layout.defaultOwner, false, "", []⟩ arguments with
  | none =>
    IO.eprintln usage
    return 2
  | some request =>
    match Layout.render request with
    | .error e =>
      IO.eprintln e.report
      return 1
    | .ok rows =>
      rows.forM IO.println
      return 0
