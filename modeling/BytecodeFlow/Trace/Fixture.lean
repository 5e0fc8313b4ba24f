import BytecodeFlow.Listing.Basic

/-!
# Recorded fixtures

A fixture is a listing and a path that was observed while it ran, with a boundary between them.
The path has one line for each step, an offset and an opcode name. The tracer reports each offset
two bytes late.
-/

namespace BytecodeFlow

open BytecodeFlow.Text

/-- A code unit with a path observed while it ran. -/
structure Fixture where
  instructions : List Instruction
  path : List Int
deriving DecidableEq

namespace Fixture

/-- Why a text is no fixture. -/
inductive Error where
  | missingBoundary
  | listing (cause : Listing.Error)
  | invalidPathLine (line : Nat) (text : String)
  | emptyPath
deriving DecidableEq

def Error.message : Error → String
  | missingBoundary => "fixture has no path section"
  | listing cause => cause.message
  | invalidPathLine line text =>
    "path line " ++ toString line ++ ": expected `<offset> <opname>`, found `" ++ text ++ "`"
  | emptyPath => "fixture contains no path"

/-- What stands between the listing and the path. -/
def boundary : String :=
  "\n\n\n---162b4a78-0bc7-4966-a4e7-59aa1f784c39\n\n\n"

/-- How far the tracer's offsets are ahead. -/
def traceBias : Int := 2

/-- The offset of a line of the path, if it is an offset and an opcode name. -/
def readStep? (text : List Char) : Option Int :=
  match words text with
  | [offset, _] => do
    let reported ← signed? offset
    if Offset.least ≤ reported - traceBias then some (reported - traceBias) else none
  | _ => none

/-- The offsets of the lines of a path that start at number `line`. -/
def readPath (line : Nat) : List (List Char) → Except Error (List Int)
  | [] => .ok []
  | text :: rest =>
    match readStep? text with
    | some offset => (readPath (line + 1) rest).map (offset :: ·)
    | none => .error (.invalidPathLine line (String.ofList text))

/-- Reads a fixture. Its path has at least one step. -/
def parse (source : String) : Except Error Fixture :=
  match splitOnce boundary.toList source.toList with
  | none => .error .missingBoundary
  | some (listing, trace) =>
    match Listing.parse (String.ofList listing) with
    | .error cause => .error (.listing cause)
    | .ok instructions =>
      match readPath 1 (lines (trim trace)) with
      | .error e => .error e
      | .ok [] => .error .emptyPath
      | .ok path => .ok ⟨instructions, path⟩

end Fixture

end BytecodeFlow
