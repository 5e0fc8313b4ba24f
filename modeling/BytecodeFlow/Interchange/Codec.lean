import BytecodeFlow.Instruction
import BytecodeFlow.Interchange.Datum
import BytecodeFlow.Text.Pieces
import BytecodeFlow.Trace.Replay

/-!
# Exchanging values

How opcodes, offsets, scope kinds, instructions and replay options are written as structured data
and read back. Fields of a record that are not known are ignored.
-/

namespace BytecodeFlow

open BytecodeFlow.Text

namespace Opcode

/-- A word with only its first letter kept as a capital. -/
def capitalized : List Char → List Char
  | [] => []
  | c :: cs => c :: cs.map Char.toLower

/-- The name in structured data: the words of the name capitalized and joined, as in
`ForIter`. -/
def joinedName (op : Opcode) : String :=
  String.ofList ((pieces (· == '_') op.name.toList).flatMap capitalized)

def toDatum (op : Opcode) : Datum := .text op.joinedName

def ofDatum? (d : Datum) : Option Opcode :=
  d.text?.bind fun name => all.find? (·.joinedName == name)

end Opcode

/-- An offset is a signed 32-bit number. -/
def Offset.ofDatum? (d : Datum) : Option Int :=
  d.int?.filter fun value => least ≤ value && value ≤ greatest

namespace ScopeKind

/-- The name in structured data. -/
def capitalName : ScopeKind → String
  | loopBlock => "Loop"
  | exceptBlock => "Except"
  | finallyBlock => "Finally"
  | withBlock => "With"

def toDatum (kind : ScopeKind) : Datum := .text kind.capitalName

def ofDatum? (d : Datum) : Option ScopeKind :=
  d.text?.bind fun name => all.find? (·.capitalName == name)

@[simp] theorem ofDatum?_toDatum (kind : ScopeKind) : ofDatum? kind.toDatum = some kind := by
  cases kind <;> rfl

end ScopeKind

namespace Instruction

/-- All five fields are written. -/
def toDatum (i : Instruction) : Datum :=
  .record [("opcode", i.opcode.toDatum), ("offset", .ofInt i.offset), ("arg", .ofOption i.arg),
    ("argval", .ofOption i.argval), ("is_jump_target", .bool i.isJumpTarget)]

/-- The two arguments may be missing, the other fields may not. -/
def ofDatum? (d : Datum) : Option Instruction := do
  let fields ← d.record?
  let opcode ← (fields.lookup "opcode").bind Opcode.ofDatum?
  let offset ← (fields.lookup "offset").bind Offset.ofDatum?
  let arg ← Datum.optionalWord? (fields.lookup "arg")
  let argval ← Datum.optionalWord? (fields.lookup "argval")
  let isJumpTarget ← (fields.lookup "is_jump_target").bind Datum.bool?
  return ⟨opcode, offset, arg, argval, isJumpTarget⟩

end Instruction

namespace RepeatPolicy

def all : List RepeatPolicy := [reject, collapse]

def ofDatum? (d : Datum) : Option RepeatPolicy :=
  d.text?.bind fun name => all.find? (·.name == name)

end RepeatPolicy

namespace ReplayOptions

def toDatum (options : ReplayOptions) : Datum :=
  .record [("self-loops", .text options.selfLoops.name)]

/-- A missing field has its default. -/
def ofDatum? (d : Datum) : Option ReplayOptions := do
  let fields ← d.record?
  match fields.lookup "self-loops" with
  | some policy => return ⟨← RepeatPolicy.ofDatum? policy⟩
  | none => return {}

@[simp] theorem ofDatum?_toDatum (options : ReplayOptions) :
    ofDatum? options.toDatum = some options := by
  obtain ⟨_ | _⟩ := options <;> rfl

end ReplayOptions

end BytecodeFlow
