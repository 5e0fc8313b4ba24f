import BytecodeFlow.Instruction
import BytecodeFlow.Text.Numeral
import BytecodeFlow.Text.Pieces

/-!
# Listings

A listing is the text of a code unit, one instruction a line: an optional source line number,
an optional `>>` marker, the offset, the opcode name, an optional argument and an optional
comment in parentheses.

```text
  2           0 SETUP_LOOP              34 (to 36)
        >>   10 FOR_ITER                22 (to 34)
             36 LOAD_FAST                2 (y)
```

A comment `(to N)` gives the resolved argument; without one the argument counts as resolved.
Blank lines and lines that start with `#` hold no instruction. `parse` reads a listing and flags
the jump targets; `render` writes one.
-/

namespace BytecodeFlow.Listing

open BytecodeFlow.Text

/-- What is wrong with a line. -/
inductive Fault where
  | unknownOpcode (name : String)
  | missingOffset
  | missingOpcode
  | invalidNumber (text : String)
  | unexpectedToken (text : String)
  | offsetOutOfRange (value : Nat)
  | unexpectedArgument (opcode : Opcode)
  | outOfOrder (offset previous : Int)
deriving DecidableEq

/-- A faulty line, numbered from 1. -/
structure Error where
  line : Nat
  fault : Fault
deriving DecidableEq

def Fault.message : Fault → String
  | unknownOpcode name => "unknown opcode `" ++ name ++ "`"
  | missingOffset => "expected an offset before the opcode name"
  | missingOpcode => "expected an opcode name"
  | invalidNumber text => "invalid number `" ++ text ++ "`"
  | unexpectedToken text => "unexpected `" ++ text ++ "`"
  | offsetOutOfRange value => Offset.outOfRangeMessage value
  | unexpectedArgument opcode => "`" ++ opcode.name ++ "` takes no argument"
  | outOfOrder offset previous =>
    "offset " ++ toString offset ++ " does not follow offset " ++ toString previous

def Error.message (e : Error) : String :=
  "line " ++ toString e.line ++ ": " ++ e.fault.message

/-! ## One line -/

/-- The part of a line before its comment. -/
def codeText (text : List Char) : List Char :=
  text.takeWhile (· != '(')

/-- The comment of a line with its parentheses, empty if there is none. -/
def commentText (text : List Char) : List Char :=
  text.dropWhile (· != '(')

/-- The words of a line before its comment, jump-target markers left out. -/
def codeWords (text : List Char) : List (List Char) :=
  (words (codeText text)).filter (· != ['>', '>'])

/-- Whether a word can be a line number or an offset. -/
def isNumber (word : List Char) : Bool :=
  word.all Char.isDigit

/-- The text `N` of a comment `(to N)`. -/
def targetText? : List Char → Option (List Char)
  | '(' :: 't' :: 'o' :: ' ' :: rest =>
    if rest.getLast? = some ')' then some (trim rest.dropLast) else none
  | _ => none

def readNumber (text : List Char) : Except Fault Nat :=
  match unsigned? text with
  | some value => .ok value
  | none => .error (.invalidNumber (String.ofList text))

/-- The offset among the numbers before the opcode name: the last one, which one line number
may precede. -/
def readOffset : List (List Char) → Except Fault Nat
  | [] => .error .missingOffset
  | [offset] => readNumber offset
  | [_, offset] => readNumber offset
  | _ :: _ :: extra :: _ => .error (.unexpectedToken (String.ofList extra))

def readOpcode (name : List Char) : Except Fault Opcode :=
  match Opcode.ofName? (String.ofList name) with
  | some opcode => .ok opcode
  | none => .error (.unknownOpcode (String.ofList name))

/-- The argument among the words after the opcode name. -/
def readArgument : List (List Char) → Except Fault (Option Nat)
  | [] => .ok none
  | [arg] => (readNumber arg).map some
  | arg :: extra :: _ =>
    (readNumber arg).bind fun _ => .error (.unexpectedToken (String.ofList extra))

/-- The resolved argument: the target of the comment if it has one, else the argument. -/
def readResolved (comment : List Char) (arg : Option Nat) : Except Fault (Option Nat) :=
  match targetText? comment with
  | some text => (readNumber text).map some
  | none => .ok arg

def checkRange (value : Nat) : Except Fault Int :=
  match Offset.ofNat? value with
  | some offset => .ok offset
  | none => .error (.offsetOutOfRange value)

/-- An argument may follow only an opcode that takes one. -/
def checkArgument (opcode : Opcode) (arg : Option Nat) : Except Fault Unit :=
  if arg.isSome && !opcode.hasArg then .error (.unexpectedArgument opcode) else .ok ()

/-- A resolved argument that is a jump target has to be an offset. -/
def checkTarget (opcode : Opcode) (argval : Option Nat) : Except Fault Unit :=
  match argval with
  | some target => if opcode.hasJumpTarget then (checkRange target).map fun _ => () else .ok ()
  | none => .ok ()

/-- The instruction of the words of a line and its comment. Faults are looked for from left to
right, those of the argument and of the offset's range after the opcode. -/
def readWords (numbers : List (List Char)) (name : List Char) (operands : List (List Char))
    (comment : List Char) : Except Fault Instruction := do
  let value ← readOffset numbers
  let opcode ← readOpcode name
  let arg ← readArgument operands
  checkArgument opcode arg
  let offset ← checkRange value
  let argval ← readResolved comment arg
  checkTarget opcode argval
  return ⟨opcode, offset, arg, argval, false⟩

/-- The instruction of a trimmed line that is not skipped. -/
def readLine (text : List Char) : Except Fault Instruction :=
  match (codeWords text).dropWhile isNumber with
  | [] => .error .missingOpcode
  | name :: operands =>
    readWords ((codeWords text).takeWhile isNumber) name operands (commentText text)

/-! ## All lines -/

/-- Whether a trimmed line holds no instruction. -/
def isSkipped (text : List Char) : Bool :=
  text.isEmpty || text.head? == some '#'

/-- The offset must exceed that of the previous instruction. -/
def checkOrder (previous : Option Int) (offset : Int) : Except Fault Unit :=
  match previous with
  | some p => if offset ≤ p then .error (.outOfOrder offset p) else .ok ()
  | none => .ok ()

/-- The instructions of the lines that start at number `line`, after an instruction at
`previous`. The first faulty line is the one reported. -/
def readLines (previous : Option Int) (line : Nat) :
    List (List Char) → Except Error (List Instruction)
  | [] => .ok []
  | text :: rest =>
    if isSkipped (trim text) then readLines previous (line + 1) rest
    else
      match (do
        let i ← readLine (trim text)
        checkOrder previous i.offset
        return i) with
      | .error fault => .error ⟨line, fault⟩
      | .ok i => (readLines (some i.offset) (line + 1) rest).map (i :: ·)

/-- Reads a listing, flagging the jump targets. -/
def parse (source : String) : Except Error (List Instruction) :=
  (readLines none 1 (lines source.toList)).map Instruction.markJumpTargets

/-- Writes a listing, one instruction a line. -/
def render (code : List Instruction) : String :=
  "\n".intercalate (code.map Instruction.render)

end BytecodeFlow.Listing
