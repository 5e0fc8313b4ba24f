/-!
# Failed lookups

Questions to a graph or a block stack that have no answer. Callers expect these and go on.
-/

namespace BytecodeFlow

/-- Why a lookup has no answer. -/
inductive LookupError where
  | nodeNotFound (offset : Int)
  | emptyStack
  | stackIndexOutOfRange (index depth : Nat)
deriving DecidableEq

def LookupError.message : LookupError → String
  | nodeNotFound offset => "no node at offset " ++ toString offset
  | emptyStack => "block stack is empty"
  | stackIndexOutOfRange index depth =>
    "block stack index " ++ toString index ++ " is out of range for a stack of depth "
      ++ toString depth

end BytecodeFlow
