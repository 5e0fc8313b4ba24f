/-!
# Scopes

A scope is one block of the interpreter's block stack: the region that a `SETUP_*` instruction
opens, with the offset where control goes when the region is left abnormally.
-/

namespace BytecodeFlow

/-- The kind of instruction that opened a scope. -/
inductive ScopeKind where
  | loopBlock | exceptBlock | finallyBlock | withBlock
deriving DecidableEq

namespace ScopeKind

/-- The word for the kind in a displayed block stack. -/
def name : ScopeKind → String
  | loopBlock => "loop"
  | exceptBlock => "except"
  | finallyBlock => "finally"
  | withBlock => "with"

/-- Every kind. -/
def all : List ScopeKind := [loopBlock, exceptBlock, finallyBlock, withBlock]

/-- The kind of a displayed word. -/
def ofName? (text : String) : Option ScopeKind :=
  all.find? (·.name == text)

def isLoop (kind : ScopeKind) : Bool := kind == loopBlock

/-- Whether the handler runs when a return, break or continue leaves the scope. -/
def interceptsUnwinding : ScopeKind → Bool
  | finallyBlock | withBlock => true
  | loopBlock | exceptBlock => false

/-- Whether an exception raised in the scope goes to its handler. -/
def catchesExceptions : ScopeKind → Bool
  | loopBlock => false
  | exceptBlock | finallyBlock | withBlock => true

/-- What stops an unwinding also stops an exception. -/
theorem catchesExceptions_of_interceptsUnwinding {kind : ScopeKind}
    (h : kind.interceptsUnwinding = true) : kind.catchesExceptions = true := by
  revert h
  cases kind <;> decide

end ScopeKind

/-- A block of the block stack. `exit` is the offset after the protected region: where a loop
ends, and where the handler of any other scope starts. `origin` is the instruction that opened
the scope, and `parent` names the scope it was opened in. -/
structure Scope where
  kind : ScopeKind
  exit : Int
  origin : Int
  parent : Option Nat
deriving DecidableEq

/-- How a scope is shown, as in `loop at 0 (exit 36)`. -/
def Scope.render (s : Scope) : String :=
  s.kind.name ++ " at " ++ toString s.origin ++ " (exit " ++ toString s.exit ++ ")"

/-- How a stack of scopes is shown, innermost first. -/
def Scope.renderStack (stack : List Scope) : String :=
  "[" ++ ", ".intercalate (stack.map Scope.render) ++ "]"

end BytecodeFlow
