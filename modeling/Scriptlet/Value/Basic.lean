import Scriptlet.Builtin.Basic
import Scriptlet.Closure
import Scriptlet.Fault
import Scriptlet.HashKey

/-!
# Values

Integers, booleans, null and builtins are plain data. Every other value has a
stamp that stays with it wherever it is copied, so that one creation can be
told from another. Return wrappers and errors are control values: they travel
upward through a script.
-/
namespace Scriptlet

inductive Value where
  | int (n : Int64)
  | bool (b : Bool)
  | null
  | ret (stamp : Stamp) (inner : Value)
  | error (stamp : Stamp) (message : String)
  | str (stamp : Stamp) (text : String)
  | array (stamp : Stamp) (items : List Value)
  | hash (stamp : Stamp) (entries : List (Entry Value))
  | function (closure : Closure)
  | builtin (b : Builtin)
  | macroFn (closure : Closure)
  | quote (stamp : Stamp) (node : Node)

namespace Value

def kind : Value → Kind
  | .int _ => .int
  | .bool _ => .bool
  | .null => .null
  | .ret _ _ => .ret
  | .error _ _ => .error
  | .str _ _ => .str
  | .array _ _ => .array
  | .hash _ _ => .hash
  | .function _ => .function
  | .builtin _ => .builtin
  | .macroFn _ => .macroFn
  | .quote _ _ => .quote

/-- Null and false do not hold; all else does. -/
def truthy : Value → Bool
  | .null => false
  | .bool b => b
  | _ => true

def isError (v : Value) : Bool := v.kind == .error

def isNull (v : Value) : Bool := v.kind == .null

def isControl (v : Value) : Bool := v.kind == .ret || v.kind == .error

def int? : Value → Option Int64
  | .int n => some n
  | _ => none

def bool? : Value → Option Bool
  | .bool b => some b
  | _ => none

def str? : Value → Option String
  | .str _ text => some text
  | _ => none

def errorMessage? : Value → Option String
  | .error _ message => some message
  | _ => none

def items? : Value → Option (List Value)
  | .array _ items => some items
  | _ => none

def entries? : Value → Option (List (Entry Value))
  | .hash _ entries => some entries
  | _ => none

def closure? : Value → Option Closure
  | .function c => some c
  | .macroFn c => some c
  | _ => none

def builtin? : Value → Option Builtin
  | .builtin b => some b
  | _ => none

/-- Takes off one return wrapper, if there is one. -/
def unwrapped : Value → Value
  | .ret _ inner => inner
  | v => v

def quotedNode : Value → Except NotQuoted Node
  | .quote _ node => .ok node
  | v => .error ⟨v.kind⟩

/-- Whether two values share one payload. The answer is known for two returns,
two arrays, two hashes, two quotes, and any two of strings and errors. -/
def sharedWith? : Value → Value → Option Bool
  | .ret s _, .ret t _ => some (s == t)
  | .array s _, .array t _ => some (s == t)
  | .hash s _, .hash t _ => some (s == t)
  | .quote s _, .quote t _ => some (s == t)
  | .str s _, .str t _ => some (s == t)
  | .str s _, .error t _ => some (s == t)
  | .error s _, .str t _ => some (s == t)
  | .error s _, .error t _ => some (s == t)
  | _, _ => none

end Value

end Scriptlet
