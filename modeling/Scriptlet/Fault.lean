import Scriptlet.Kind
import Scriptlet.Text.Layout
import Scriptlet.Tree.Operator

/-!
# Faults

A fault is a reason why a script cannot go on; its message is what the script's
error value carries. Three refusals concern a value that a host hands over: a
key that cannot be hashed, a receiver that cannot be indexed, and a macro
result that is not a quote. Each of them is also a fault.
-/
namespace Scriptlet

inductive Fault where
  | unboundName (name : String)
  | typeMismatch (left : Kind) (op : BinaryOp) (right : Kind)
  | unknownUnary (op : UnaryOp) (operand : Kind)
  | unknownBinary (left : Kind) (op : BinaryOp) (right : Kind)
  | notFunction (kind : Kind)
  | paramCount (want got : Nat)
  | unhashable (kind : Kind)
  | notIndexable (kind : Kind)
  | argCount (got want : Nat)
  | unsupportedArg (function : String) (kind : Kind)
  | argKind (function : String) (expected got : Kind)
  | notQuote (kind : Kind)

namespace Fault

def message : Fault → String
  | .unboundName name => "identifier not found: " ++ name
  | .typeMismatch left op right =>
    "type mismatch: " ++ left.text ++ " " ++ op.symbol ++ " " ++ right.text
  | .unknownUnary op operand => "unknown operator: " ++ op.symbol ++ operand.text
  | .unknownBinary left op right =>
    "unknown operator: " ++ left.text ++ " " ++ op.symbol ++ " " ++ right.text
  | .notFunction kind => "not a function: " ++ kind.text
  | .paramCount want got =>
    "wrong number of arguments: want=" ++ String.ofList (Text.ofNat want) ++ ", got=" ++
      String.ofList (Text.ofNat got)
  | .unhashable kind => "unusable as hash key: " ++ kind.text
  | .notIndexable kind => "index operator not supported: " ++ kind.text
  | .argCount got want =>
    "wrong number of arguments. got=" ++ String.ofList (Text.ofNat got) ++ ", want=" ++
      String.ofList (Text.ofNat want)
  | .unsupportedArg function kind =>
    "argument to `" ++ function ++ "` not supported, got " ++ kind.text
  | .argKind function expected got =>
    "argument to `" ++ function ++ "` must be " ++ expected.text ++ ", got " ++ got.text
  | .notQuote kind => "macro must return a quoted node, got " ++ kind.text

end Fault

structure Unhashable where
  kind : Kind
deriving DecidableEq

namespace Unhashable

def fault (e : Unhashable) : Fault := .unhashable e.kind

def outline (e : Unhashable) : Text :=
  Text.record "UnhashableValue" [Text.field "kind" e.kind.name.toList]

end Unhashable

structure NotQuoted where
  kind : Kind
deriving DecidableEq

namespace NotQuoted

def fault (e : NotQuoted) : Fault := .notQuote e.kind

def outline (e : NotQuoted) : Text :=
  Text.record "NotQuoted" [Text.field "kind" e.kind.name.toList]

end NotQuoted

/-- Why a look-up in a value has no answer at all. -/
inductive LookupError where
  | notHash (kind : Kind)
  | unhashable (key : Unhashable)
deriving DecidableEq

namespace LookupError

def fault : LookupError → Fault
  | .notHash kind => .notIndexable kind
  | .unhashable key => key.fault

def outline : LookupError → Text
  | .notHash kind => Text.tagged "NotAHash" kind.name.toList
  | .unhashable key => Text.tagged "Unhashable" key.outline

end LookupError

end Scriptlet
