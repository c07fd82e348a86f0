import Scriptlet.Value.Render

/-!
# Answers of builtins

What a builtin answers, before it is given a place in the store: a value that
is passed on as it is, the items of a new array, or a fault. A wrong number of
arguments is reported before a wrong kind of argument. Printing is not part of
the answer.
-/
namespace Scriptlet

inductive Answer where
  | value (v : Value)
  | array (items : List Value)
  | fault (f : Fault)

namespace Answer

/-- A count as an integer, cut off at the largest one. -/
def count (n : Nat) : Answer :=
  .value (.int (if n ≤ 9223372036854775807 then Int64.ofNat n else Int64.maxValue))

def ofOption (v : Option Value) : Answer := .value (v.getD .null)

end Answer

namespace Builtin

def onOne (args : List Value) (f : Value → Answer) : Answer :=
  match args with
  | [v] => f v
  | _ => .fault (.argCount args.length 1)

def onArray (b : Builtin) (v : Value) (f : List Value → Answer) : Answer :=
  match v.items? with
  | some items => f items
  | none => .fault (.argKind b.name .array v.kind)

def answer (b : Builtin) (args : List Value) : Answer :=
  match b with
  | .len => onOne args fun v =>
    match v with
    | .str _ text => .count text.utf8ByteSize
    | .array _ items => .count items.length
    | v => .fault (.unsupportedArg b.name v.kind)
  | .first => onOne args fun v => b.onArray v fun items => .ofOption items.head?
  | .last => onOne args fun v => b.onArray v fun items => .ofOption items.getLast?
  | .rest => onOne args fun v => b.onArray v fun items =>
    match items with
    | [] => .value .null
    | _ :: tail => .array tail
  | .push =>
    match args with
    | [target, item] => b.onArray target fun items => .array (items ++ [item])
    | _ => .fault (.argCount args.length 2)
  | .puts => .value .null

/-- What a call prints, line by line. -/
def lines (b : Builtin) (args : List Value) : List Text :=
  if b = .puts then args.map Value.render else []

end Builtin

end Scriptlet
