/-!
# Operators

The operators of the language, each with the symbol it is written with and the
name it has in outlines.
-/
namespace Scriptlet

inductive UnaryOp where
  | not
  | neg
deriving DecidableEq

namespace UnaryOp

def all : List UnaryOp := [.not, .neg]

def symbol : UnaryOp → String
  | .not => "!"
  | .neg => "-"

def name : UnaryOp → String
  | .not => "Not"
  | .neg => "Neg"

def ofSymbol? (s : String) : Option UnaryOp := all.find? (·.symbol == s)

theorem ofSymbol?_symbol (op : UnaryOp) : ofSymbol? op.symbol = some op := by
  cases op <;> rfl

end UnaryOp

inductive BinaryOp where
  | add
  | sub
  | mul
  | div
  | lt
  | gt
  | eq
  | ne
deriving DecidableEq

namespace BinaryOp

def all : List BinaryOp := [.add, .sub, .mul, .div, .lt, .gt, .eq, .ne]

def symbol : BinaryOp → String
  | .add => "+"
  | .sub => "-"
  | .mul => "*"
  | .div => "/"
  | .lt => "<"
  | .gt => ">"
  | .eq => "=="
  | .ne => "!="

def name : BinaryOp → String
  | .add => "Add"
  | .sub => "Sub"
  | .mul => "Mul"
  | .div => "Div"
  | .lt => "Lt"
  | .gt => "Gt"
  | .eq => "Eq"
  | .ne => "NotEq"

def isComparison : BinaryOp → Bool
  | .lt | .gt | .eq | .ne => true
  | .add | .sub | .mul | .div => false

def ofSymbol? (s : String) : Option BinaryOp := all.find? (·.symbol == s)

theorem ofSymbol?_symbol (op : BinaryOp) : ofSymbol? op.symbol = some op := by
  cases op <;> rfl

end BinaryOp

end Scriptlet
