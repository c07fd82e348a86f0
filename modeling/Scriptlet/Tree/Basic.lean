import Scriptlet.Tree.Operator

/-!
# Syntax trees

A script is a tree of expressions and statements. A block is a list of
statements, and a conditional may come without its second block, which is not
the same as having an empty one. A node is any tree that can stand alone.
-/
namespace Scriptlet

mutual

inductive Expr where
  | ident (name : String)
  | int (n : Int64)
  | bool (b : Bool)
  | str (text : String)
  | unary (op : UnaryOp) (operand : Expr)
  | binary (op : BinaryOp) (left right : Expr)
  | cond (test : Expr) (consequence : List Stmt) (alternative : Option (List Stmt))
  | function (params : List String) (body : List Stmt)
  | macroFn (params : List String) (body : List Stmt)
  | call (callee : Expr) (args : List Expr)
  | array (items : List Expr)
  | index (target position : Expr)
  | hash (pairs : List (Expr × Expr))

inductive Stmt where
  | bind (name : String) (value : Expr)
  | ret (value : Expr)
  | expr (e : Expr)
  | block (body : List Stmt)

end

abbrev Block := List Stmt

inductive Node where
  | program (body : Block)
  | stmt (s : Stmt)
  | expr (e : Expr)

namespace Node

/-- The expression a node consists of. A statement that only evaluates an
expression is not one. -/
def expr? : Node → Option Expr
  | .expr e => some e
  | .program _ | .stmt _ => none

end Node

end Scriptlet
