import Scriptlet.Tree.Basic

/-!
# Drafts of trees

A draft is a tree with places left open, each named after what is to stand
there. Filling in a draft goes from left to right and stops at the first place
that has no filling.
-/
namespace Scriptlet

mutual

inductive DraftExpr where
  | place (name : String)
  | ident (name : String)
  | int (n : Int64)
  | bool (b : Bool)
  | str (text : String)
  | unary (op : UnaryOp) (operand : DraftExpr)
  | binary (op : BinaryOp) (left right : DraftExpr)
  | cond (test : DraftExpr) (consequence : List DraftStmt) (alternative : Option (List DraftStmt))
  | function (params : List String) (body : List DraftStmt)
  | macroFn (params : List String) (body : List DraftStmt)
  | call (callee : DraftExpr) (args : List DraftExpr)
  | array (items : List DraftExpr)
  | index (target position : DraftExpr)
  | hash (pairs : List (DraftExpr × DraftExpr))

inductive DraftStmt where
  | bind (name : String) (value : DraftExpr)
  | ret (value : DraftExpr)
  | expr (e : DraftExpr)
  | block (body : List DraftStmt)

end

inductive DraftNode where
  | program (body : List DraftStmt)
  | stmt (s : DraftStmt)
  | expr (e : DraftExpr)

mutual

def DraftExpr.fill {ε : Type} (filling : String → Except ε Expr) : DraftExpr → Except ε Expr
  | .place name => filling name
  | .ident name => .ok (.ident name)
  | .int n => .ok (.int n)
  | .bool b => .ok (.bool b)
  | .str text => .ok (.str text)
  | .unary op operand => do
    let operand ← operand.fill filling
    return .unary op operand
  | .binary op left right => do
    let left ← left.fill filling
    let right ← right.fill filling
    return .binary op left right
  | .cond test consequence alternative => do
    let test ← test.fill filling
    let consequence ← fillStmts filling consequence
    let alternative ← fillAlternative filling alternative
    return .cond test consequence alternative
  | .function params body => do
    let body ← fillStmts filling body
    return .function params body
  | .macroFn params body => do
    let body ← fillStmts filling body
    return .macroFn params body
  | .call callee args => do
    let callee ← callee.fill filling
    let args ← fillExprs filling args
    return .call callee args
  | .array items => do
    let items ← fillExprs filling items
    return .array items
  | .index target position => do
    let target ← target.fill filling
    let position ← position.fill filling
    return .index target position
  | .hash pairs => do
    let pairs ← fillPairs filling pairs
    return .hash pairs

def DraftStmt.fill {ε : Type} (filling : String → Except ε Expr) : DraftStmt → Except ε Stmt
  | .bind name value => do
    let value ← value.fill filling
    return .bind name value
  | .ret value => do
    let value ← value.fill filling
    return .ret value
  | .expr e => do
    let e ← e.fill filling
    return .expr e
  | .block body => do
    let body ← fillStmts filling body
    return .block body

def fillExprs {ε : Type} (filling : String → Except ε Expr) :
    List DraftExpr → Except ε (List Expr)
  | [] => .ok []
  | e :: es => do
    let e ← e.fill filling
    let es ← fillExprs filling es
    return e :: es

def fillPairs {ε : Type} (filling : String → Except ε Expr) :
    List (DraftExpr × DraftExpr) → Except ε (List (Expr × Expr))
  | [] => .ok []
  | (key, value) :: pairs => do
    let key ← key.fill filling
    let value ← value.fill filling
    let pairs ← fillPairs filling pairs
    return (key, value) :: pairs

def fillStmts {ε : Type} (filling : String → Except ε Expr) :
    List DraftStmt → Except ε (List Stmt)
  | [] => .ok []
  | s :: ss => do
    let s ← s.fill filling
    let ss ← fillStmts filling ss
    return s :: ss

def fillAlternative {ε : Type} (filling : String → Except ε Expr) :
    Option (List DraftStmt) → Except ε (Option (List Stmt))
  | none => .ok none
  | some body => do
    let body ← fillStmts filling body
    return some body

end

def DraftNode.fill {ε : Type} (filling : String → Except ε Expr) : DraftNode → Except ε Node
  | .program body => do
    let body ← fillStmts filling body
    return .program body
  | .stmt s => do
    let s ← s.fill filling
    return .stmt s
  | .expr e => do
    let e ← e.fill filling
    return .expr e

end Scriptlet
