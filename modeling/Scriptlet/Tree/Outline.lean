import Scriptlet.Text.Layout
import Scriptlet.Text.Quoted
import Scriptlet.Tree.Basic

/-!
# Outlines of trees

The outline of a tree names every constructor and field on the way, so that
trees with the same source text can be told apart. Names and string literals
are quoted.
-/
namespace Scriptlet

def identOutline (hidden : Char → Bool) (name : String) : Text :=
  Text.record "Identifier" [Text.field "name" (Text.quoted hidden name.toList)]

def paramsOutline (hidden : Char → Bool) (params : List String) : Text :=
  Text.listed (params.map (identOutline hidden))

def blockOutline (statements : List Text) : Text :=
  Text.record "BlockStatement" [Text.field "statements" (Text.listed statements)]

mutual

def Expr.outline (hidden : Char → Bool) : Expr → Text
  | .ident name => Text.tagged "Identifier" (identOutline hidden name)
  | .int n => Text.tagged "Integer" (Text.ofInt n.toInt)
  | .bool b => Text.tagged "Boolean" (Text.ofBool b)
  | .str text => Text.tagged "Str" (Text.quoted hidden text.toList)
  | .unary op operand =>
    Text.record "Prefix"
      [Text.field "op" op.name.toList, Text.field "right" (operand.outline hidden)]
  | .binary op left right =>
    Text.record "Infix"
      [Text.field "left" (left.outline hidden), Text.field "op" op.name.toList,
       Text.field "right" (right.outline hidden)]
  | .cond test consequence alternative =>
    Text.record "If"
      [Text.field "condition" (test.outline hidden),
       Text.field "consequence" (blockOutline (stmtOutlines hidden consequence)),
       Text.field "alternative" (alternativeOutline hidden alternative)]
  | .function params body =>
    Text.record "Function"
      [Text.field "params" (paramsOutline hidden params),
       Text.field "body" (blockOutline (stmtOutlines hidden body))]
  | .macroFn params body =>
    Text.record "Macro"
      [Text.field "params" (paramsOutline hidden params),
       Text.field "body" (blockOutline (stmtOutlines hidden body))]
  | .call callee args =>
    Text.record "Call"
      [Text.field "function" (callee.outline hidden),
       Text.field "arguments" (Text.listed (exprOutlines hidden args))]
  | .array items => Text.tagged "Array" (Text.listed (exprOutlines hidden items))
  | .index target position =>
    Text.record "Index"
      [Text.field "left" (target.outline hidden), Text.field "index" (position.outline hidden)]
  | .hash pairs => Text.tagged "Hash" (Text.listed (pairOutlines hidden pairs))

def Stmt.outline (hidden : Char → Bool) : Stmt → Text
  | .bind name value =>
    Text.record "Let"
      [Text.field "name" (identOutline hidden name), Text.field "value" (value.outline hidden)]
  | .ret value => Text.record "Return" [Text.field "value" (value.outline hidden)]
  | .expr e => Text.tagged "Expression" (e.outline hidden)
  | .block body => Text.tagged "Block" (blockOutline (stmtOutlines hidden body))

def exprOutlines (hidden : Char → Bool) : List Expr → List Text
  | [] => []
  | e :: es => e.outline hidden :: exprOutlines hidden es

def pairOutlines (hidden : Char → Bool) : List (Expr × Expr) → List Text
  | [] => []
  | (key, value) :: pairs =>
    Text.record "HashLiteralPair"
      [Text.field "key" (key.outline hidden), Text.field "value" (value.outline hidden)] ::
      pairOutlines hidden pairs

def stmtOutlines (hidden : Char → Bool) : List Stmt → List Text
  | [] => []
  | s :: ss => s.outline hidden :: stmtOutlines hidden ss

def alternativeOutline (hidden : Char → Bool) : Option (List Stmt) → Text
  | none => "None".toList
  | some body => Text.tagged "Some" (blockOutline (stmtOutlines hidden body))

end

def Node.outline (hidden : Char → Bool) : Node → Text
  | .program body =>
    Text.tagged "Program"
      (Text.record "Program" [Text.field "statements" (Text.listed (stmtOutlines hidden body))])
  | .stmt s => Text.tagged "Statement" (s.outline hidden)
  | .expr e => Text.tagged "Expression" (e.outline hidden)

end Scriptlet
