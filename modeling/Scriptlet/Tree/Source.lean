import Scriptlet.Text.Basic
import Scriptlet.Tree.Basic

/-!
# Source text of trees

Every operator and index expression is written in its own parentheses, calls
are not. String literals stand without quotes, and the statements of a block
follow one another with nothing between them.
-/
namespace Scriptlet

mutual

def Expr.source : Expr → Text
  | .ident name => name.toList
  | .int n => Text.ofInt n.toInt
  | .bool b => Text.ofBool b
  | .str text => text.toList
  | .unary op operand => '(' :: op.symbol.toList ++ operand.source ++ [')']
  | .binary op left right =>
    '(' :: left.source ++ ' ' :: op.symbol.toList ++ ' ' :: right.source ++ [')']
  | .cond test consequence alternative =>
    "if".toList ++ test.source ++ ' ' :: blockSource consequence ++ alternativeSource alternative
  | .function params body =>
    "fn(".toList ++ Text.commaSep (params.map String.toList) ++ ')' :: ' ' :: blockSource body
  | .macroFn params body =>
    "macro(".toList ++ Text.commaSep (params.map String.toList) ++ ')' :: ' ' :: blockSource body
  | .call callee args => callee.source ++ '(' :: Text.commaSep (exprSources args) ++ [')']
  | .array items => '[' :: Text.commaSep (exprSources items) ++ [']']
  | .index target position => '(' :: target.source ++ '[' :: position.source ++ [']', ')']
  | .hash pairs => '\x7b' :: Text.commaSep (pairSources pairs) ++ ['\x7d']

def Stmt.source : Stmt → Text
  | .bind name value => "let ".toList ++ name.toList ++ " = ".toList ++ value.source ++ [';']
  | .ret value => "return ".toList ++ value.source ++ [';']
  | .expr e => e.source
  | .block body => blockSource body

def exprSources : List Expr → List Text
  | [] => []
  | e :: es => e.source :: exprSources es

def pairSources : List (Expr × Expr) → List Text
  | [] => []
  | (key, value) :: pairs => (key.source ++ ':' :: value.source) :: pairSources pairs

def blockSource : List Stmt → Text
  | [] => []
  | s :: ss => s.source ++ blockSource ss

def alternativeSource : Option (List Stmt) → Text
  | none => []
  | some body => "else ".toList ++ blockSource body

end

theorem exprSources_eq_map (es : List Expr) : exprSources es = es.map Expr.source := by
  induction es with
  | nil => rfl
  | cons e es ih => simp only [exprSources, List.map_cons, ih]

theorem pairSources_eq_map (pairs : List (Expr × Expr)) :
    pairSources pairs = pairs.map fun (key, value) => key.source ++ ':' :: value.source := by
  induction pairs with
  | nil => rfl
  | cons pair pairs ih => simp only [pairSources, List.map_cons, ih]

theorem blockSource_eq_flatMap (body : List Stmt) :
    blockSource body = body.flatMap Stmt.source := by
  induction body with
  | nil => rfl
  | cons s ss ih => simp only [blockSource, List.flatMap_cons, ih]

/-! ### Texts without blocks -/

namespace Expr

variable (name : String) (n : Int64) (b : Bool) (e f : Expr) (es : List Expr)

@[simp]
theorem source_ident : (ident name).source = name.toList := rfl

@[simp]
theorem source_int : (int n).source = Text.ofInt n.toInt := rfl

@[simp]
theorem source_bool : (bool b).source = Text.ofBool b := rfl

@[simp]
theorem source_unary (op : UnaryOp) :
    (unary op e).source = '(' :: op.symbol.toList ++ e.source ++ [')'] := rfl

@[simp]
theorem source_binary (op : BinaryOp) :
    (binary op e f).source =
      '(' :: e.source ++ ' ' :: op.symbol.toList ++ ' ' :: f.source ++ [')'] := rfl

@[simp]
theorem source_index : (index e f).source = '(' :: e.source ++ '[' :: f.source ++ [']', ')'] := rfl

@[simp]
theorem source_call :
    (call e es).source = e.source ++ '(' :: Text.commaSep (es.map source) ++ [')'] := by
  rw [← exprSources_eq_map]
  rfl

@[simp]
theorem source_array : (array es).source = '[' :: Text.commaSep (es.map source) ++ [']'] := by
  rw [← exprSources_eq_map]
  rfl

@[simp]
theorem source_hash (pairs : List (Expr × Expr)) :
    (hash pairs).source =
      '\x7b' :: Text.commaSep (pairs.map fun p => p.1.source ++ ':' :: p.2.source) ++ ['\x7d'] := by
  have hpairs : pairSources pairs = pairs.map fun p => p.1.source ++ ':' :: p.2.source :=
    pairSources_eq_map pairs
  rw [← hpairs]
  rfl

end Expr

/-! ### Texts with blocks -/

@[simp]
theorem alternativeSource_none : alternativeSource none = [] := rfl

@[simp]
theorem alternativeSource_some (body : List Stmt) :
    alternativeSource (some body) = "else ".toList ++ body.flatMap Stmt.source := by
  rw [← blockSource_eq_flatMap]
  rfl

namespace Expr

variable (params : List String) (body : List Stmt)

@[simp]
theorem source_str (text : String) : (str text).source = text.toList := rfl

@[simp]
theorem source_cond (test : Expr) (alternative : Option (List Stmt)) :
    (cond test body alternative).source =
      "if".toList ++ test.source ++ ' ' :: body.flatMap Stmt.source ++
        alternativeSource alternative := by
  rw [← blockSource_eq_flatMap]
  rfl

@[simp]
theorem source_function :
    (function params body).source =
      "fn(".toList ++ Text.commaSep (params.map String.toList) ++
        ')' :: ' ' :: body.flatMap Stmt.source := by
  rw [← blockSource_eq_flatMap]
  rfl

@[simp]
theorem source_macroFn :
    (macroFn params body).source =
      "macro(".toList ++ Text.commaSep (params.map String.toList) ++
        ')' :: ' ' :: body.flatMap Stmt.source := by
  rw [← blockSource_eq_flatMap]
  rfl

end Expr

namespace Stmt

variable (e : Expr)

@[simp]
theorem source_bind (name : String) :
    (bind name e).source =
      "let ".toList ++ name.toList ++ " = ".toList ++ e.source ++ [';'] := rfl

@[simp]
theorem source_ret : (ret e).source = "return ".toList ++ e.source ++ [';'] := rfl

@[simp]
theorem source_expr : (expr e).source = e.source := rfl

@[simp]
theorem source_block (body : List Stmt) : (block body).source = body.flatMap source := by
  rw [← blockSource_eq_flatMap]
  rfl

end Stmt

def Node.source : Node → Text
  | .program body => blockSource body
  | .stmt s => s.source
  | .expr e => e.source

/-- The text of a node that has been quoted. -/
def Node.quotation (node : Node) : Text := "QUOTE(".toList ++ node.source ++ [')']

end Scriptlet
