import Scriptlet.Proofs.Shapes
import Scriptlet.Tree.Outline

/-!
# Outlines determine trees

The outline of a tree is the text of a shape that is built along the tree. Names and
string literals occur in the shape as quoted strings, so nothing they hold can be
taken for a part of it. Different kinds of expressions, of statements and of nodes have
different tags or different layouts, and all that a tree is made of is in its shape. So
the shape determines the tree, and with it the outline does.
-/
namespace Scriptlet

/-! ### Shapes of trees -/

def identShape (name : String) : Shape :=
  .record (.of "Identifier") [.field (.of "name") (.quoted name.toList)]

def paramsShape (params : List String) : Shape := .listed (params.map identShape)

def blockShape (statements : List Shape) : Shape :=
  .record (.of "BlockStatement") [.field (.of "statements") (.listed statements)]

def UnaryOp.word (op : UnaryOp) : Word := ⟨op.name, by cases op <;> decide⟩

def BinaryOp.word (op : BinaryOp) : Word := ⟨op.name, by cases op <;> decide⟩

mutual

def Expr.shape : Expr → Shape
  | .ident name => .tagged (.of "Identifier") (identShape name)
  | .int n => .tagged (.of "Integer") (.word (.ofInt n.toInt))
  | .bool b => .tagged (.of "Boolean") (.word (.ofBool b))
  | .str text => .tagged (.of "Str") (.quoted text.toList)
  | .unary op operand =>
    .record (.of "Prefix") [.field (.of "op") (.word op.word), .field (.of "right") operand.shape]
  | .binary op left right =>
    .record (.of "Infix")
      [.field (.of "left") left.shape, .field (.of "op") (.word op.word),
       .field (.of "right") right.shape]
  | .cond test consequence alternative =>
    .record (.of "If")
      [.field (.of "condition") test.shape,
       .field (.of "consequence") (blockShape (stmtShapes consequence)),
       .field (.of "alternative") (alternativeShape alternative)]
  | .function params body =>
    .record (.of "Function")
      [.field (.of "params") (paramsShape params),
       .field (.of "body") (blockShape (stmtShapes body))]
  | .macroFn params body =>
    .record (.of "Macro")
      [.field (.of "params") (paramsShape params),
       .field (.of "body") (blockShape (stmtShapes body))]
  | .call callee args =>
    .record (.of "Call")
      [.field (.of "function") callee.shape,
       .field (.of "arguments") (.listed (exprShapes args))]
  | .array items => .tagged (.of "Array") (.listed (exprShapes items))
  | .index target position =>
    .record (.of "Index")
      [.field (.of "left") target.shape, .field (.of "index") position.shape]
  | .hash pairs => .tagged (.of "Hash") (.listed (pairShapes pairs))

def Stmt.shape : Stmt → Shape
  | .bind name value =>
    .record (.of "Let")
      [.field (.of "name") (identShape name), .field (.of "value") value.shape]
  | .ret value => .record (.of "Return") [.field (.of "value") value.shape]
  | .expr e => .tagged (.of "Expression") e.shape
  | .block body => .tagged (.of "Block") (blockShape (stmtShapes body))

def exprShapes : List Expr → List Shape
  | [] => []
  | e :: es => e.shape :: exprShapes es

def pairShapes : List (Expr × Expr) → List Shape
  | [] => []
  | (key, value) :: pairs =>
    .record (.of "HashLiteralPair")
      [.field (.of "key") key.shape, .field (.of "value") value.shape] :: pairShapes pairs

def stmtShapes : List Stmt → List Shape
  | [] => []
  | s :: ss => s.shape :: stmtShapes ss

def alternativeShape : Option (List Stmt) → Shape
  | none => .word (.of "None")
  | some body => .tagged (.of "Some") (blockShape (stmtShapes body))

end

def Node.shape : Node → Shape
  | .program body =>
    .tagged (.of "Program")
      (.record (.of "Program") [.field (.of "statements") (.listed (stmtShapes body))])
  | .stmt s => .tagged (.of "Statement") s.shape
  | .expr e => .tagged (.of "Expression") e.shape

/-! ### Outlines are texts of shapes -/

section Text

variable (hidden : Char → Bool)

theorem text_identShape (name : String) :
    (identShape name).text hidden = identOutline hidden name := rfl

theorem text_paramsShape (params : List String) :
    (paramsShape params).text hidden = paramsOutline hidden params := by
  rw [paramsShape, Shape.text, shapeTexts_eq_map, List.map_map, paramsOutline]
  rfl

theorem text_blockShape (statements : List Shape) :
    (blockShape statements).text hidden = blockOutline (shapeTexts hidden statements) := rfl

mutual

theorem Expr.text_shape (e : Expr) : e.shape.text hidden = e.outline hidden := by
  cases e <;>
    simp only [Expr.shape, Expr.outline, Shape.text, shapeTexts, Word.of, Word.name_ofInt,
      Word.name_ofBool, UnaryOp.word, BinaryOp.word, text_identShape, text_paramsShape,
      text_blockShape, Expr.text_shape, text_exprShapes, text_pairShapes, text_stmtShapes,
      text_alternativeShape]
termination_by structural e

theorem Stmt.text_shape (s : Stmt) : s.shape.text hidden = s.outline hidden := by
  cases s <;>
    simp only [Stmt.shape, Stmt.outline, Shape.text, shapeTexts, Word.of, text_identShape,
      text_blockShape, Expr.text_shape, text_stmtShapes]
termination_by structural s

theorem text_exprShapes (es : List Expr) :
    shapeTexts hidden (exprShapes es) = exprOutlines hidden es := by
  cases es <;> simp only [exprShapes, exprOutlines, shapeTexts, Expr.text_shape, text_exprShapes]
termination_by structural es

theorem text_pairShapes (pairs : List (Expr × Expr)) :
    shapeTexts hidden (pairShapes pairs) = pairOutlines hidden pairs := by
  rcases pairs with _ | ⟨⟨key, value⟩, pairs⟩ <;>
    simp only [pairShapes, pairOutlines, shapeTexts, Shape.text, Word.of, Expr.text_shape,
      text_pairShapes]
termination_by structural pairs

theorem text_stmtShapes (ss : List Stmt) :
    shapeTexts hidden (stmtShapes ss) = stmtOutlines hidden ss := by
  cases ss <;> simp only [stmtShapes, stmtOutlines, shapeTexts, Stmt.text_shape, text_stmtShapes]
termination_by structural ss

theorem text_alternativeShape (alternative : Option (List Stmt)) :
    (alternativeShape alternative).text hidden = alternativeOutline hidden alternative := by
  cases alternative <;>
    simp only [alternativeShape, alternativeOutline, Shape.text, Word.of, text_blockShape,
      text_stmtShapes]
termination_by structural alternative

end

theorem Node.text_shape (n : Node) : n.shape.text hidden = n.outline hidden := by
  cases n <;>
    simp only [Node.shape, Node.outline, Shape.text, shapeTexts, Word.of, Expr.text_shape,
      Stmt.text_shape, text_stmtShapes]

end Text

/-! ### Shapes determine trees -/

theorem identShape_inj {a b : String} : identShape a = identShape b ↔ a = b := by
  simp [identShape, String.toList_inj]

theorem paramsShape_inj {ps qs : List String} : paramsShape ps = paramsShape qs ↔ ps = qs := by
  rw [paramsShape, paramsShape, Shape.listed.injEq, List.map_inj_right fun a b => identShape_inj.1]

theorem blockShape_inj {ps qs : List Shape} : blockShape ps = blockShape qs ↔ ps = qs := by
  simp [blockShape]

theorem UnaryOp.word_inj {a b : UnaryOp} : a.word = b.word ↔ a = b := by
  cases a <;> cases b <;> simp [word, name]

theorem BinaryOp.word_inj {a b : BinaryOp} : a.word = b.word ↔ a = b := by
  cases a <;> cases b <;> simp [word, name]

mutual

theorem Expr.shape_inj (e f : Expr) : e.shape = f.shape ↔ e = f := by
  cases e <;> cases f <;>
    simp [Expr.shape, identShape_inj, paramsShape_inj, blockShape_inj, UnaryOp.word_inj,
      BinaryOp.word_inj, Int64.toInt_inj, String.toList_inj, Expr.shape_inj, exprShapes_inj,
      pairShapes_inj, stmtShapes_inj, alternativeShape_inj, and_left_comm]
termination_by structural e

theorem Stmt.shape_inj (s t : Stmt) : s.shape = t.shape ↔ s = t := by
  cases s <;> cases t <;>
    simp [Stmt.shape, identShape_inj, blockShape_inj, Expr.shape_inj, stmtShapes_inj]
termination_by structural s

theorem exprShapes_inj (es fs : List Expr) : exprShapes es = exprShapes fs ↔ es = fs := by
  cases es <;> cases fs <;> simp [exprShapes, Expr.shape_inj, exprShapes_inj]
termination_by structural es

theorem pairShapes_inj (ps qs : List (Expr × Expr)) : pairShapes ps = pairShapes qs ↔ ps = qs := by
  rcases ps with _ | ⟨⟨k, v⟩, ps⟩ <;> rcases qs with _ | ⟨⟨l, w⟩, qs⟩ <;>
    simp [pairShapes, Expr.shape_inj, pairShapes_inj]
termination_by structural ps

theorem stmtShapes_inj (ss ts : List Stmt) : stmtShapes ss = stmtShapes ts ↔ ss = ts := by
  cases ss <;> cases ts <;> simp [stmtShapes, Stmt.shape_inj, stmtShapes_inj]
termination_by structural ss

theorem alternativeShape_inj (a b : Option (List Stmt)) :
    alternativeShape a = alternativeShape b ↔ a = b := by
  cases a <;> cases b <;> simp [alternativeShape, blockShape_inj, stmtShapes_inj]
termination_by structural a

end

theorem Node.shape_inj (m n : Node) : m.shape = n.shape ↔ m = n := by
  cases m <;> cases n <;>
    simp [Node.shape, Expr.shape_inj, Stmt.shape_inj, stmtShapes_inj]

/-- Two nodes with one outline are one node, whichever characters are written by code
point in the strings. -/
theorem Node.outline_determines_node (hidden : Char → Bool) :
    Function.Injective (Node.outline hidden) := by
  intro m n h
  rw [← Node.text_shape, ← Node.text_shape] at h
  exact (Node.shape_inj m n).1 (Shape.text_injective hidden h)

end Scriptlet
