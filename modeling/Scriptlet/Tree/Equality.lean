import Scriptlet.Tree.Basic

/-!
# Equality of trees

Two trees are compared constructor by constructor. The comparison decides
equality, which gives the decidable equality of expressions, statements and
nodes.
-/
namespace Scriptlet

mutual

def Expr.beq : Expr → Expr → Bool
  | .ident a, .ident b => a == b
  | .int m, .int n => m == n
  | .bool a, .bool b => a == b
  | .str a, .str b => a == b
  | .unary o e, .unary p f => o == p && e.beq f
  | .binary o l r, .binary p l' r' => o == p && l.beq l' && r.beq r'
  | .cond t c a, .cond t' c' a' => t.beq t' && stmtsBeq c c' && alternativesBeq a a'
  | .function ps b, .function qs c => ps == qs && stmtsBeq b c
  | .macroFn ps b, .macroFn qs c => ps == qs && stmtsBeq b c
  | .call f xs, .call g ys => f.beq g && exprsBeq xs ys
  | .array xs, .array ys => exprsBeq xs ys
  | .index t i, .index t' i' => t.beq t' && i.beq i'
  | .hash ps, .hash qs => pairsBeq ps qs
  | _, _ => false

def Stmt.beq : Stmt → Stmt → Bool
  | .bind a e, .bind b f => a == b && e.beq f
  | .ret e, .ret f => e.beq f
  | .expr e, .expr f => e.beq f
  | .block b, .block c => stmtsBeq b c
  | _, _ => false

def exprsBeq : List Expr → List Expr → Bool
  | [], [] => true
  | e :: es, f :: fs => e.beq f && exprsBeq es fs
  | _, _ => false

def pairsBeq : List (Expr × Expr) → List (Expr × Expr) → Bool
  | [], [] => true
  | (k, v) :: ps, (l, w) :: qs => k.beq l && v.beq w && pairsBeq ps qs
  | _, _ => false

def stmtsBeq : List Stmt → List Stmt → Bool
  | [], [] => true
  | s :: ss, t :: ts => s.beq t && stmtsBeq ss ts
  | _, _ => false

def alternativesBeq : Option (List Stmt) → Option (List Stmt) → Bool
  | none, none => true
  | some b, some c => stmtsBeq b c
  | _, _ => false

end

mutual

theorem Expr.beq_iff_eq (a b : Expr) : a.beq b = true ↔ a = b := by
  cases a <;> cases b <;>
    simp [Expr.beq, Expr.beq_iff_eq, exprsBeq_iff_eq, pairsBeq_iff_eq, stmtsBeq_iff_eq,
      alternativesBeq_iff_eq, and_assoc]
termination_by structural a

theorem Stmt.beq_iff_eq (a b : Stmt) : a.beq b = true ↔ a = b := by
  cases a <;> cases b <;> simp [Stmt.beq, Expr.beq_iff_eq, stmtsBeq_iff_eq]
termination_by structural a

theorem exprsBeq_iff_eq (as bs : List Expr) : exprsBeq as bs = true ↔ as = bs := by
  cases as <;> cases bs <;> simp [exprsBeq, Expr.beq_iff_eq, exprsBeq_iff_eq]
termination_by structural as

theorem pairsBeq_iff_eq (as bs : List (Expr × Expr)) : pairsBeq as bs = true ↔ as = bs := by
  rcases as with _ | ⟨⟨k, v⟩, as⟩ <;> rcases bs with _ | ⟨⟨l, w⟩, bs⟩ <;>
    simp [pairsBeq, Expr.beq_iff_eq, pairsBeq_iff_eq, and_assoc]
termination_by structural as

theorem stmtsBeq_iff_eq (as bs : List Stmt) : stmtsBeq as bs = true ↔ as = bs := by
  cases as <;> cases bs <;> simp [stmtsBeq, Stmt.beq_iff_eq, stmtsBeq_iff_eq]
termination_by structural as

theorem alternativesBeq_iff_eq (as bs : Option (List Stmt)) :
    alternativesBeq as bs = true ↔ as = bs := by
  cases as <;> cases bs <;> simp [alternativesBeq, stmtsBeq_iff_eq]
termination_by structural as

end

instance : DecidableEq Expr := fun a b => decidable_of_iff _ (Expr.beq_iff_eq a b)

instance : DecidableEq Stmt := fun a b => decidable_of_iff _ (Stmt.beq_iff_eq a b)

deriving instance DecidableEq for Node

end Scriptlet
