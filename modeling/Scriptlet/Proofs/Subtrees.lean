import Scriptlet.Tree.Basic

/-!
# Nodes inside a node

The direct parts of a node are the expressions and statements it is built from,
in the order in which they are written. Every part is smaller than the whole, so
what holds of a node as soon as it holds of its parts holds of all nodes, and all
nodes inside a node can be listed.
-/
namespace Scriptlet.Node

def parts : Node → List Node
  | .program body => body.map .stmt
  | .stmt (.bind _ value) => [.expr value]
  | .stmt (.ret value) => [.expr value]
  | .stmt (.expr e) => [.expr e]
  | .stmt (.block body) => body.map .stmt
  | .expr (.unary _ operand) => [.expr operand]
  | .expr (.binary _ left right) => [.expr left, .expr right]
  | .expr (.cond test consequence alternative) =>
    .expr test :: consequence.map .stmt ++ (alternative.getD []).map .stmt
  | .expr (.function _ body) => body.map .stmt
  | .expr (.macroFn _ body) => body.map .stmt
  | .expr (.call callee args) => .expr callee :: args.map .expr
  | .expr (.array items) => items.map .expr
  | .expr (.index target position) => [.expr target, .expr position]
  | .expr (.hash pairs) => pairs.flatMap fun p => [.expr p.1, .expr p.2]
  | .expr _ => []

theorem sizeOf_stmt_lt {body : Block} {m : Node} (h : m ∈ body.map Node.stmt) :
    sizeOf m < 1 + sizeOf body := by
  obtain ⟨s, hs, rfl⟩ := List.mem_map.1 h
  have := List.sizeOf_lt_of_mem hs
  rw [stmt.sizeOf_spec]
  omega

theorem sizeOf_expr_lt {es : List Expr} {m : Node} (h : m ∈ es.map Node.expr) :
    sizeOf m < 1 + sizeOf es := by
  obtain ⟨e, he, rfl⟩ := List.mem_map.1 h
  have := List.sizeOf_lt_of_mem he
  rw [expr.sizeOf_spec]
  omega

theorem sizeOf_le_of_mem_two {a b : Expr} {m : Node} (h : m ∈ [Node.expr a, Node.expr b]) :
    sizeOf m ≤ 1 + sizeOf a + sizeOf b := by
  rcases List.mem_cons.1 h with rfl | h
  · rw [expr.sizeOf_spec]
    omega
  · rw [List.mem_singleton.1 h, expr.sizeOf_spec]
    omega

theorem sizeOf_pair_lt {pairs : List (Expr × Expr)} {m : Node}
    (h : m ∈ pairs.flatMap fun p => [Node.expr p.1, Node.expr p.2]) :
    sizeOf m < 1 + sizeOf pairs := by
  obtain ⟨⟨key, value⟩, hp, hm⟩ := List.mem_flatMap.1 h
  have hpair := List.sizeOf_lt_of_mem hp
  have hle : sizeOf m ≤ 1 + sizeOf key + sizeOf value := sizeOf_le_of_mem_two hm
  rw [Prod.mk.sizeOf_spec] at hpair
  omega

theorem sizeOf_lt_of_mem_parts {n m : Node} (h : m ∈ n.parts) : sizeOf m < sizeOf n := by
  cases n with
  | program body => exact sizeOf_stmt_lt h
  | stmt s =>
    rw [stmt.sizeOf_spec]
    cases s with
    | block body =>
      have := sizeOf_stmt_lt h
      rw [Stmt.block.sizeOf_spec]
      omega
    | _ =>
      cases List.mem_singleton.1 h
      simp only [expr.sizeOf_spec, Stmt.bind.sizeOf_spec, Stmt.ret.sizeOf_spec,
        Stmt.expr.sizeOf_spec]
      omega
  | expr e =>
    rw [expr.sizeOf_spec]
    cases e with
    | unary op operand =>
      cases List.mem_singleton.1 h
      rw [expr.sizeOf_spec, Expr.unary.sizeOf_spec]
      omega
    | binary op left right =>
      have := sizeOf_le_of_mem_two h
      rw [Expr.binary.sizeOf_spec]
      omega
    | index target position =>
      have := sizeOf_le_of_mem_two h
      rw [Expr.index.sizeOf_spec]
      omega
    | cond test consequence alternative =>
      rw [Expr.cond.sizeOf_spec]
      rcases List.mem_append.1 h with h | h
      · rcases List.mem_cons.1 h with rfl | h
        · rw [expr.sizeOf_spec]
          omega
        · have := sizeOf_stmt_lt h
          omega
      · cases alternative with
        | none => cases h
        | some body =>
          have : sizeOf m < 1 + sizeOf body := sizeOf_stmt_lt h
          rw [Option.some.sizeOf_spec]
          omega
    | function params body =>
      have := sizeOf_stmt_lt h
      rw [Expr.function.sizeOf_spec]
      omega
    | macroFn params body =>
      have := sizeOf_stmt_lt h
      rw [Expr.macroFn.sizeOf_spec]
      omega
    | call callee args =>
      rw [Expr.call.sizeOf_spec]
      rcases List.mem_cons.1 h with rfl | h
      · rw [expr.sizeOf_spec]
        omega
      · have := sizeOf_expr_lt h
        omega
    | array items =>
      have := sizeOf_expr_lt h
      rw [Expr.array.sizeOf_spec]
      omega
    | hash pairs =>
      have := sizeOf_pair_lt h
      rw [Expr.hash.sizeOf_spec]
      omega
    | _ => cases h

/-- What holds of a node as soon as it holds of all its parts holds of every node. -/
theorem part_induction {motive : Node → Prop}
    (step : ∀ n, (∀ m ∈ n.parts, motive m) → motive n) (n : Node) : motive n :=
  (measure sizeOf).wf.induction n fun n ih => step n fun m hm => ih m (sizeOf_lt_of_mem_parts hm)

/-- The node itself and all nodes inside it, each as often as it stands there. -/
def nodes (n : Node) : List Node := n :: n.parts.attach.flatMap fun m => m.1.nodes
termination_by sizeOf n
decreasing_by exact sizeOf_lt_of_mem_parts m.2

theorem nodes_eq (n : Node) : n.nodes = n :: n.parts.flatMap nodes := by
  rw [nodes]
  simp

theorem self_mem_nodes (n : Node) : n ∈ n.nodes := by
  rw [nodes_eq]
  exact List.mem_cons_self

theorem mem_nodes_of_part {n m k : Node} (hm : m ∈ n.parts) (hk : k ∈ m.nodes) : k ∈ n.nodes := by
  rw [nodes_eq]
  exact List.mem_cons_of_mem _ (List.mem_flatMap.2 ⟨m, hm, hk⟩)

end Scriptlet.Node
