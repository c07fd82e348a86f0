import Scriptlet.Proofs.Legible
import Scriptlet.Proofs.Subtrees
import Scriptlet.Tree.Source

/-!
# Brackets in source texts

Operators, index expressions, calls, parameter lists, arrays and hash literals are
written with brackets, and blocks are not. In the source text of a node the
brackets are properly nested, provided that none are smuggled in by names and
string literals. Each bracket belongs to one node, so counting the opening
brackets of a kind counts the nodes that write it.
-/
namespace Scriptlet

inductive Bracket where
  | round
  | square
  | curly
deriving DecidableEq

namespace Bracket

def all : List Bracket := [.round, .square, .curly]

theorem mem_all (b : Bracket) : b ∈ all := by
  cases b <;> decide

def opening : Bracket → Char
  | .round => '('
  | .square => '['
  | .curly => '\x7b'

def closing : Bracket → Char
  | .round => ')'
  | .square => ']'
  | .curly => '\x7d'

theorem opening_eq_iff (b c : Bracket) : b.opening = c.opening ↔ b = c := by
  cases b <;> cases c <;> decide

theorem closing_ne_opening (b c : Bracket) : b.closing ≠ c.opening := by
  cases b <;> cases c <;> decide

end Bracket

namespace Text

def isBracket (c : Char) : Bool := Bracket.all.any fun b => c == b.opening || c == b.closing

def isPlain (t : Text) : Bool := t.all fun c => !isBracket c

/-- Each bracket is closed by its own kind, after all brackets that were opened behind it. Other
characters may stand anywhere. -/
inductive Nested : Text → Prop where
  | nil : Nested []
  | plain {c : Char} {t : Text} (hc : isBracket c = false) (h : Nested t) : Nested (c :: t)
  | pair (b : Bracket) {t u : Text} (ht : Nested t) (hu : Nested u) :
      Nested (b.opening :: t ++ b.closing :: u)

theorem Nested.append {t u : Text} (ht : Nested t) (hu : Nested u) : Nested (t ++ u) := by
  induction ht with
  | nil => exact hu
  | plain hc _ ih => exact .plain hc ih
  | pair b ht _ _ ih =>
    rw [List.append_assoc]
    exact .pair b ht ih

theorem nested_of_plain {t : Text} (h : ∀ c ∈ t, isBracket c = false) : Nested t := by
  induction t with
  | nil => exact .nil
  | cons c t ih =>
    obtain ⟨hc, ht⟩ := List.forall_mem_cons.1 h
    exact .plain hc (ih ht)

theorem isBracket_opening (b : Bracket) : isBracket b.opening = true :=
  List.any_eq_true.2 ⟨b, b.mem_all, by simp⟩

theorem isPlain_iff (t : Text) : isPlain t = true ↔ ∀ c ∈ t, isBracket c = false := by
  simp [isPlain]

theorem isPlain_append (t u : Text) : isPlain (t ++ u) = (isPlain t && isPlain u) :=
  List.all_append

theorem isBracket_of_isDigit {c : Char} (h : c.isDigit = true) : isBracket c = false := by
  have hnone : (Bracket.all.all fun b => !b.opening.isDigit && !b.closing.isDigit) = true := rfl
  rw [isBracket, List.any_eq_false]
  intro b hb hc
  have hb' := List.all_eq_true.1 hnone b hb
  rw [Bool.or_eq_true, beq_iff_eq, beq_iff_eq] at hc
  rcases hc with rfl | rfl
  · simp [h] at hb'
  · simp [h] at hb'

theorem isPlain_ofNat (n : Nat) : isPlain (ofNat n) = true :=
  (isPlain_iff _).2 fun _ hc => isBracket_of_isDigit (isDigit_of_mem_ofNat hc)

theorem isPlain_ofInt (n : Int) : isPlain (ofInt n) = true := by
  cases n with
  | ofNat n => exact isPlain_ofNat n
  | negSucc n => exact isPlain_ofNat (n + 1)

/-! ### Nesting together with the number of brackets -/

/-- The text is properly nested, and the bracket is opened so many times in it. -/
structure Bracketed (b : Bracket) (t : Text) (k : Nat) : Prop where
  nested : Nested t
  count : t.count b.opening = k

variable {b : Bracket} {t u : Text} {k l : Nat}

theorem bracketed_of_isPlain (h : isPlain t = true) : Bracketed b t 0 := by
  have hplain : ∀ c ∈ t, isBracket c = false := (isPlain_iff t).1 h
  refine ⟨nested_of_plain hplain, List.count_eq_zero.2 fun hmem => ?_⟩
  have hfalse := hplain _ hmem
  rw [isBracket_opening] at hfalse
  cases hfalse

theorem Bracketed.of_eq (h : Bracketed b t k) (hk : k = l) : Bracketed b t l := hk ▸ h

theorem Bracketed.append (ht : Bracketed b t k) (hu : Bracketed b u l) :
    Bracketed b (t ++ u) (k + l) :=
  ⟨ht.nested.append hu.nested, by rw [List.count_append, ht.count, hu.count]⟩

/-- A plain text may stand in front. -/
theorem Bracketed.behind (ht : Bracketed b t k) (hu : isPlain u = true) : Bracketed b (u ++ t) k :=
  Nat.zero_add k ▸ (bracketed_of_isPlain hu).append ht

/-- A plain text may follow. -/
theorem Bracketed.before (ht : Bracketed b t k) (hu : isPlain u = true) : Bracketed b (t ++ u) k :=
  ht.append (bracketed_of_isPlain hu)

theorem Bracketed.enclosed (ht : Bracketed b t k) (c : Bracket) :
    Bracketed b (c.opening :: t ++ [c.closing]) ((b == c).toNat + k) := by
  refine ⟨.pair c ht.nested .nil, ?_⟩
  have hclose : [c.closing].count b.opening = 0 :=
    List.count_eq_zero.2 fun hmem => c.closing_ne_opening b (List.mem_singleton.1 hmem).symm
  rw [List.cons_append, List.count_cons, List.count_append, ht.count, hclose]
  by_cases h : b = c
  · simp [h, Nat.add_comm]
  · have hne : c.opening ≠ b.opening := fun heq => h ((Bracket.opening_eq_iff c b).1 heq).symm
    simp [h, hne]

end Text

/-! ### Nodes and the brackets they write -/

namespace Node

/-- The names and string literals that stand in a node itself. -/
def words : Node → List String
  | .stmt (.bind name _) => [name]
  | .expr (.ident name) => [name]
  | .expr (.str text) => [text]
  | .expr (.function params _) => params
  | .expr (.macroFn params _) => params
  | _ => []

/-- Whether a node itself writes a pair of brackets of the kind. -/
def writes : Node → Bracket → Bool
  | .expr (.unary _ _), b => b == .round
  | .expr (.binary _ _ _), b => b == .round
  | .expr (.index _ _), b => b == .round || b == .square
  | .expr (.call _ _), b => b == .round
  | .expr (.function _ _), b => b == .round
  | .expr (.macroFn _ _), b => b == .round
  | .expr (.array _), b => b == .square
  | .expr (.hash _), b => b == .curly
  | _, _ => false

/-- The number of nodes in the given ones that write the bracket. -/
def tally (b : Bracket) (ns : List Node) : Nat := (ns.flatMap nodes).countP (·.writes b)

theorem tally_append (b : Bracket) (ns ms : List Node) :
    tally b (ns ++ ms) = tally b ns + tally b ms := by
  rw [tally, List.flatMap_append, List.countP_append, tally, tally]

theorem tally_cons (b : Bracket) (n : Node) (ns : List Node) :
    tally b (n :: ns) = tally b [n] + tally b ns :=
  tally_append b [n] ns

theorem tally_singleton (b : Bracket) (n : Node) :
    tally b [n] = n.nodes.countP (·.writes b) := by
  rw [tally, List.flatMap_singleton]

theorem tally_eq (b : Bracket) (n : Node) :
    tally b [n] = (n.writes b).toNat + tally b n.parts := by
  rw [tally_singleton, nodes_eq, List.countP_cons, Nat.add_comm]
  cases n.writes b <;> rfl

end Node

/-! ### One layer of a tree -/

section Layer

open Node (tally)
open Text (Bracketed)

variable {b : Bracket}

theorem bracketed_flatMap {α : Type} {f : α → Text} {g : α → List Node} {as : List α}
    (h : ∀ a ∈ as, Bracketed b (f a) (tally b (g a))) :
    Bracketed b (as.flatMap f) (tally b (as.flatMap g)) := by
  induction as with
  | nil => exact Text.bracketed_of_isPlain rfl
  | cons a as ih =>
    obtain ⟨ha, has⟩ := List.forall_mem_cons.1 h
    rw [List.flatMap_cons, List.flatMap_cons, Node.tally_append]
    exact ha.append (ih has)

theorem bracketed_commaSep {α : Type} {f : α → Text} {g : α → List Node} {as : List α}
    (h : ∀ a ∈ as, Bracketed b (f a) (tally b (g a))) :
    Bracketed b (Text.commaSep (as.map f)) (tally b (as.flatMap g)) := by
  cases as with
  | nil => exact Text.bracketed_of_isPlain rfl
  | cons a as =>
    obtain ⟨ha, has⟩ := List.forall_mem_cons.1 h
    rw [List.map_cons, Text.commaSep_cons, List.flatMap_map, List.flatMap_cons, Node.tally_append]
    refine ha.append (bracketed_flatMap fun next hnext => ?_)
    exact (has next hnext).behind (u := [',', ' ']) rfl

theorem bracketed_block {body : Block}
    (h : ∀ m ∈ body.map Node.stmt, Bracketed b m.source (tally b [m])) :
    Bracketed b (body.flatMap Stmt.source) (tally b (body.map Node.stmt)) := by
  rw [List.map_eq_flatMap]
  exact bracketed_flatMap fun s hs => h (.stmt s) (List.mem_map_of_mem hs)

theorem bracketed_exprs {es : List Expr}
    (h : ∀ m ∈ es.map Node.expr, Bracketed b m.source (tally b [m])) :
    Bracketed b (Text.commaSep (es.map Expr.source)) (tally b (es.map Node.expr)) := by
  rw [List.map_eq_flatMap (f := Node.expr)]
  exact bracketed_commaSep fun e he => h (.expr e) (List.mem_map_of_mem he)

theorem bracketed_pairs {pairs : List (Expr × Expr)}
    (h : ∀ m ∈ pairs.flatMap fun p => [Node.expr p.1, Node.expr p.2],
      Bracketed b m.source (tally b [m])) :
    Bracketed b (Text.commaSep (pairs.map fun p => p.1.source ++ ':' :: p.2.source))
      (tally b (pairs.flatMap fun p => [Node.expr p.1, Node.expr p.2])) := by
  refine bracketed_commaSep fun p hp => ?_
  have hkey := h (.expr p.1) (List.mem_flatMap.2 ⟨p, hp, List.mem_cons_self⟩)
  have hvalue := h (.expr p.2)
    (List.mem_flatMap.2 ⟨p, hp, List.mem_cons_of_mem _ List.mem_cons_self⟩)
  rw [Node.tally_cons]
  exact hkey.append (hvalue.behind (u := [':']) rfl)

theorem bracketed_alternative {alternative : Option Block}
    (h : ∀ m ∈ (alternative.getD []).map Node.stmt, Bracketed b m.source (tally b [m])) :
    Bracketed b (alternativeSource alternative)
      (tally b ((alternative.getD []).map Node.stmt)) := by
  cases alternative with
  | none => exact Text.bracketed_of_isPlain rfl
  | some body =>
    rw [alternativeSource_some]
    exact (bracketed_block h).behind rfl

/-- A keyword, a list of parameters and a block. -/
theorem bracketed_abstraction {keyword : Text} {params : List String} {body : Block}
    (hk : Text.isPlain keyword = true) (hparams : ∀ w ∈ params, Text.isPlain w.toList = true)
    (hbody : ∀ m ∈ body.map Node.stmt, Bracketed b m.source (tally b [m])) :
    Bracketed b
      (keyword ++ ('(' :: Text.commaSep (params.map String.toList) ++ [')']) ++
        ' ' :: body.flatMap Stmt.source)
      ((b == .round).toNat + tally b (body.map Node.stmt)) := by
  have hnames : Bracketed b (Text.commaSep (params.map String.toList))
      (tally b (params.flatMap fun _ => [])) :=
    bracketed_commaSep fun w hw => Text.bracketed_of_isPlain (hparams w hw)
  have hnone : tally b (params.flatMap fun _ => []) = 0 := by
    rw [List.flatMap_eq_nil_iff.2 fun _ _ => rfl]
    rfl
  rw [hnone] at hnames
  refine ((hnames.enclosed .round).behind hk).append ?_
  exact (bracketed_block hbody).behind (u := [' ']) rfl

theorem Expr.bracketed_of_parts (e : Expr)
    (hwords : ∀ w ∈ (Node.expr e).words, Text.isPlain w.toList = true)
    (hparts : ∀ m ∈ (Node.expr e).parts, Bracketed b m.source (tally b [m])) :
    Bracketed b e.source (tally b [.expr e]) := by
  rw [Node.tally_eq]
  cases e with
  | ident name =>
    rw [source_ident]
    exact Text.bracketed_of_isPlain (hwords name List.mem_cons_self)
  | int n =>
    rw [source_int]
    exact Text.bracketed_of_isPlain (Text.isPlain_ofInt _)
  | bool c => cases c <;> exact Text.bracketed_of_isPlain rfl
  | str text =>
    rw [source_str]
    exact Text.bracketed_of_isPlain (hwords text List.mem_cons_self)
  | unary op operand =>
    have ho := hparts (.expr operand) List.mem_cons_self
    have hop : Text.isPlain op.symbol.toList = true := by cases op <;> rfl
    rw [source_unary]
    exact (ho.behind hop).enclosed .round
  | binary op left right =>
    have hl := hparts (.expr left) List.mem_cons_self
    have hr := hparts (.expr right) (List.mem_cons_of_mem _ List.mem_cons_self)
    have hop : Text.isPlain (' ' :: op.symbol.toList) = true := by cases op <;> rfl
    rw [source_binary, Node.parts, Node.tally_cons]
    exact ((hl.before hop).append (hr.behind (u := [' ']) rfl)).enclosed .round
  | index target position =>
    have ht := hparts (.expr target) List.mem_cons_self
    have hp := hparts (.expr position) (List.mem_cons_of_mem _ List.mem_cons_self)
    -- one pair of brackets inside the other
    have htext : (index target position).source =
        '(' :: (target.source ++ ('[' :: position.source ++ [']'])) ++ [')'] := by simp
    rw [htext]
    refine ((ht.append (hp.enclosed .square)).enclosed .round).of_eq ?_
    have hown : ((Node.expr (.index target position)).writes b).toNat =
        (b == .round).toNat + (b == .square).toNat := by cases b <;> rfl
    rw [hown, Node.parts, Node.tally_cons b (.expr target) [.expr position]]
    omega
  | cond test consequence alternative =>
    have ht := hparts (.expr test) List.mem_cons_self
    have hc : ∀ m ∈ consequence.map Node.stmt, Bracketed b m.source (tally b [m]) := fun m hm =>
      hparts m (List.mem_append_left _ (List.mem_cons_of_mem _ hm))
    have ha : ∀ m ∈ (alternative.getD []).map Node.stmt, Bracketed b m.source (tally b [m]) :=
      fun m hm => hparts m (List.mem_append_right _ hm)
    rw [source_cond, Node.parts, Node.tally_append, Node.tally_cons]
    refine (((ht.behind rfl).append ((bracketed_block hc).behind (u := [' ']) rfl)).append
      (bracketed_alternative ha)).of_eq ?_
    exact (Nat.zero_add _).symm
  | function params body =>
    have htext : (function params body).source =
        "fn".toList ++ ('(' :: Text.commaSep (params.map String.toList) ++ [')']) ++
          ' ' :: body.flatMap Stmt.source := by simp
    rw [htext]
    exact bracketed_abstraction rfl hwords hparts
  | macroFn params body =>
    have htext : (macroFn params body).source =
        "macro".toList ++ ('(' :: Text.commaSep (params.map String.toList) ++ [')']) ++
          ' ' :: body.flatMap Stmt.source := by simp
    rw [htext]
    exact bracketed_abstraction rfl hwords hparts
  | call callee args =>
    have hc := hparts (.expr callee) List.mem_cons_self
    have ha := bracketed_exprs fun m hm => hparts m (List.mem_cons_of_mem _ hm)
    rw [source_call, List.append_assoc, Node.parts, Node.tally_cons]
    -- the callee stands in front of the bracket that the call writes
    exact (hc.append (ha.enclosed .round)).of_eq (Nat.add_left_comm ..)
  | array items =>
    rw [source_array]
    exact (bracketed_exprs hparts).enclosed .square
  | hash pairs =>
    rw [source_hash]
    exact (bracketed_pairs hparts).enclosed .curly

theorem Stmt.bracketed_of_parts (s : Stmt)
    (hwords : ∀ w ∈ (Node.stmt s).words, Text.isPlain w.toList = true)
    (hparts : ∀ m ∈ (Node.stmt s).parts, Bracketed b m.source (tally b [m])) :
    Bracketed b s.source (tally b [.stmt s]) := by
  refine Text.Bracketed.of_eq ?_ ((Node.tally_eq b (.stmt s)).trans (Nat.zero_add _)).symm
  cases s with
  | bind name value =>
    have hv := hparts (.expr value) List.mem_cons_self
    have hname : Text.isPlain ("let ".toList ++ name.toList ++ " = ".toList) = true := by
      rw [Text.isPlain_append, Text.isPlain_append, hwords name List.mem_cons_self]
      rfl
    rw [source_bind]
    exact (hv.behind hname).before rfl
  | ret value =>
    have hv := hparts (.expr value) List.mem_cons_self
    rw [source_ret]
    exact (hv.behind rfl).before rfl
  | expr e =>
    rw [source_expr]
    exact hparts (.expr e) List.mem_cons_self
  | block body =>
    rw [source_block]
    exact bracketed_block hparts

/-- The brackets of a node, from those of its parts. -/
theorem Node.bracketed_of_parts (n : Node) (hwords : ∀ w ∈ n.words, Text.isPlain w.toList = true)
    (hparts : ∀ m ∈ n.parts, Bracketed b m.source (tally b [m])) :
    Bracketed b n.source (tally b [n]) := by
  cases n with
  | program body =>
    have hsource : (Node.program body).source = body.flatMap Stmt.source :=
      blockSource_eq_flatMap body
    rw [hsource, Node.tally_eq]
    exact (bracketed_block hparts).of_eq (Nat.zero_add _).symm
  | stmt s => exact s.bracketed_of_parts hwords hparts
  | expr e => exact e.bracketed_of_parts hwords hparts

end Layer

namespace Node

theorem bracketed_source (b : Bracket) (n : Node)
    (h : ∀ m ∈ n.nodes, ∀ w ∈ m.words, Text.isPlain w.toList = true) :
    Text.Bracketed b n.source (tally b [n]) := by
  induction n using Node.part_induction with
  | step n ih =>
    refine n.bracketed_of_parts (h n n.self_mem_nodes) fun m hm => ih m hm fun k hk => ?_
    exact h k (mem_nodes_of_part hm hk)

/-- The source text of a node is properly nested when its names and string literals
have no brackets. Each kind of bracket is opened as many times as there are nodes
that write it. -/
theorem source_is_well_bracketed (n : Node)
    (h : ∀ m ∈ n.nodes, ∀ w ∈ m.words, Text.isPlain w.toList = true) :
    Text.Nested n.source ∧
      ∀ b : Bracket, n.source.count b.opening = n.nodes.countP (·.writes b) := by
  refine ⟨(bracketed_source .round n h).nested, fun b => ?_⟩
  rw [(bracketed_source b n h).count, tally_singleton]

/-- A program in which every kind of bracket is written. -/
def sampler : Node :=
  .program
    [.bind "f" (.function ["x", "y"]
      [.expr (.cond (.binary .lt (.ident "x") (.ident "y"))
        [.ret (.index (.array [.ident "x"]) (.int 0))]
        (some [.expr (.hash [(.str "k", .unary .neg (.int 5))])]))]),
     .expr (.call (.ident "f") [.macroFn ["z"] [.block []], .array []])]

theorem sampler_is_well_bracketed :
    (∀ m ∈ sampler.nodes, ∀ w ∈ m.words, Text.isPlain w.toList = true) ∧
      Text.Nested sampler.source ∧ sampler.source.count '(' = 6 ∧ sampler.source.count '[' = 3 ∧
      sampler.source.count '\x7b' = 1 := by
  have hlist : sampler.nodes.flatMap words = ["f", "x", "y", "x", "y", "x", "k", "f", "z"] := by
    simp [sampler, nodes_eq, parts, words]
  have hplain : ∀ w ∈ ["f", "x", "y", "x", "y", "x", "k", "f", "z"],
      Text.isPlain w.toList = true := by decide
  have hwords : ∀ m ∈ sampler.nodes, ∀ w ∈ m.words, Text.isPlain w.toList = true :=
    fun m hm w hw => hplain w (hlist ▸ List.mem_flatMap.2 ⟨m, hm, hw⟩)
  obtain ⟨hnested, hcount⟩ := source_is_well_bracketed sampler hwords
  refine ⟨hwords, hnested, (hcount .round).trans ?_, (hcount .square).trans ?_,
    (hcount .curly).trans ?_⟩
  all_goals
    simp [sampler, nodes_eq, parts, writes]

end Node

end Scriptlet
