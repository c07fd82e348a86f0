import Scriptlet.Proofs.Legible
import Scriptlet.Tree.Source

/-!
# Unique reading of expressions

The source text of an expression without blocks and string literals determines
the expression. A call is written behind its callee, so an expression is a head
followed by lists of arguments. The first character tells the kinds of heads
apart, except that operators and indexing all start with a parenthesis; there
the character after the first operand decides. A minus sign behind the
parenthesis may belong to a number or be the operator, and again the character
after the operand tells which.
-/
namespace Scriptlet

/-! ### Expressions without blocks -/

namespace Text

def isWordChar (c : Char) : Bool := c.isLower || c.isDigit || c == '_'

/-- A small letter or underscore, then small letters, digits and underscores. -/
def isName : Text → Bool
  | [] => false
  | c :: cs => (c.isLower || c == '_') && cs.all isWordChar

end Text

namespace Expr

/-- Built without string literals, conditionals, functions and macros, with
names that cannot be taken for numbers or truth values. -/
inductive BlockFree : Expr → Prop where
  | ident {name : String} (hname : Text.isName name.toList = true) (htrue : name ≠ "true")
      (hfalse : name ≠ "false") : BlockFree (.ident name)
  | int (n : Int64) : BlockFree (.int n)
  | bool (b : Bool) : BlockFree (.bool b)
  | unary (op : UnaryOp) {operand : Expr} (h : BlockFree operand) : BlockFree (.unary op operand)
  | binary (op : BinaryOp) {left right : Expr} (hl : BlockFree left) (hr : BlockFree right) :
      BlockFree (.binary op left right)
  | call {callee : Expr} {args : List Expr} (hf : BlockFree callee)
      (hargs : ∀ a ∈ args, BlockFree a) : BlockFree (.call callee args)
  | array {items : List Expr} (h : ∀ a ∈ items, BlockFree a) : BlockFree (.array items)
  | index {target position : Expr} (ht : BlockFree target) (hp : BlockFree position) :
      BlockFree (.index target position)
  | hash {pairs : List (Expr × Expr)} (hk : ∀ p ∈ pairs, BlockFree p.1)
      (hv : ∀ p ∈ pairs, BlockFree p.2) : BlockFree (.hash pairs)

end Expr

/-! ### First characters -/

inductive Lead where
  | word
  | number
  | paren
  | square
  | curly

def Lead.ofChar? (c : Char) : Option Lead :=
  if c.isLower || c == '_' then some .word
  else if c.isDigit || c == '-' then some .number
  else if c = '(' then some .paren
  else if c = '[' then some .square
  else if c = '\x7b' then some .curly
  else none

theorem isLower_eq_false_of_isDigit {c : Char} (h : c.isDigit = true) : c.isLower = false := by
  have hdigit : c.val ≤ 57 := by
    have hboth : (decide (48 ≤ c.val) && decide (c.val ≤ 57)) = true := h
    simpa using (Bool.and_eq_true_iff.1 hboth).2
  have hsmall : ¬97 ≤ c.val := by
    rw [UInt32.le_iff_toNat_le] at hdigit ⊢
    have h57 : (57 : UInt32).toNat = 57 := rfl
    have h97 : (97 : UInt32).toNat = 97 := rfl
    omega
  have hlower : (decide (97 ≤ c.val) && decide (c.val ≤ 122)) = false := by
    rw [decide_eq_false hsmall, Bool.false_and]
  exact hlower

theorem Lead.ofChar?_of_isDigit {c : Char} (h : c.isDigit = true) : ofChar? c = some .number := by
  have hne : (c == '_') = false := by
    rw [beq_eq_false_iff_ne]
    rintro rfl
    cases h
  simp [ofChar?, isLower_eq_false_of_isDigit h, hne, h]

namespace Expr

/-- How the text of an expression starts. -/
def lead : Expr → Lead
  | .int _ => .number
  | .unary _ _ => .paren
  | .binary _ _ _ => .paren
  | .index _ _ => .paren
  | .array _ => .square
  | .hash _ => .curly
  | .call callee _ => callee.lead
  | _ => .word

variable {e f : Expr} {r r' : Text}

theorem BlockFree.source_lead (h : e.BlockFree) :
    ∃ c t, e.source = c :: t ∧ Lead.ofChar? c = some e.lead := by
  induction h with
  | @ident name hname =>
    rw [source_ident]
    cases hn : name.toList with
    | nil => rw [hn] at hname; cases hname
    | cons c t =>
      rw [hn, Text.isName, Bool.and_eq_true] at hname
      exact ⟨c, t, rfl, if_pos hname.1⟩
  | int n =>
    rw [source_int]
    cases n.toInt with
    | ofNat k =>
      obtain ⟨c, t, hk, hc⟩ := Text.exists_ofNat_eq_cons k
      exact ⟨c, t, hk, Lead.ofChar?_of_isDigit hc⟩
    | negSucc k => exact ⟨'-', _, rfl, rfl⟩
  | bool b => cases b <;> exact ⟨_, _, rfl, rfl⟩
  | call _ _ ih =>
    obtain ⟨c, t, hsource, hc⟩ := ih
    rw [source_call, hsource]
    exact ⟨c, _, rfl, hc⟩
  | _ => exact ⟨_, _, rfl, rfl⟩

theorem BlockFree.lead_eq (he : e.BlockFree) (hf : f.BlockFree)
    (h : e.source ++ r = f.source ++ r') : e.lead = f.lead := by
  obtain ⟨c, t, hc, hlead⟩ := he.source_lead
  obtain ⟨d, u, hd, hlead'⟩ := hf.source_lead
  rw [hc, hd, List.cons_append, List.cons_append, List.cons.injEq] at h
  rw [h.1, hlead'] at hlead
  exact (Option.some.inj hlead).symm

/-! ### Heads and argument lists -/

/-- What is called, after taking off all lists of arguments. -/
def head : Expr → Expr
  | .call callee _ => callee.head
  | e => e

def argLists : Expr → List (List Expr)
  | .call callee args => callee.argLists ++ [args]
  | _ => []

def isCall : Expr → Bool
  | .call _ _ => true
  | _ => false

def argsSource (args : List Expr) : Text := '(' :: Text.commaSep (args.map source) ++ [')']

def trailer (lists : List (List Expr)) : Text := lists.flatMap argsSource

theorem BlockFree.source_eq (h : e.BlockFree) : e.source = e.head.source ++ trailer e.argLists := by
  induction h with
  | call _ _ ih =>
    rw [source_call, ih]
    simp [head, argLists, trailer, argsSource]
  | _ => simp [head, argLists, trailer]

theorem BlockFree.foldl_call (h : e.BlockFree) : e.argLists.foldl Expr.call e.head = e := by
  induction h with
  | call _ _ ih => rw [argLists, List.foldl_append, head, ih]; rfl
  | _ => rfl

theorem BlockFree.head (h : e.BlockFree) : e.head.BlockFree ∧ e.head.isCall = false := by
  induction h with
  | call _ _ ih => exact ih
  | ident hname htrue hfalse => exact ⟨.ident hname htrue hfalse, rfl⟩
  | int n => exact ⟨.int n, rfl⟩
  | bool b => exact ⟨.bool b, rfl⟩
  | unary op h => exact ⟨.unary op h, rfl⟩
  | binary op hl hr => exact ⟨.binary op hl hr, rfl⟩
  | array h => exact ⟨.array h, rfl⟩
  | index ht hp => exact ⟨.index ht hp, rfl⟩
  | hash hk hv => exact ⟨.hash hk hv, rfl⟩

theorem BlockFree.args (h : e.BlockFree) : ∀ args ∈ e.argLists, ∀ a ∈ args, a.BlockFree := by
  induction h with
  | call _ hargs ih =>
    intro args hmem
    rcases List.mem_append.1 hmem with hmem | hmem
    · exact ih args hmem
    · rw [List.mem_singleton.1 hmem]
      exact hargs
  | _ => exact List.forall_mem_nil _

theorem BlockFree.exists_head_eq_int (h : e.BlockFree) (hlead : e.lead = .number) :
    ∃ n, e.head = .int n := by
  induction h with
  | int n => exact ⟨n, rfl⟩
  | call _ _ ih => exact ih hlead
  | _ => cases hlead

/-! ### Texts that end an operand -/

/-- What follows an operand when it is complete: neither more of a word nor a
list of arguments. -/
def Closed : Text → Prop := Text.Ends fun c => Text.isWordChar c || c == '('

/-- What follows a head: anything but more of a word. -/
def Apart : Text → Prop := Text.Ends Text.isWordChar

theorem apart_trailer (lists : List (List Expr)) (h : Closed r) : Apart (trailer lists ++ r) := by
  cases lists with
  | nil => exact Text.Ends.mono h fun c hc => (Bool.or_eq_false_iff.1 hc).1
  | cons args lists => exact (Text.ends_cons_iff ..).2 rfl

/-- The text of the expression can be told from that of every other one. -/
structure Readable (e : Expr) : Prop where
  blockFree : e.BlockFree
  legible : ∀ f : Expr, f.BlockFree → Legible source Closed e f

/-- The characters that may stand behind an operand and end it. -/
def delimiters : List Char := [')', ']', '[', ' ', ':']

theorem closed_cons {c : Char} (hc : c ∈ delimiters) (r : Text) : Closed (c :: r) := by
  have hall : delimiters.all (fun c => !(Text.isWordChar c || c == '(')) = true := rfl
  have hnot : (!(Text.isWordChar c || c == '(')) = true := List.all_eq_true.1 hall c hc
  rw [Bool.not_eq_true'] at hnot
  exact (Text.ends_cons_iff ..).2 hnot

theorem Readable.eq_of_delimited (h : e.Readable) (hf : f.BlockFree) {c d : Char}
    (hc : c ∈ delimiters) (hd : d ∈ delimiters) (heq : e.source ++ c :: r = f.source ++ d :: r') :
    e = f ∧ c = d ∧ r = r' := by
  obtain ⟨hef, hrest⟩ := h.legible f hf _ _ (closed_cons hc r) (closed_cons hd r') heq
  exact ⟨hef, List.cons.inj hrest⟩

/-- An enumeration of things whose texts start with that of an expression. -/
theorem legible_enumeration {α : Type} {text : α → Text} {close : Char}
    (hclose : close ∈ [')', ']', '\x7d']) {as bs : List α}
    (hparts : ∀ a ∈ as, ∀ b ∈ bs, Legible text Closed a b)
    (hlead : ∀ a, a ∈ as ∨ a ∈ bs → ∃ e t, BlockFree e ∧ text a = e.source ++ t) :
    Legible (fun as => Text.commaSep (as.map text)) (fun r => ∃ t, r = close :: t) as bs := by
  have hfacts : close ≠ ',' ∧ (Text.isWordChar close || close == '(') = false ∧
      Lead.ofChar? close = none := by
    simp only [List.mem_cons, List.not_mem_nil, or_false] at hclose
    rcases hclose with rfl | rfl | rfl
    · exact ⟨by decide, rfl, rfl⟩
    · exact ⟨by decide, rfl, rfl⟩
    · exact ⟨by decide, rfl, rfl⟩
  obtain ⟨hcomma, hend, hnone⟩ := hfacts
  refine Text.legible_commaSep hcomma (fun t => (Text.ends_cons_iff ..).2 rfl)
    (fun t => (Text.ends_cons_iff ..).2 hend) hparts fun a ha => ?_
  obtain ⟨e, t, he, htext⟩ := hlead a ha
  obtain ⟨c, u, hsource, hc⟩ := he.source_lead
  refine ⟨c, u ++ t, by rw [htext, hsource, List.cons_append], ?_⟩
  rintro rfl
  rw [hnone] at hc
  cases hc

theorem legible_commaSep_source {close : Char} (hclose : close ∈ [')', ']', '\x7d'])
    {as bs : List Expr} (has : ∀ a ∈ as, a.Readable) (hbs : ∀ b ∈ bs, b.BlockFree) :
    Legible (fun as => Text.commaSep (as.map source)) (fun r => ∃ t, r = close :: t) as bs := by
  have hparts : ∀ a ∈ as, ∀ b ∈ bs, Legible source Closed a b := fun a ha b hb =>
    (has a ha).legible b (hbs b hb)
  refine legible_enumeration hclose hparts fun a ha => ?_
  exact ⟨a, [], ha.elim (fun ha => (has a ha).blockFree) (hbs a), (List.append_nil _).symm⟩

theorem legible_trailer {lists lists' : List (List Expr)}
    (h : ∀ args ∈ lists, ∀ a ∈ args, a.Readable) (h' : ∀ args ∈ lists', ∀ a ∈ args, a.BlockFree) :
    Legible trailer Closed lists lists' := by
  have hcons (args : List Expr) (lists : List (List Expr)) (r : Text) :
      trailer (args :: lists) ++ r =
        '(' :: (Text.commaSep (args.map source) ++ ')' :: (trailer lists ++ r)) := by
    simp [trailer, argsSource]
  have hnil (r : Text) : trailer [] ++ r = r := rfl
  have hopen {t : Text} : ¬Closed ('(' :: t) := by simp [Closed]
  intro r r' hr hr' heq
  induction lists generalizing lists' with
  | nil =>
    cases lists' with
    | nil => exact ⟨rfl, heq⟩
    | cons args lists' =>
      rw [hnil, hcons] at heq
      exact absurd (heq ▸ hr) hopen
  | cons args lists ih =>
    cases lists' with
    | nil =>
      rw [hnil, hcons] at heq
      exact absurd (heq ▸ hr') hopen
    | cons args' lists' =>
      rw [hcons, hcons, List.cons.injEq] at heq
      rw [List.forall_mem_cons] at h h'
      obtain ⟨rfl, htail⟩ := legible_commaSep_source (by simp) h.1 h'.1 _ _ ⟨_, rfl⟩ ⟨_, rfl⟩ heq.2
      obtain ⟨rfl, hrest⟩ := ih h.2 h'.2 (List.cons.inj htail).2
      exact ⟨rfl, hrest⟩

/-! ### Heads -/

/-- The text of a head can be told from that of every other head, whatever
follows it. -/
def HeadReadable (e : Expr) : Prop :=
  ∀ f : Expr, f.BlockFree → f.isCall = false → Legible source Apart e f

/-- The head can be read, and so can all arguments. -/
structure SpineReadable (e : Expr) : Prop where
  blockFree : e.BlockFree
  head : e.head.HeadReadable
  args : ∀ args ∈ e.argLists, ∀ a ∈ args, a.Readable

theorem SpineReadable.readable (h : e.SpineReadable) : e.Readable := by
  refine ⟨h.blockFree, fun f hf r r' hr hr' heq => ?_⟩
  rw [h.blockFree.source_eq, hf.source_eq, List.append_assoc, List.append_assoc] at heq
  obtain ⟨hhead, htrailer⟩ := h.head f.head hf.head.1 hf.head.2 _ _ (apart_trailer _ hr)
    (apart_trailer _ hr') heq
  obtain ⟨hargs, hrest⟩ := legible_trailer h.args hf.args r r' hr hr' htrailer
  refine ⟨?_, hrest⟩
  rw [← h.blockFree.foldl_call, ← hf.foldl_call, hhead, hargs]

/-! ### Words and numbers -/

theorem BlockFree.isWordChar_of_mem (h : e.BlockFree) (hcall : e.isCall = false)
    (hlead : e.lead = .word) : ∀ c ∈ e.source, Text.isWordChar c = true := by
  cases h with
  | @ident name hname =>
    rw [source_ident]
    cases hn : name.toList with
    | nil => exact List.forall_mem_nil _
    | cons c t =>
      rw [hn, Text.isName, Bool.and_eq_true, List.all_eq_true] at hname
      refine List.forall_mem_cons.2 ⟨?_, hname.2⟩
      rw [Text.isWordChar, Bool.or_right_comm, hname.1, Bool.true_or]
  | bool b => cases b <;> exact List.all_eq_true.1 rfl
  | call => cases hcall
  | _ => cases hlead

theorem headReadable_of_word (he : e.BlockFree) (hcall : e.isCall = false)
    (hlead : e.lead = .word) : e.HeadReadable := by
  intro f hf hcall' r r' hr hr' h
  have hlead' : f.lead = .word := (he.lead_eq hf h).symm.trans hlead
  obtain ⟨hsource, hrest⟩ := Text.append_inj_of_ends (he.isWordChar_of_mem hcall hlead)
    (hf.isWordChar_of_mem hcall' hlead') hr hr' h
  refine ⟨?_, hrest⟩
  have hname (b : Bool) {name : String} (htrue : name ≠ "true") (hfalse : name ≠ "false") :
      name.toList ≠ Text.ofBool b := by
    cases b with
    | false => exact fun h => hfalse (String.toList_inj.1 h)
    | true => exact fun h => htrue (String.toList_inj.1 h)
  cases he with
  | ident _ htrue hfalse =>
    cases hf with
    | ident => rw [String.toList_inj.1 hsource]
    | bool b => exact absurd hsource (hname b htrue hfalse)
    | call => cases hcall'
    | _ => cases hlead'
  | bool b =>
    cases hf with
    | ident _ htrue hfalse => exact absurd hsource.symm (hname b htrue hfalse)
    | bool b' => cases b <;> cases b' <;> first | rfl | cases hsource
    | call => cases hcall'
    | _ => cases hlead'
  | call => cases hcall
  | _ => cases hlead

theorem Apart.digits (h : Apart r) : Text.Ends Char.isDigit r := by
  refine Text.Ends.mono h fun c hc => ?_
  rw [Text.isWordChar, Bool.or_eq_false_iff, Bool.or_eq_false_iff] at hc
  exact hc.1.2

theorem headReadable_int (n : Int64) : (int n).HeadReadable := by
  intro f hf hcall r r' hr hr' h
  have hlead : Lead.number = f.lead := (BlockFree.int n).lead_eq hf h
  cases hf with
  | int m =>
    obtain ⟨hnm, hrest⟩ := Text.legible_ofInt _ _ r r' hr.digits hr'.digits h
    exact ⟨by rw [Int64.toInt_inj.1 hnm], hrest⟩
  | call => cases hcall
  | _ => cases hlead

/-! ### Brackets -/

theorem headReadable_array {items : List Expr} (h : ∀ a ∈ items, a.Readable) :
    (array items).HeadReadable := by
  have happend (items : List Expr) (r : Text) :
      (array items).source ++ r = '[' :: (Text.commaSep (items.map source) ++ ']' :: r) := by
    simp
  intro f hf hcall r r' hr hr' heq
  have hfree : (array items).BlockFree := .array fun a ha => (h a ha).blockFree
  have hlead : Lead.square = f.lead := hfree.lead_eq hf heq
  cases hf with
  | array h' =>
    rw [happend, happend, List.cons.injEq] at heq
    obtain ⟨rfl, hrest⟩ := legible_commaSep_source (by simp) h h' _ _ ⟨r, rfl⟩ ⟨r', rfl⟩ heq.2
    exact ⟨rfl, (List.cons.inj hrest).2⟩
  | call => cases hcall
  | _ => cases hlead

theorem headReadable_hash {pairs : List (Expr × Expr)} (hk : ∀ p ∈ pairs, p.1.Readable)
    (hv : ∀ p ∈ pairs, p.2.Readable) : (hash pairs).HeadReadable := by
  let text (p : Expr × Expr) : Text := p.1.source ++ ':' :: p.2.source
  have happend (pairs : List (Expr × Expr)) (r : Text) :
      (hash pairs).source ++ r = '\x7b' :: (Text.commaSep (pairs.map text) ++ '\x7d' :: r) := by
    simp [text]
  have hpair {p q : Expr × Expr} (hp : p ∈ pairs) (hqk : q.1.BlockFree) (hqv : q.2.BlockFree) :
      Legible text Closed p q := by
    intro r r' hr hr' heq
    simp only [text, List.append_assoc, List.cons_append] at heq
    obtain ⟨hkeys, -, htail⟩ := (hk p hp).eq_of_delimited hqk (by decide) (by decide) heq
    obtain ⟨hvalues, hrest⟩ := (hv p hp).legible q.2 hqv r r' hr hr' htail
    exact ⟨Prod.ext hkeys hvalues, hrest⟩
  have hfree : (hash pairs).BlockFree :=
    .hash (fun p hp => (hk p hp).blockFree) fun p hp => (hv p hp).blockFree
  intro f hf hcall r r' hr hr' heq
  have hlead : Lead.curly = f.lead := hfree.lead_eq hf heq
  cases hf with
  | @hash pairs' hk' hv' =>
    rw [happend, happend, List.cons.injEq] at heq
    have hlegible : Legible (fun ps => Text.commaSep (ps.map text)) (fun r => ∃ t, r = '\x7d' :: t)
        pairs pairs' := by
      refine legible_enumeration (by simp) (fun p hp q hq => hpair hp (hk' q hq) (hv' q hq)) ?_
      intro p hp
      exact ⟨p.1, _, hp.elim (fun hp => (hk p hp).blockFree) (hk' p), rfl⟩
    obtain ⟨rfl, hrest⟩ := hlegible _ _ ⟨r, rfl⟩ ⟨r', rfl⟩ heq.2
    exact ⟨rfl, (List.cons.inj hrest).2⟩
  | call => cases hcall
  | _ => cases hlead

/-! ### Parentheses -/

theorem source_unary_append (op : UnaryOp) (e : Expr) (r : Text) :
    (unary op e).source ++ r = '(' :: (op.symbol.toList ++ (e.source ++ ')' :: r)) := by
  simp

theorem source_binary_append (op : BinaryOp) (e f : Expr) (r : Text) :
    (binary op e f).source ++ r =
      '(' :: (e.source ++ ' ' :: (op.symbol.toList ++ ' ' :: (f.source ++ ')' :: r))) := by
  simp

theorem source_index_append (e f : Expr) (r : Text) :
    (index e f).source ++ r = '(' :: (e.source ++ '[' :: (f.source ++ ']' :: ')' :: r)) := by
  simp

theorem legible_unarySymbol (op op' : UnaryOp) :
    Legible (fun op : UnaryOp => op.symbol.toList) (fun _ => True) op op' := by
  intro r r' _ _ h
  have hlength (op : UnaryOp) : op.symbol.toList.length = 1 := by cases op <;> rfl
  obtain ⟨hsymbol, hrest⟩ := List.append_inj h ((hlength op).trans (hlength op').symm)
  refine ⟨?_, hrest⟩
  rw [← Option.some_inj, ← op.ofSymbol?_symbol, String.toList_inj.1 hsymbol, op'.ofSymbol?_symbol]

theorem legible_binarySymbol (op op' : BinaryOp) :
    Legible (fun op : BinaryOp => op.symbol.toList) (fun r => ∃ t, r = ' ' :: t) op op' := by
  rintro r r' ⟨t, rfl⟩ ⟨t', rfl⟩ h
  have hblank (op : BinaryOp) : ∀ c ∈ op.symbol.toList, (c != ' ') = true := by
    cases op <;> exact List.all_eq_true.1 rfl
  obtain ⟨hsymbol, hrest⟩ := Text.append_inj_of_ends (hblank op) (hblank op') (by simp) (by simp) h
  refine ⟨?_, hrest⟩
  rw [← Option.some_inj, ← op.ofSymbol?_symbol, String.toList_inj.1 hsymbol, op'.ofSymbol?_symbol]

/-- A minus sign with an operand behind it reads as an operand only where both
end at the same place: the minus sign is then that of a number. -/
theorem rest_eq_of_minus (he : e.BlockFree) (hf : f.BlockFree)
    (htrailer : Legible trailer Closed e.argLists f.argLists) (hr : Closed r) (hr' : Closed r')
    (h : '-' :: (e.source ++ r) = f.source ++ r') : r = r' := by
  -- what starts with a minus sign is a number with arguments behind it
  have hflead : f.lead = .number := by
    obtain ⟨c, t, hsource, hc⟩ := hf.source_lead
    rw [hsource, List.cons_append, List.cons.injEq] at h
    rw [← h.1] at hc
    exact (Option.some.inj hc).symm
  obtain ⟨n, hn⟩ := hf.exists_head_eq_int hflead
  rw [hf.source_eq, hn, source_int, List.append_assoc] at h
  cases hsign : n.toInt with
  | ofNat k =>
    rw [hsign] at h
    exact absurd h.symm (Text.ofNat_append_ne_minus k _ _)
  | negSucc k =>
    rw [hsign] at h
    have hdigits : e.source ++ r = Text.ofNat (k + 1) ++ (trailer f.argLists ++ r') :=
      (List.cons.inj h).2
    -- so is what comes after the sign
    have helead : e.lead = .number := by
      obtain ⟨c, t, hsource, hc⟩ := he.source_lead
      obtain ⟨d, u, hd, hdigit⟩ := Text.exists_ofNat_eq_cons (k + 1)
      rw [hsource, hd, List.cons_append, List.cons_append, List.cons.injEq] at hdigits
      rw [hdigits.1, Lead.ofChar?_of_isDigit hdigit] at hc
      exact (Option.some.inj hc).symm
    obtain ⟨m, hm⟩ := he.exists_head_eq_int helead
    rw [he.source_eq, hm, source_int, List.append_assoc] at hdigits
    have hends {lists : List (List Expr)} {t : Text} (ht : Closed t) :
        Text.Ends Char.isDigit (trailer lists ++ t) := (apart_trailer lists ht).digits
    obtain ⟨-, htail⟩ := Text.legible_ofInt m.toInt (k + 1 : Nat) _ _ (hends hr) (hends hr') hdigits
    exact (htrailer r r' hr hr' htail).2

/-- An operator with its operand is no operand followed by something else. -/
theorem unarySymbol_ne_operand (op : UnaryOp) (he : e.BlockFree) (hf : f.BlockFree)
    (htrailer : Legible trailer Closed e.argLists f.argLists) {c d : Char} (hc : c ∈ delimiters)
    (hd : d ∈ delimiters) (hcd : c ≠ d) :
    op.symbol.toList ++ (e.source ++ c :: r) ≠ f.source ++ d :: r' := by
  intro h
  cases op with
  | not =>
    obtain ⟨a, t, hsource, ha⟩ := hf.source_lead
    rw [hsource, List.cons_append] at h
    rw [← (List.cons.inj h).1] at ha
    cases ha
  | neg =>
    have hrest := rest_eq_of_minus he hf htrailer (closed_cons hc r) (closed_cons hd r') h
    exact hcd (List.cons.inj hrest).1

theorem headReadable_unary (op : UnaryOp) (he : e.SpineReadable) : (unary op e).HeadReadable := by
  intro f hf hcall r r' _ _ h
  have hlead : Lead.paren = f.lead := (BlockFree.unary op he.blockFree).lead_eq hf h
  cases hf with
  | unary op' he' =>
    rw [source_unary_append, source_unary_append, List.cons.injEq] at h
    obtain ⟨rfl, htail⟩ := legible_unarySymbol op op' _ _ trivial trivial h.2
    obtain ⟨rfl, -, hrest⟩ := he.readable.eq_of_delimited he' (by decide) (by decide) htail
    exact ⟨rfl, hrest⟩
  | binary op' hl' hr' =>
    rw [source_unary_append, source_binary_append, List.cons.injEq] at h
    have htrailer := legible_trailer he.args hl'.args
    exact absurd h.2 (unarySymbol_ne_operand op he.blockFree hl' htrailer (by decide) (by decide)
      (by decide))
  | index ht' hp' =>
    rw [source_unary_append, source_index_append, List.cons.injEq] at h
    have htrailer := legible_trailer he.args ht'.args
    exact absurd h.2 (unarySymbol_ne_operand op he.blockFree ht' htrailer (by decide) (by decide)
      (by decide))
  | call => cases hcall
  | _ => cases hlead

theorem headReadable_binary (op : BinaryOp) {left right : Expr} (hl : left.SpineReadable)
    (hr : right.SpineReadable) : (binary op left right).HeadReadable := by
  intro f hf hcall r r' _ _ h
  have hlead : Lead.paren = f.lead := (BlockFree.binary op hl.blockFree hr.blockFree).lead_eq hf h
  cases hf with
  | unary op' he' =>
    rw [source_binary_append, source_unary_append, List.cons.injEq] at h
    have htrailer := (legible_trailer hl.args he'.args).symm
    exact absurd h.2.symm (unarySymbol_ne_operand op' he' hl.blockFree htrailer (by decide)
      (by decide) (by decide))
  | binary op' hl' hr' =>
    rw [source_binary_append, source_binary_append, List.cons.injEq] at h
    obtain ⟨rfl, -, hsymbol⟩ := hl.readable.eq_of_delimited hl' (by decide) (by decide) h.2
    obtain ⟨rfl, htail⟩ := legible_binarySymbol op op' _ _ ⟨_, rfl⟩ ⟨_, rfl⟩ hsymbol
    obtain ⟨rfl, -, hrest⟩ := hr.readable.eq_of_delimited hr' (by decide) (by decide)
      (List.cons.inj htail).2
    exact ⟨rfl, hrest⟩
  | index ht' hp' =>
    rw [source_binary_append, source_index_append, List.cons.injEq] at h
    obtain ⟨-, hdelimiter, -⟩ := hl.readable.eq_of_delimited ht' (by decide) (by decide) h.2
    cases hdelimiter
  | call => cases hcall
  | _ => cases hlead

theorem headReadable_index {target position : Expr} (ht : target.SpineReadable)
    (hp : position.SpineReadable) : (index target position).HeadReadable := by
  intro f hf hcall r r' _ _ h
  have hlead : Lead.paren = f.lead := (BlockFree.index ht.blockFree hp.blockFree).lead_eq hf h
  cases hf with
  | unary op' he' =>
    rw [source_index_append, source_unary_append, List.cons.injEq] at h
    have htrailer := (legible_trailer ht.args he'.args).symm
    exact absurd h.2.symm (unarySymbol_ne_operand op' he' ht.blockFree htrailer (by decide)
      (by decide) (by decide))
  | binary op' hl' hr' =>
    rw [source_index_append, source_binary_append, List.cons.injEq] at h
    obtain ⟨-, hdelimiter, -⟩ := ht.readable.eq_of_delimited hl' (by decide) (by decide) h.2
    cases hdelimiter
  | index ht' hp' =>
    rw [source_index_append, source_index_append, List.cons.injEq] at h
    obtain ⟨rfl, -, htail⟩ := ht.readable.eq_of_delimited ht' (by decide) (by decide) h.2
    obtain ⟨rfl, -, hrest⟩ := hp.readable.eq_of_delimited hp' (by decide) (by decide) htail
    exact ⟨rfl, (List.cons.inj hrest).2⟩
  | call => cases hcall
  | _ => cases hlead

/-! ### All expressions -/

theorem BlockFree.spineReadable (h : e.BlockFree) : e.SpineReadable := by
  -- the callee of a call is followed by its arguments and so never stands alone; the
  -- induction therefore carries its head and arguments, and not that it can be read
  induction h with
  | ident hname htrue hfalse =>
    have he := BlockFree.ident hname htrue hfalse
    exact ⟨he, headReadable_of_word he rfl rfl, List.forall_mem_nil _⟩
  | int n => exact ⟨.int n, headReadable_int n, List.forall_mem_nil _⟩
  | bool b => exact ⟨.bool b, headReadable_of_word (.bool b) rfl rfl, List.forall_mem_nil _⟩
  | unary op h ih => exact ⟨.unary op h, headReadable_unary op ih, List.forall_mem_nil _⟩
  | binary op hl hr ihl ihr =>
    exact ⟨.binary op hl hr, headReadable_binary op ihl ihr, List.forall_mem_nil _⟩
  | call hf hargs ihf ihargs =>
    refine ⟨.call hf hargs, ihf.head, fun args hmem => ?_⟩
    rcases List.mem_append.1 hmem with hmem | hmem
    · exact ihf.args args hmem
    · rw [List.mem_singleton.1 hmem]
      exact fun a ha => (ihargs a ha).readable
  | array h ih =>
    exact ⟨.array h, headReadable_array fun a ha => (ih a ha).readable, List.forall_mem_nil _⟩
  | index ht hp iht ihp => exact ⟨.index ht hp, headReadable_index iht ihp, List.forall_mem_nil _⟩
  | hash hk hv ihk ihv =>
    exact ⟨.hash hk hv, headReadable_hash (fun p hp => (ihk p hp).readable)
      fun p hp => (ihv p hp).readable, List.forall_mem_nil _⟩

/-- Two expressions without blocks that are written alike are one expression. -/
theorem source_determines_blockFree (he : e.BlockFree) (hf : f.BlockFree)
    (h : e.source = f.source) : e = f := by
  have hclosed : Closed [] := Text.ends_nil
  exact (he.spineReadable.readable.legible f hf [] [] hclosed hclosed (by rw [h])).1

/-- A call of a negative number, a call under a minus sign, and a call of a number under
a minus sign differ only in brackets, and no two of them are written alike. Made in
another way and written like the first, a tree is the first. -/
theorem negatives_are_read_apart :
    let x := ident "x"
    let e := call (int (-5)) [x]
    let f := unary .neg (call (int 5) [x])
    let g := call (unary .neg (int 5)) [x]
    e.BlockFree ∧ f.BlockFree ∧ g.BlockFree ∧
      e.source = "-5(x)".toList ∧ f.source = "(-5(x))".toList ∧ g.source = "(-5)(x)".toList ∧
      e.source ≠ f.source ∧ e.source ≠ g.source ∧ f.source ≠ g.source ∧
      [[x]].foldl call (int (-5)) = e := by
  intro x e f g
  have hx : ∀ a ∈ [x], a.BlockFree :=
    List.forall_mem_singleton.2 (.ident (by decide) (by decide) (by decide))
  have he : e.BlockFree := .call (.int _) hx
  have hf : f.BlockFree := .unary .neg (.call (.int _) hx)
  have hg : g.BlockFree := .call (.unary .neg (.int _)) hx
  have hef : e ≠ f := by simp [e, f]
  have heg : e ≠ g := by simp [e, g]
  have hfg : f ≠ g := by simp [f, g]
  refine ⟨he, hf, hg, by decide, by decide, by decide, ?_, ?_, ?_,
    source_determines_blockFree he he rfl⟩
  · exact fun h => hef (source_determines_blockFree he hf h)
  · exact fun h => heg (source_determines_blockFree he hg h)
  · exact fun h => hfg (source_determines_blockFree hf hg h)

end Expr

end Scriptlet
