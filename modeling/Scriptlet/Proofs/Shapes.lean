import Mathlib.Logic.Function.Basic
import Scriptlet.Proofs.Quotation
import Scriptlet.Text.Layout

/-!
# Shapes

An outline is the text of a shape. A shape is a word, a quoted string, a tag with
its content, a named field, a tag with fields, or a list of shapes. The text
determines the shape: a shape starts with a word, a quote or a square bracket, and
what stands behind the word tells the shapes that start with one apart. This takes
a look at two characters, since a word may be followed by the end of a record and a
tag by the start of one.
-/
namespace Scriptlet

namespace Text

def isWordLetter (c : Char) : Bool := c.isAlphanum || c == '-'

def isWord (t : Text) : Bool := !t.isEmpty && t.all isWordLetter

end Text

/-- A nonempty run of letters, digits and minus signs. -/
@[ext]
structure Word where
  name : String
  isWord : Text.isWord name.toList = true

inductive Shape where
  | word (w : Word)
  | quoted (t : Text)
  | tagged (tag : Word) (content : Shape)
  | field (name : Word) (content : Shape)
  | record (tag : Word) (fields : List Shape)
  | listed (items : List Shape)

mutual

def Shape.text (hidden : Char → Bool) : Shape → Text
  | .word w => w.name.toList
  | .quoted t => Text.quoted hidden t
  | .tagged tag content => Text.tagged tag.name (content.text hidden)
  | .field name content => Text.field name.name (content.text hidden)
  | .record tag fields => Text.record tag.name (shapeTexts hidden fields)
  | .listed items => Text.listed (shapeTexts hidden items)

def shapeTexts (hidden : Char → Bool) : List Shape → List Text
  | [] => []
  | p :: ps => p.text hidden :: shapeTexts hidden ps

end

theorem shapeTexts_eq_map (hidden : Char → Bool) (ps : List Shape) :
    shapeTexts hidden ps = ps.map (Shape.text hidden) := by
  induction ps with
  | nil => rfl
  | cons p ps ih => simp only [shapeTexts, List.map_cons, ih]

namespace Word

variable (w : Word)

theorem name_ne_nil : w.name.toList ≠ [] := by
  have h := (Bool.and_eq_true_iff.1 w.isWord).1
  simpa using h

theorem isWordLetter_of_mem {c : Char} (hc : c ∈ w.name.toList) : Text.isWordLetter c = true :=
  List.all_eq_true.1 (Bool.and_eq_true_iff.1 w.isWord).2 c hc

theorem name_append_ne {c : Char} (hc : Text.isWordLetter c = false) {r t : Text} :
    w.name.toList ++ r ≠ c :: t := by
  obtain ⟨d, u, hd⟩ := List.exists_cons_of_ne_nil w.name_ne_nil
  have hletter : Text.isWordLetter d = true := w.isWordLetter_of_mem (hd ▸ List.mem_cons_self)
  intro h
  rw [hd, List.cons_append, List.cons.injEq] at h
  rw [h.1, hc] at hletter
  cases hletter

theorem isWord_ofNat (n : Nat) : Text.isWord (Text.ofNat n) = true := by
  obtain ⟨c, t, hn, -⟩ := Text.exists_ofNat_eq_cons n
  rw [Text.isWord, Bool.and_eq_true, List.all_eq_true]
  refine ⟨by rw [hn]; rfl, fun d hd => ?_⟩
  rw [Text.isWordLetter, Char.isAlphanum, Text.isDigit_of_mem_ofNat hd, Bool.or_true, Bool.true_or]

theorem isWord_ofInt (n : Int) : Text.isWord (Text.ofInt n) = true := by
  cases n with
  | ofNat n => exact isWord_ofNat n
  | negSucc n => exact (Bool.and_eq_true_iff.1 (isWord_ofNat (n + 1))).2

/-- A word that is spelled out. -/
def of (name : String) (h : Text.isWord name.toList = true := by decide) : Word := ⟨name, h⟩

def ofInt (n : Int) : Word :=
  ⟨String.ofList (Text.ofInt n), by rw [String.toList_ofList]; exact isWord_ofInt n⟩

def ofBool : Bool → Word
  | true => of "true"
  | false => of "false"

@[simp]
theorem of_inj {m n : String} {hm hn} : of m hm = of n hn ↔ m = n := by
  rw [of, of, mk.injEq]

@[simp]
theorem name_ofInt (n : Int) : (ofInt n).name.toList = Text.ofInt n := String.toList_ofList

@[simp]
theorem name_ofBool (b : Bool) : (ofBool b).name.toList = Text.ofBool b := by
  cases b <;> rfl

@[simp]
theorem ofInt_inj {m n : Int} : ofInt m = ofInt n ↔ m = n := by
  refine ⟨fun h => ?_, congrArg ofInt⟩
  have htext : Text.ofInt m = Text.ofInt n := by rw [← name_ofInt, h, name_ofInt]
  exact (Text.legible_ofInt m n [] [] Text.ends_nil Text.ends_nil (by rw [htext])).1

@[simp]
theorem ofBool_inj {a b : Bool} : ofBool a = ofBool b ↔ a = b := by
  cases a <;> cases b <;> simp [ofBool]

end Word

namespace Shape

/-! ### Parts -/

def parts : Shape → List Shape
  | .word _ => []
  | .quoted _ => []
  | .tagged _ content => [content]
  | .field _ content => [content]
  | .record _ fields => fields
  | .listed items => items

theorem sizeOf_lt_of_mem_parts {p q : Shape} (h : q ∈ p.parts) : sizeOf q < sizeOf p := by
  cases p with
  | word => cases h
  | quoted => cases h
  | tagged tag content =>
    cases List.mem_singleton.1 h
    rw [tagged.sizeOf_spec]
    omega
  | field name content =>
    cases List.mem_singleton.1 h
    rw [field.sizeOf_spec]
    omega
  | record tag fields =>
    have := List.sizeOf_lt_of_mem h
    rw [record.sizeOf_spec, parts] at *
    omega
  | listed items =>
    have := List.sizeOf_lt_of_mem h
    rw [listed.sizeOf_spec, parts] at *
    omega

/-- What holds of a shape as soon as it holds of its parts holds of every shape. -/
theorem part_induction {motive : Shape → Prop}
    (step : ∀ p, (∀ q ∈ p.parts, motive q) → motive p) (p : Shape) : motive p :=
  (measure sizeOf).wf.induction p fun p ih => step p fun q hq => ih q (sizeOf_lt_of_mem_parts hq)

/-! ### How a shape starts -/

/-- The word that a shape starts with, and nothing where it starts with none. -/
def lead : Shape → Text
  | .word w => w.name.toList
  | .tagged tag _ => tag.name.toList
  | .field name _ => name.name.toList
  | .record tag _ => tag.name.toList
  | .quoted _ => []
  | .listed _ => []

/-- What stands behind the word that a shape starts with. -/
def tail (hidden : Char → Bool) : Shape → Text
  | .word _ => []
  | .quoted t => Text.quoted hidden t
  | .tagged _ content => '(' :: content.text hidden ++ [')']
  | .field _ content => ':' :: ' ' :: content.text hidden
  | .record _ fields =>
    ' ' :: '\x7b' :: ' ' :: Text.commaSep (fields.map (text hidden)) ++ [' ', '\x7d']
  | .listed items => '[' :: Text.commaSep (items.map (text hidden)) ++ [']']

variable {hidden : Char → Bool} {r r' : Text}

theorem text_eq (p : Shape) : p.text hidden = p.lead ++ p.tail hidden := by
  cases p with
  | word => simp [text, lead, tail]
  | quoted => rfl
  | tagged => simp [text, lead, tail, Text.tagged]
  | field => simp [text, lead, tail, Text.field]
  | record => simp [text, lead, tail, Text.record, shapeTexts_eq_map]
  | listed => simp [text, lead, tail, Text.listed, shapeTexts_eq_map]

theorem isWordLetter_of_mem_lead {p : Shape} : ∀ c ∈ p.lead, Text.isWordLetter c = true := by
  cases p with
  | word w => exact fun c => w.isWordLetter_of_mem
  | tagged tag => exact fun c => tag.isWordLetter_of_mem
  | field name => exact fun c => name.isWordLetter_of_mem
  | record tag => exact fun c => tag.isWordLetter_of_mem
  | quoted => exact List.forall_mem_nil _
  | listed => exact List.forall_mem_nil _

/-- What may stand behind a shape: nothing, the next one, or a closing bracket. -/
inductive Closes : Text → Prop where
  | nothing : Closes []
  | comma (t : Text) : Closes (',' :: t)
  | paren (t : Text) : Closes (')' :: t)
  | square (t : Text) : Closes (']' :: t)
  | curly (t : Text) : Closes (' ' :: '\x7d' :: t)

theorem ends_tail (p : Shape) (hr : Closes r) :
    Text.Ends Text.isWordLetter (p.tail hidden ++ r) := by
  cases p with
  | word => cases hr <;> first | exact Text.ends_nil | exact (Text.ends_cons_iff ..).2 rfl
  | _ => exact (Text.ends_cons_iff ..).2 rfl

/-- The kinds of shapes, as they are told apart by what stands behind the first word. -/
inductive Mark where
  | none
  | quote
  | paren
  | colon
  | curly
  | square

def mark : Shape → Mark
  | .word _ => .none
  | .quoted _ => .quote
  | .tagged _ _ => .paren
  | .field _ _ => .colon
  | .record _ _ => .curly
  | .listed _ => .square

def Mark.ofText (t : Text) : Mark :=
  if t.head? = some '"' then .quote
  else if t.head? = some '(' then .paren
  else if t.head? = some ':' then .colon
  else if t.head? = some '[' then .square
  else if t.take 2 = [' ', '\x7b'] then .curly
  else .none

theorem ofText_tail (p : Shape) (hr : Closes r) : Mark.ofText (p.tail hidden ++ r) = p.mark := by
  cases p with
  | word => cases hr <;> rfl
  | _ => rfl

/-! ### Reading shapes back -/

/-- No shape starts with a closing bracket or a blank. -/
theorem text_append_ne (p : Shape) {c : Char} (hc : c = ']' ∨ c = ' ') (t : Text) :
    p.text hidden ++ r ≠ c :: t := by
  have hword : Text.isWordLetter c = false := by rcases hc with rfl | rfl <;> rfl
  have hquote : '"' ≠ c := by rcases hc with rfl | rfl <;> decide
  have hsquare : '[' ≠ c := by rcases hc with rfl | rfl <;> decide
  rw [text_eq, List.append_assoc]
  intro h
  cases p with
  | quoted => exact hquote (List.cons.inj h).1
  | listed => exact hsquare (List.cons.inj h).1
  | word w => exact w.name_append_ne hword h
  | tagged tag => exact tag.name_append_ne hword h
  | field name => exact name.name_append_ne hword h
  | record tag => exact tag.name_append_ne hword h

/-- Shapes that can be read one by one can be read as a list, up to a closing bracket. -/
theorem legible_shapes {Stop : Text → Prop}
    (hstop : ∀ t, Stop t → Closes t ∧ ∃ c u, t = c :: u ∧ (c = ']' ∨ c = ' ')) {ps : List Shape}
    (hps : ∀ p ∈ ps, ∀ q, Legible (text hidden) Closes p q) (qs : List Shape) :
    Legible (fun ps => Text.commaSep (ps.map (text hidden))) Stop ps qs := by
  refine Text.legible_enumerated Closes.comma (fun t ht => ?_) (fun p hp q _ => hps p hp q) ?_
  · obtain ⟨hcloses, c, u, rfl, hc⟩ := hstop t ht
    refine ⟨hcloses, fun h => ?_⟩
    rcases hc with rfl | rfl <;> cases h
  · intro p _ r t ht
    obtain ⟨-, c, u, rfl, hc⟩ := hstop t ht
    exact p.text_append_ne hc u

theorem legible_of_parts {p : Shape} (ih : ∀ c ∈ p.parts, ∀ q, Legible (text hidden) Closes c q)
    (q : Shape) : Legible (text hidden) Closes p q := by
  intro r r' hr hr' h
  rw [text_eq, text_eq, List.append_assoc, List.append_assoc] at h
  obtain ⟨hlead, htail⟩ := Text.append_inj_of_ends isWordLetter_of_mem_lead
    isWordLetter_of_mem_lead (ends_tail p hr) (ends_tail q hr') h
  have hmark : p.mark = q.mark := by
    rw [← ofText_tail p hr, htail, ofText_tail q hr']
  cases p with
  | word w =>
    cases q with
    | word w' => exact ⟨congrArg word (Word.ext (String.toList_inj.1 hlead)), htail⟩
    | _ => cases hmark
  | quoted t =>
    cases q with
    | quoted t' =>
      obtain ⟨rfl, hrest⟩ := Text.legible_quoted hidden t t' r r' trivial trivial htail
      exact ⟨rfl, hrest⟩
    | _ => cases hmark
  | tagged tag content =>
    cases q with
    | tagged tag' content' =>
      cases Word.ext (String.toList_inj.1 hlead)
      simp only [tail, List.cons_append, List.append_assoc, List.nil_append, List.cons.injEq,
        true_and] at htail
      obtain ⟨rfl, hrest⟩ := ih content List.mem_cons_self content' _ _ (.paren r) (.paren r') htail
      exact ⟨rfl, (List.cons.inj hrest).2⟩
    | _ => cases hmark
  | field name content =>
    cases q with
    | field name' content' =>
      cases Word.ext (String.toList_inj.1 hlead)
      simp only [tail, List.cons_append, List.cons.injEq, true_and] at htail
      obtain ⟨rfl, hrest⟩ := ih content List.mem_cons_self content' r r' hr hr' htail
      exact ⟨rfl, hrest⟩
    | _ => cases hmark
  | record tag fields =>
    cases q with
    | record tag' fields' =>
      cases Word.ext (String.toList_inj.1 hlead)
      simp only [tail, List.cons_append, List.append_assoc, List.nil_append, List.cons.injEq,
        true_and] at htail
      have hfields : Legible (fun ps => Text.commaSep (ps.map (text hidden)))
          (fun t => ∃ u, t = ' ' :: '\x7d' :: u) fields fields' := by
        refine legible_shapes ?_ ih fields'
        rintro _ ⟨u, rfl⟩
        exact ⟨.curly u, _, _, rfl, Or.inr rfl⟩
      obtain ⟨rfl, hrest⟩ := hfields _ _ ⟨r, rfl⟩ ⟨r', rfl⟩ htail
      exact ⟨rfl, (List.cons.inj (List.cons.inj hrest).2).2⟩
    | _ => cases hmark
  | listed items =>
    cases q with
    | listed items' =>
      simp only [tail, List.cons_append, List.append_assoc, List.nil_append, List.cons.injEq,
        true_and] at htail
      have hitems : Legible (fun ps => Text.commaSep (ps.map (text hidden)))
          (fun t => ∃ u, t = ']' :: u) items items' := by
        refine legible_shapes ?_ ih items'
        rintro _ ⟨u, rfl⟩
        exact ⟨.square u, _, _, rfl, Or.inl rfl⟩
      obtain ⟨rfl, hrest⟩ := hitems _ _ ⟨r, rfl⟩ ⟨r', rfl⟩ htail
      exact ⟨rfl, (List.cons.inj hrest).2⟩
    | _ => cases hmark

/-- Two shapes with one text are one shape. -/
theorem text_injective (hidden : Char → Bool) : Function.Injective (text hidden) := by
  have hlegible (p : Shape) : ∀ q, Legible (text hidden) Closes p q :=
    part_induction (fun p ih => legible_of_parts ih) p
  intro p q h
  exact (hlegible p q [] [] .nothing .nothing (by rw [h])).1

end Shape

end Scriptlet
