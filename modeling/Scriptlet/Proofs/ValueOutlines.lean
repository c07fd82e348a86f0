import Scriptlet.Proofs.Host
import Scriptlet.Proofs.Shapes
import Scriptlet.Value.Outline

/-!
# Outlines separate values

Numbers, truth values, null, strings, errors and builtins, and what return wrappers and
arrays make of them, show all their contents in their outlines. The outline of such a
value is the text of a shape, in which every kind of value has its own tag. So two
outlines agree exactly when the contents do, and contents are what equality of these
values compares.
-/
namespace Scriptlet

namespace Value

/-- Built from numbers, truth values, null, strings, errors and builtins by return
wrappers and arrays. -/
inductive Transparent : Value → Prop where
  | int (n : Int64) : Transparent (.int n)
  | bool (b : Bool) : Transparent (.bool b)
  | null : Transparent .null
  | ret (s : Stamp) {inner : Value} (h : Transparent inner) : Transparent (.ret s inner)
  | error (s : Stamp) (message : String) : Transparent (.error s message)
  | str (s : Stamp) (text : String) : Transparent (.str s text)
  | array (s : Stamp) {items : List Value} (h : ∀ v ∈ items, Transparent v) :
      Transparent (.array s items)
  | builtin (b : Builtin) : Transparent (.builtin b)

end Value

def Kind.tag : Kind → String
  | .int => "Int"
  | .bool => "Bool"
  | .null => "Null"
  | .ret => "Return"
  | .error => "Error"
  | .str => "Str"
  | .array => "Array"
  | .hash => "Hash"
  | .function => "Function"
  | .builtin => "Builtin"
  | .quote => "Quote"
  | .macroFn => "Macro"

def Kind.word (k : Kind) : Word := ⟨k.tag, by cases k <;> decide⟩

def Builtin.word (b : Builtin) : Word := ⟨b.name, by cases b <;> decide⟩

mutual

/-- The shape of a transparent value; of any other value only the kind is shown. -/
def Value.shape : Value → Shape
  | .int n => .tagged Kind.int.word (.word (.ofInt n.toInt))
  | .bool b => .tagged Kind.bool.word (.word (.ofBool b))
  | .ret _ inner => .tagged Kind.ret.word inner.shape
  | .error _ message => .tagged Kind.error.word (.quoted message.toList)
  | .str _ text => .tagged Kind.str.word (.quoted text.toList)
  | .array _ items => .tagged Kind.array.word (.listed (itemShapes items))
  | .builtin b => .tagged Kind.builtin.word (.word b.word)
  | v => .word v.kind.word

def itemShapes : List Value → List Shape
  | [] => []
  | v :: vs => v.shape :: itemShapes vs

end

theorem itemShapes_eq_map (vs : List Value) : itemShapes vs = vs.map Value.shape := by
  induction vs with
  | nil => rfl
  | cons v vs ih => simp only [itemShapes, List.map_cons, ih]

theorem Kind.word_inj {a b : Kind} : a.word = b.word ↔ a = b := by
  cases a <;> cases b <;> simp [word, tag]

theorem Builtin.word_inj {a b : Builtin} : a.word = b.word ↔ a = b := by
  cases a <;> cases b <;> simp [word, name]

namespace Value

variable {v w : Value}

theorem Transparent.text_shape (h : v.Transparent) (hidden : Char → Bool) :
    v.shape.text hidden = v.outline hidden := by
  induction h with
  | int n => simp only [shape, outline, Shape.text, Kind.word, Kind.tag, Word.name_ofInt]
  | bool b => simp only [shape, outline, Shape.text, Kind.word, Kind.tag, Word.name_ofBool]
  | null => rfl
  | ret s _ ih => simp only [shape, outline, Shape.text, Kind.word, Kind.tag, ih]
  | error s message => rfl
  | str s text => rfl
  | array s _ ih =>
    simp only [shape, outline, Shape.text, Kind.word, Kind.tag, shapeTexts_eq_map, itemShapes_eq_map,
      itemOutlines_eq_map, List.map_map]
    rw [List.map_congr_left fun v hv => (Function.comp_apply ..).trans (ih v hv)]
  | builtin b => rfl

theorem map_shape_eq_iff {vs ws : List Value}
    (h : ∀ v ∈ vs, ∀ w ∈ ws, v.shape = w.shape ↔ v.alike w = true) :
    vs.map shape = ws.map shape ↔ List.Forall₂ (fun v w => v.alike w = true) vs ws := by
  induction vs generalizing ws with
  | nil => cases ws <;> simp
  | cons v vs ih =>
    cases ws with
    | nil => simp
    | cons w ws =>
      have hmore : ∀ v ∈ vs, ∀ w ∈ ws, v.shape = w.shape ↔ v.alike w = true := fun v hv w hw =>
        h v (List.mem_cons_of_mem _ hv) w (List.mem_cons_of_mem _ hw)
      rw [List.map_cons, List.map_cons, List.cons.injEq, ih hmore,
        h v List.mem_cons_self w List.mem_cons_self, List.forall₂_cons]

/-- Transparent values have one shape exactly when they are alike. -/
theorem Transparent.shape_eq_iff (hv : v.Transparent) (hw : w.Transparent) :
    v.shape = w.shape ↔ v.alike w = true := by
  induction hv generalizing w with
  | ret s _ ih =>
    cases hw with
    | ret t hw =>
      simp only [shape, Shape.tagged.injEq, true_and, alike]
      exact ih hw
    | _ => simp [shape, alike, Kind.word_inj]
  | array s _ ih =>
    cases hw with
    | array t hitems =>
      simp only [shape, itemShapes_eq_map, Shape.tagged.injEq, Shape.listed.injEq, true_and, alike,
        alikeItems_iff]
      exact map_shape_eq_iff fun v hv w hw => ih v hv (hitems w hw)
    | _ => simp [shape, alike, Kind.word_inj]
  | _ =>
    cases hw <;>
      simp [shape, alike, Kind.word_inj, Int64.toInt_inj, String.toList_inj, Builtin.word_inj]

end Value

namespace Host

/-- Among the transparent values that a host knows, the equal ones are those with the
same outline, whichever characters are written by code point in the strings. -/
theorem outline_eq_iff_same {h : Host} (hl : start.Leads h) (hidden : Char → Bool) {v w : Value}
    (hv : h.Knows v) (hw : h.Knows w) (htv : v.Transparent) (htw : w.Transparent) :
    v.outline hidden = w.outline hidden ↔ v.same w = true := by
  have hc : Coherent h.Knows := (hl.sound sound_start).coherent
  rw [hc.same_eq_alike hv hw, ← htv.shape_eq_iff htw, ← htv.text_shape, ← htw.text_shape]
  exact (Shape.text_injective hidden).eq_iff

/-- Two arrays of the same two strings, and an array of one string that reads like both
of them. -/
def imitation : List Request :=
  [.str "a", .str "b", .array [.str ⟨0⟩ "a", .str ⟨1⟩ "b"],
    .array [.str ⟨0⟩ "a", .str ⟨1⟩ "b"], .str "a\"), Str(\"b", .array [.str ⟨4⟩ "a\"), Str(\"b"]]

theorem imitation_is_told_apart :
    let h := start.serveAll imitation
    let v := Value.array ⟨2⟩ [.str ⟨0⟩ "a", .str ⟨1⟩ "b"]
    let w := Value.array ⟨3⟩ [.str ⟨0⟩ "a", .str ⟨1⟩ "b"]
    let u := Value.array ⟨5⟩ [.str ⟨4⟩ "a\"), Str(\"b"]
    start.Leads h ∧ (∀ x ∈ [v, w, u], h.Knows x ∧ x.Transparent) ∧
      v.outline Text.isHidden = w.outline Text.isHidden ∧
      v.outline Text.isHidden ≠ u.outline Text.isHidden := by
  intro h v w u
  have hl : start.Leads h := by
    refine ⟨imitation, ⟨allows_plain rfl rfl, allows_plain rfl rfl, ?_, ?_, allows_plain rfl rfl, ?_,
      trivial⟩, rfl⟩
    · exact allows_of_scopes_nil rfl fun x hx => .made hx
    · exact allows_of_scopes_nil rfl fun x hx => .made (List.mem_append_left [v] hx)
    · exact allows_of_scopes_nil rfl fun x hx => .made (List.mem_append_right _ hx)
  have hmade : h.made = [.str ⟨0⟩ "a", .str ⟨1⟩ "b", v, w, .str ⟨4⟩ "a\"), Str(\"b", u] := rfl
  have hknown : ∀ x ∈ [v, w, u], h.Knows x := fun x hx =>
    .made (hmade ▸ List.Sublist.subset (by simp) hx)
  have hplain : ∀ x ∈ [v, w, u], x.Transparent := by
    have htwo : ∀ x ∈ [Value.str ⟨0⟩ "a", .str ⟨1⟩ "b"], x.Transparent :=
      List.forall_mem_cons.2 ⟨.str .., List.forall_mem_singleton.2 (.str ..)⟩
    have hone : ∀ x ∈ [Value.str ⟨4⟩ "a\"), Str(\"b"], x.Transparent :=
      List.forall_mem_singleton.2 (.str ..)
    simp only [List.forall_mem_cons]
    exact ⟨.array _ htwo, .array _ htwo, .array _ hone, List.forall_mem_nil _⟩
  have hvw := outline_eq_iff_same hl Text.isHidden (hknown v (by simp)) (hknown w (by simp))
    (hplain v (by simp)) (hplain w (by simp))
  have hvu := outline_eq_iff_same hl Text.isHidden (hknown v (by simp)) (hknown u (by simp))
    (hplain v (by simp)) (hplain u (by simp))
  refine ⟨hl, fun x hx => ⟨hknown x hx, hplain x hx⟩, hvw.2 (by decide), ?_⟩
  rw [Ne, hvu]
  decide

end Host

end Scriptlet
