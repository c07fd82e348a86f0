import Scriptlet.Text.Shown
import Scriptlet.Value.Basic

/-!
# Text of values

The text that `puts` prints. A return wrapper prints as what it wraps, a
string as its characters. The entries of a hash print in whatever order they
stand in, so a value that shows two of them has no fixed text.
-/
namespace Scriptlet

mutual

def Value.render : Value → Text
  | .int n => Text.ofInt n.toInt
  | .bool b => Text.ofBool b
  | .null => "null".toList
  | .ret _ inner => inner.render
  | .error _ message => "ERROR: ".toList ++ message.toList
  | .str _ text => text.toList
  | .array _ items => '[' :: Text.commaSep (itemTexts items) ++ [']']
  | .hash _ entries => '\x7b' :: Text.commaSep (entryTexts entries) ++ ['\x7d']
  | .function c => c.render
  | .builtin _ => "builtin function".toList
  | .macroFn c => c.render
  | .quote _ node => node.quotation

def itemTexts : List Value → List Text
  | [] => []
  | v :: vs => v.render :: itemTexts vs

def entryTexts : List (Entry Value) → List Text
  | [] => []
  | ⟨_, stored, value⟩ :: es => (stored.render ++ ':' :: ' ' :: value.render) :: entryTexts es

end

theorem itemTexts_eq_map (vs : List Value) : itemTexts vs = vs.map Value.render := by
  induction vs with
  | nil => rfl
  | cons v vs ih => simp only [itemTexts, List.map_cons, ih]

theorem entryTexts_eq_map (es : List (Entry Value)) :
    entryTexts es = es.map fun e => e.stored.render ++ ':' :: ' ' :: e.value.render := by
  induction es with
  | nil => rfl
  | cons e es ih => simp only [entryTexts, List.map_cons, ih]

namespace Value

theorem render_ret (s : Stamp) (v : Value) : (ret s v).render = v.render := rfl

theorem render_array (s : Stamp) (vs : List Value) :
    (array s vs).render = '[' :: Text.commaSep (vs.map render) ++ [']'] := by
  rw [← itemTexts_eq_map]
  rfl

theorem render_hash (s : Stamp) (es : List (Entry Value)) :
    (hash s es).render = '\x7b' :: Text.commaSep
      (es.map fun e => e.stored.render ++ ':' :: ' ' :: e.value.render) ++ ['\x7d'] := by
  rw [← entryTexts_eq_map]
  rfl

end Value

mutual

/-- Whether the text of a value depends on the order of the entries of a hash. -/
def Value.unordered : Value → Bool
  | .ret _ inner => inner.unordered
  | .array _ items => anyUnordered items
  | .hash _ entries => decide (1 < entries.length) || anyEntryUnordered entries
  | _ => false

def anyUnordered : List Value → Bool
  | [] => false
  | v :: vs => v.unordered || anyUnordered vs

def anyEntryUnordered : List (Entry Value) → Bool
  | [] => false
  | ⟨_, stored, value⟩ :: es => stored.unordered || value.unordered || anyEntryUnordered es

end

def Value.shown (v : Value) : Shown := Shown.ofText v.unordered v.render

end Scriptlet
