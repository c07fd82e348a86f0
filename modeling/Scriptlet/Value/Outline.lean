import Scriptlet.Value.Render

/-!
# Outlines of values

The outline of a value names its constructor, so that values with the same
text can be told apart. Texts of strings and errors are quoted; a quoted node
shows its source.
-/
namespace Scriptlet

mutual

def Value.outline (hidden : Char → Bool) : Value → Text
  | .int n => Text.tagged "Int" (Text.ofInt n.toInt)
  | .bool b => Text.tagged "Bool" (Text.ofBool b)
  | .null => "Null".toList
  | .ret _ inner => Text.tagged "Return" (inner.outline hidden)
  | .error _ message => Text.tagged "Error" (Text.quoted hidden message.toList)
  | .str _ text => Text.tagged "Str" (Text.quoted hidden text.toList)
  | .array _ items => Text.tagged "Array" (Text.listed (itemOutlines hidden items))
  | .hash _ entries => Text.tagged "Hash" (Text.braced (entryOutlines hidden entries))
  | .function c => Text.tagged "Function" (c.outline hidden)
  | .builtin b => Text.tagged "Builtin" b.name.toList
  | .macroFn c => Text.tagged "Macro" (c.outline hidden)
  | .quote _ node => Text.tagged "Quote" node.source

def itemOutlines (hidden : Char → Bool) : List Value → List Text
  | [] => []
  | v :: vs => v.outline hidden :: itemOutlines hidden vs

def entryOutlines (hidden : Char → Bool) : List (Entry Value) → List Text
  | [] => []
  | ⟨_, stored, value⟩ :: es =>
    (stored.outline hidden ++ ':' :: ' ' :: value.outline hidden) :: entryOutlines hidden es

end

theorem itemOutlines_eq_map (hidden : Char → Bool) (vs : List Value) :
    itemOutlines hidden vs = vs.map (Value.outline hidden) := by
  induction vs with
  | nil => rfl
  | cons v vs ih => simp only [itemOutlines, List.map_cons, ih]

def Value.shownOutline (hidden : Char → Bool) (v : Value) : Shown :=
  Shown.ofText v.unordered (v.outline hidden)

end Scriptlet
