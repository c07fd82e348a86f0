import Scriptlet.Value.Basic

/-!
# Equality of values

Data is equal when its contents are, callables and quotes when they are one
creation. Two payloads with one stamp are taken to be equal without a look at
their contents. Hashes are compared by their keys and the values under them;
the keys that the entries were stored with play no part.
-/
namespace Scriptlet

mutual

def Value.same : Value → Value → Bool
  | .int m, .int n => m == n
  | .bool a, .bool b => a == b
  | .null, .null => true
  | .ret s v, .ret t w => s == t || v.same w
  | .error s a, .error t b => s == t || a == b
  | .str s a, .str t b => s == t || a == b
  | .array s xs, .array t ys => s == t || sameItems xs ys
  | .hash _ es, .hash _ fs => es.length == fs.length && entriesWithin es fs
  | .function c, .function d => c.same d
  | .builtin a, .builtin b => a == b
  | .macroFn c, .macroFn d => c.same d
  | .quote s _, .quote t _ => s == t
  | _, _ => false

def sameItems : List Value → List Value → Bool
  | [], [] => true
  | v :: vs, w :: ws => v.same w && sameItems vs ws
  | _, _ => false

/-- Every entry has a counterpart under its key with an equal value. -/
def entriesWithin : List (Entry Value) → List (Entry Value) → Bool
  | [], _ => true
  | ⟨key, _, value⟩ :: es, fs =>
    (match Keyed.find? key fs with
      | some f => value.same f.value
      | none => false) && entriesWithin es fs

end

/-- Which values equal which, row by row. -/
def equalityTable (vs : List Value) : List (List Bool) := vs.map fun v => vs.map v.same

end Scriptlet
