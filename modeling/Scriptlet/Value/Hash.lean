import Scriptlet.Fnv
import Scriptlet.Value.Basic

/-!
# Hashes

Integers, booleans and strings can be keys of a hash. A hash made from a list
of pairs holds the last pair of each key, and the first key that cannot be
hashed spoils the whole list. Looking a key up in a value other than a hash
fails whatever the key is.
-/
namespace Scriptlet

namespace Value

def hashKey : Value → Except Unhashable HashKey
  | .int n => .ok ⟨.int, n.toUInt64⟩
  | .bool b => .ok ⟨.bool, if b then 1 else 0⟩
  | .str _ text => .ok ⟨.str, Fnv.ofString text⟩
  | v => .error ⟨v.kind⟩

def isHashable : Value → Bool
  | .int _ | .bool _ | .str _ _ => true
  | _ => false

theorem isHashable_iff_hashKey (v : Value) : v.isHashable = true ↔ ∃ k, v.hashKey = .ok k := by
  cases v <;> simp [isHashable, hashKey]

theorem hashKey_eq_error_iff (v : Value) (e : Unhashable) :
    v.hashKey = .error e ↔ v.isHashable = false ∧ e = ⟨v.kind⟩ := by
  cases v <;> simp [isHashable, hashKey, eq_comm]

end Value

/-- Adds the pairs one after the other to the entries already there. -/
def addPairs : List (Entry Value) → List (Value × Value) → Except Unhashable (List (Entry Value))
  | entries, [] => .ok entries
  | entries, (key, value) :: pairs =>
    match key.hashKey with
    | .ok k => addPairs (Keyed.put ⟨k, key, value⟩ entries) pairs
    | .error e => .error e

def entriesOfPairs (pairs : List (Value × Value)) : Except Unhashable (List (Entry Value)) :=
  addPairs [] pairs

def entriesOfKeyed (entries : List (Entry Value)) : List (Entry Value) :=
  entries.foldl (fun held e => Keyed.put e held) []

def Value.lookup (receiver key : Value) : Except LookupError (Option Value) :=
  match receiver.entries? with
  | none => .error (.notHash receiver.kind)
  | some entries =>
    match key.hashKey with
    | .error e => .error (.unhashable e)
    | .ok k => .ok ((Keyed.find? k entries).map Entry.value)

end Scriptlet
