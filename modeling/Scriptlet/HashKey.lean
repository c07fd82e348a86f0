import Scriptlet.Keyed
import Scriptlet.Kind
import Scriptlet.Text.Layout

/-!
# Hash keys

A hash is indexed by the kind of a key together with a 64-bit word drawn from
its content. An entry also keeps the key it was stored with.
-/
namespace Scriptlet

structure HashKey where
  kind : Kind
  word : UInt64
deriving DecidableEq

namespace HashKey

def outline (key : HashKey) : Text :=
  Text.record "HashKey"
    [Text.field "kind" key.kind.name.toList, Text.field "value" (Text.ofNat key.word.toNat)]

/-- Keys are listed by the text of their kind, then by their word. -/
def le (a b : HashKey) : Bool :=
  decide (a.kind.text < b.kind.text) || (decide (a.kind = b.kind) && decide (a.word ≤ b.word))

end HashKey

structure Entry (α : Type) where
  key : HashKey
  stored : α
  value : α

instance (α : Type) : Keyed (Entry α) HashKey := ⟨Entry.key⟩

@[simp]
theorem Entry.keyed_key {α : Type} (e : Entry α) : Keyed.key e = e.key := rfl

end Scriptlet
