import Mathlib.Logic.Relation
import Scriptlet.Value.Basic

/-!
# Parts of values

A return wrapper, an array and a hash have parts, which are values again. A
value has finitely many layers of parts, so statements about values can be
proved from statements about their parts. Each value with a stamp is the stamp
together with a payload.
-/
namespace Scriptlet

namespace Value

/-- The first value is what the second one wraps, one of its items, or a stored
key or a value of one of its entries. -/
inductive Part : Value → Value → Prop where
  | inner (s : Stamp) (v : Value) : Part v (.ret s v)
  | item (s : Stamp) {v : Value} {vs : List Value} (hv : v ∈ vs) : Part v (.array s vs)
  | stored (s : Stamp) {e : Entry Value} {es : List (Entry Value)} (he : e ∈ es) :
      Part e.stored (.hash s es)
  | value (s : Stamp) {e : Entry Value} {es : List (Entry Value)} (he : e ∈ es) :
      Part e.value (.hash s es)

theorem sizeOf_lt_of_mem_entries {e : Entry Value} {es : List (Entry Value)} (he : e ∈ es) :
    sizeOf e.stored < sizeOf es ∧ sizeOf e.value < sizeOf es := by
  have hes := List.sizeOf_lt_of_mem he
  obtain ⟨key, stored, value⟩ := e
  simp only [Entry.mk.sizeOf_spec] at hes ⊢
  omega

theorem Part.sizeOf_lt {v w : Value} (h : v.Part w) : sizeOf v < sizeOf w := by
  cases h with
  | inner s => simp only [ret.sizeOf_spec]; omega
  | item s hv =>
    have := List.sizeOf_lt_of_mem hv
    simp only [array.sizeOf_spec]
    omega
  | stored s he =>
    have := (sizeOf_lt_of_mem_entries he).1
    simp only [hash.sizeOf_spec]
    omega
  | value s he =>
    have := (sizeOf_lt_of_mem_entries he).2
    simp only [hash.sizeOf_spec]
    omega

/-- What holds of a value as soon as it holds of all its parts holds of every value. -/
theorem part_induction {motive : Value → Prop}
    (step : ∀ v, (∀ w, w.Part v → motive w) → motive v) (v : Value) : motive v :=
  (measure sizeOf).wf.induction v fun v ih => step v fun w hw => ih w hw.sizeOf_lt

/-- The first value is the second one or lies in it at any depth. -/
def Within : Value → Value → Prop := Relation.ReflTransGen Part

theorem Within.self (v : Value) : v.Within v := Relation.ReflTransGen.refl

theorem Within.of_part {u v w : Value} (hu : u.Within v) (hv : v.Part w) : u.Within w :=
  Relation.ReflTransGen.tail hu hv

theorem Within.closed {P : Value → Prop} (part : ∀ {v w : Value}, w.Part v → P v → P w)
    {v w : Value} (h : w.Within v) (hv : P v) : P w := by
  induction h using Relation.ReflTransGen.head_induction_on with
  | refl => exact hv
  | head hp _ ih => exact part hp ih

end Value

/-- What a stamp stands for. Strings and errors both hold a text, functions and
macros both hold a closure. -/
inductive Payload where
  | value (inner : Value)
  | text (s : String)
  | items (items : List Value)
  | entries (entries : List (Entry Value))
  | closure (c : Closure)
  | node (n : Node)

namespace Value

def cell? : Value → Option (Stamp × Payload)
  | .ret s inner => some (s, .value inner)
  | .error s message => some (s, .text message)
  | .str s text => some (s, .text text)
  | .array s items => some (s, .items items)
  | .hash s entries => some (s, .entries entries)
  | .function c => some (c.stamp, .closure c)
  | .macroFn c => some (c.stamp, .closure c)
  | .quote s node => some (s, .node node)
  | .int _ | .bool _ | .null | .builtin _ => none

theorem Part.of_cell_eq {u v w : Value} (h : u.Part v) (hc : v.cell? = w.cell?) : u.Part w := by
  cases h with
  | inner s => cases w <;> cases hc; exact .inner s u
  | item s hv => cases w <;> cases hc; exact .item s hv
  | stored s he => cases w <;> cases hc; exact .stored s he
  | value s he => cases w <;> cases hc; exact .value s he

theorem closure?_eq_some_iff (v : Value) (c : Closure) :
    v.closure? = some c ↔ v.cell? = some (c.stamp, .closure c) := by
  have hd (d : Closure) : d = c ↔ d.stamp = c.stamp ∧ d = c :=
    ⟨fun hdc => ⟨congrArg _ hdc, hdc⟩, And.right⟩
  cases v <;> simp [Value.closure?, Value.cell?, ← hd]

end Value

end Scriptlet
