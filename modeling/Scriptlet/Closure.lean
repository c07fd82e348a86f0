import Scriptlet.Scopes.Basic
import Scriptlet.Text.Layout
import Scriptlet.Text.Quoted
import Scriptlet.Tree.Outline
import Scriptlet.Tree.Source

/-!
# Closures

Evaluating a function or macro literal makes a closure: its parameters, its
body and the scope it was evaluated in. A stamp, drawn anew each time, tells
apart what was made at different times even where all parts agree. Two closures
are the same when they were made together and captured the same scope; the
parameters do not count.
-/
namespace Scriptlet

structure Stamp where
  index : Nat
deriving DecidableEq

structure Closure where
  stamp : Stamp
  params : List String
  body : Block
  scope : ScopeId

namespace Closure

def same (c d : Closure) : Bool := c.stamp == d.stamp && c.scope == d.scope

def render (c : Closure) : Text :=
  "fn(".toList ++ Text.commaSep (c.params.map String.toList) ++ ") \x7b\n".toList ++
    blockSource c.body ++ "\n\x7d".toList

/-- The captured scope is left out, since it may hold the closure. -/
def outline (hidden : Char → Bool) (c : Closure) : Text :=
  Text.record "Closure"
    [Text.field "params" (paramsOutline hidden c.params),
     Text.field "body" (Text.quoted hidden (blockSource c.body)), "..".toList]

@[simp]
theorem same_self (c : Closure) : c.same c = true := by
  simp [same]

theorem same_iff (c d : Closure) : c.same d = true ↔ c.stamp = d.stamp ∧ c.scope = d.scope := by
  simp [same]

end Closure

end Scriptlet
