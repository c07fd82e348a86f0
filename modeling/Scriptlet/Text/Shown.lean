import Scriptlet.Text.Basic

/-!
# Texts up to the order of their characters

The entries of a hash have no order of their own, so a text that shows more
than one of them is fixed only up to a rearrangement. Such a text is given by
its characters in increasing order.
-/
namespace Scriptlet

inductive Shown where
  | exact (text : Text)
  | sorted (characters : Text)

namespace Shown

def ofText (unordered : Bool) (t : Text) : Shown :=
  if unordered then .sorted (t.mergeSort fun a b => decide (a ≤ b)) else .exact t

@[simp]
theorem ofText_false (t : Text) : ofText false t = .exact t := rfl

end Shown

end Scriptlet
