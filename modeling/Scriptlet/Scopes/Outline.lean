import Scriptlet.Scopes.Basic
import Scriptlet.Text.Layout
import Scriptlet.Text.Quoted

/-!
# Outlines of scopes

The outline of a scope shows the names it binds itself and how deep it lies.
The bound values are left out, since they may lead back to the scope.
-/
namespace Scriptlet.Scopes

def outline {α : Type} (hidden : Char → Bool) (t : Scopes α) (e : ScopeId) : Text :=
  Text.record "Environment"
    [Text.field "bindings"
      (Text.listed ((t.localNames e).map fun name => Text.quoted hidden name.toList)),
     Text.field "depth" (Text.ofNat (t.depth e))]

end Scriptlet.Scopes
