import Scriptlet.Store
import Scriptlet.Tree.Draft

/-!
# Sessions

A session gives names to values, scopes and registries, in three separate name
spaces. A registry is known by the channel that its `puts` prints to, so
registries may share one. Whatever a failing action did up to its failure is
undone.
-/
namespace Scriptlet

inductive Failure where
  | unboundVar (name : String)
  | unboundScope (name : String)
  | unboundRegistry (name : String)
  | unhashable (cause : Unhashable)
  | notQuoted (cause : NotQuoted)
  | lookup (cause : LookupError)
  | notExpr
  | notBuiltin

namespace Failure

def message : Failure → String
  | .unboundVar name | .unboundScope name | .unboundRegistry name => name
  | .unhashable cause => cause.fault.message
  | .notQuoted cause => cause.fault.message
  | .lookup cause => cause.fault.message
  | .notExpr | .notBuiltin => ""

end Failure

structure Session where
  store : Store
  vars : List (Binding Value)
  scopes : List (Binding ScopeId)
  registries : List (Binding ChannelId)
  /-- Channels that were sent a text without a fixed order since they were last
  cleared. -/
  scrambled : List ChannelId

namespace Session

def empty : Session := ⟨Store.empty, [], [], [], []⟩

abbrev Action := StateT Session (Except Failure)

def fail {α : Type} (f : Failure) : Action α := fun _ => .error f

def ofOption {α : Type} (f : Failure) : Option α → Action α
  | some a => pure a
  | none => fail f

def read {α : Type} (f : Store → α) : Action α := fun s => .ok (f s.store, s)

def update {α : Type} (f : Store → α × Store) : Action α := fun s =>
  let (a, store) := f s.store
  .ok (a, { s with store })

def change (f : Store → Store) : Action Unit := update fun st => ((), f st)

def var? (s : Session) (name : String) : Option Value :=
  (Keyed.find? name s.vars).map Binding.value

def var (name : String) : Action Value := fun s =>
  ofOption (.unboundVar name) (s.var? name) s

def scope (name : String) : Action ScopeId := fun s =>
  ofOption (.unboundScope name) ((Keyed.find? name s.scopes).map Binding.value) s

def registry (name : String) : Action ChannelId := fun s =>
  ofOption (.unboundRegistry name) ((Keyed.find? name s.registries).map Binding.value) s

def bindVar (name : String) (v : Value) : Action Unit :=
  modify fun s => { s with vars := Keyed.put ⟨name, v⟩ s.vars }

def bindScope (name : String) (e : ScopeId) : Action Unit :=
  modify fun s => { s with scopes := Keyed.put ⟨name, e⟩ s.scopes }

def bindRegistry (name : String) (id : ChannelId) : Action Unit :=
  modify fun s => { s with registries := Keyed.put ⟨name, id⟩ s.registries }

/-- The expression quoted by the value of a variable. -/
def quotedExpr (s : Session) (name : String) : Except Failure Expr :=
  match s.var? name with
  | none => .error (.unboundVar name)
  | some v =>
    match v.quotedNode with
    | .error e => .error (.notQuoted e)
    | .ok node =>
      match node.expr? with
      | none => .error .notExpr
      | some e => .ok e

def fillStmts (body : List DraftStmt) : Action Block := fun s =>
  (Scriptlet.fillStmts s.quotedExpr body).map (·, s)

def fillNode (node : DraftNode) : Action Node := fun s =>
  (node.fill s.quotedExpr).map (·, s)

end Session

end Scriptlet
