import Scriptlet.Store

/-!
# Snapshots

A snapshot is a value as it stands at one moment, without stamps: a closure
shows the names bound in its scope and how deep the scope lies, and the entries
of a hash are listed in the order of their keys.
-/
namespace Scriptlet

structure ClosureView where
  params : List String
  body : Text
  names : List String
  depth : Nat

def Closure.view (t : Scopes Value) (c : Closure) : ClosureView :=
  ⟨c.params, blockSource c.body, t.localNames c.scope, t.depth c.scope⟩

inductive Snapshot where
  | int (n : Int64)
  | bool (b : Bool)
  | null
  | ret (inner : Snapshot)
  | error (message : String)
  | str (text : String)
  | array (items : List Snapshot)
  | hash (entries : List (Entry Snapshot))
  | function (closure : ClosureView)
  | builtin (b : Builtin)
  | macroFn (closure : ClosureView)
  | quote (node : Node)

mutual

def Value.snapshot (t : Scopes Value) : Value → Snapshot
  | .int n => .int n
  | .bool b => .bool b
  | .null => .null
  | .ret _ inner => .ret (inner.snapshot t)
  | .error _ message => .error message
  | .str _ text => .str text
  | .array _ items => .array (itemSnapshots t items)
  | .hash _ entries => .hash ((entrySnapshots t entries).mergeSort fun a b => a.key.le b.key)
  | .function c => .function (c.view t)
  | .builtin b => .builtin b
  | .macroFn c => .macroFn (c.view t)
  | .quote _ node => .quote node

def itemSnapshots (t : Scopes Value) : List Value → List Snapshot
  | [] => []
  | v :: vs => v.snapshot t :: itemSnapshots t vs

def entrySnapshots (t : Scopes Value) : List (Entry Value) → List (Entry Snapshot)
  | [] => []
  | ⟨key, stored, value⟩ :: es =>
    ⟨key, stored.snapshot t, value.snapshot t⟩ :: entrySnapshots t es

end

/-- All that can be asked of a value, put together. -/
structure Inspection where
  kind : Kind
  text : Shown
  value : Snapshot
  truthy : Bool
  isError : Bool
  isNull : Bool
  isControl : Bool
  isHashable : Bool
  hashKey : Except Unhashable HashKey
  errorMessage : Option String
  int : Option Int64
  bool : Option Bool
  str : Option String
  arraySize : Option Nat
  hashSize : Option Nat
  closure : Option Closure
  unwrapped : Snapshot
  quoted : Except NotQuoted Node

def Value.inspect (t : Scopes Value) (v : Value) : Inspection where
  kind := v.kind
  text := v.shown
  value := v.snapshot t
  truthy := v.truthy
  isError := v.isError
  isNull := v.isNull
  isControl := v.isControl
  isHashable := v.isHashable
  hashKey := v.hashKey
  errorMessage := v.errorMessage?
  int := v.int?
  bool := v.bool?
  str := v.str?
  arraySize := v.items?.map List.length
  hashSize := v.entries?.map List.length
  closure := v.closure?
  unwrapped := v.unwrapped.snapshot t
  quoted := v.quotedNode

end Scriptlet
