import Scriptlet.Session.Basic

/-!
# Terms

A term tells how to make a value: from its parts, by naming a variable of the
session, or by one of a few shorthands for large values. Parts are made from
left to right. Each part is a new creation, except that a variable gives the
value it holds.
-/
namespace Scriptlet

inductive Wrapper where
  | array
  | ret
  | hash

inductive Term where
  | int (n : Int64)
  | bool (b : Bool)
  | null
  | ret (inner : Term)
  | error (message : String)
  | str (text : String)
  | array (items : List Term)
  | hash (pairs : List (Term × Term))
  | keyedHash (entries : List (Entry Term))
  | function (params : List String) (body : List DraftStmt) (scope : Option String)
  | macroFn (params : List String) (body : List DraftStmt) (scope : Option String)
  | builtin (b : Builtin)
  | quote (node : DraftNode)
  | var (name : String)
  | repeated (text : String) (times : Nat)
  | range (low high : Int64)
  | nested (wrapper : Wrapper) (times : Nat) (inner : Term)

/-- The integers from `low` up to but not including `high`. -/
def integersFrom (low high : Int64) : List Value :=
  (List.range (high.toInt - low.toInt).toNat).map fun (i : Nat) => .int (Int64.ofInt (low.toInt + i))

namespace Store

def wrap (st : Store) (wrapper : Wrapper) (v : Value) : Value × Store :=
  match wrapper with
  | .array => st.newArray [v]
  | .ret => st.newReturn v
  | .hash => st.newKeyedHash [⟨⟨.int, 0⟩, .int 0, v⟩]

def wrapTimes (wrapper : Wrapper) : Nat → Value → Store → Value × Store
  | 0, v, st => (v, st)
  | n + 1, v, st => let (v, st) := st.wrap wrapper v; wrapTimes wrapper n v st

end Store

namespace Session

/-- A closure over the named scope, or over a new one. -/
def newClosure (params : List String) (body : List DraftStmt) (scopeName : Option String) :
    Action Closure := do
  let body ← fillStmts body
  let e ← match scopeName with
    | some name => scope name
    | none => update Store.newScope
  update fun st => st.newClosure params body e

def newHash (pairs : List (Value × Value)) : Action Value := fun s =>
  match s.store.newHash pairs with
  | .ok (v, store) => .ok (v, { s with store })
  | .error e => .error (.unhashable e)

end Session

open Session in
mutual

def Term.make : Term → Action Value
  | .int n => pure (.int n)
  | .bool b => pure (.bool b)
  | .null => pure .null
  | .ret inner => do
    let v ← inner.make
    update fun st => st.newReturn v
  | .error message => update fun st => st.newError message
  | .str text => update fun st => st.newString text
  | .array items => do
    let vs ← makeAll items
    update fun st => st.newArray vs
  | .hash pairs => do
    let pairs ← makePairs pairs
    newHash pairs
  | .keyedHash entries => do
    let entries ← makeEntries entries
    update fun st => st.newKeyedHash entries
  | .function params body scopeName => do
    let c ← newClosure params body scopeName
    return .function c
  | .macroFn params body scopeName => do
    let c ← newClosure params body scopeName
    return .macroFn c
  | .builtin b => pure (.builtin b)
  | .quote node => do
    let node ← fillNode node
    update fun st => st.newQuote node
  | .var name => var name
  | .repeated text times =>
    update fun st => st.newString (String.join (List.replicate times text))
  | .range low high => update fun st => st.newArray (integersFrom low high)
  | .nested wrapper times inner => do
    let v ← inner.make
    update (Store.wrapTimes wrapper times v)

def makeAll : List Term → Action (List Value)
  | [] => pure []
  | t :: ts => do
    let v ← t.make
    let vs ← makeAll ts
    return v :: vs

def makePairs : List (Term × Term) → Action (List (Value × Value))
  | [] => pure []
  | (key, value) :: pairs => do
    let k ← key.make
    let v ← value.make
    let rest ← makePairs pairs
    return (k, v) :: rest

def makeEntries : List (Entry Term) → Action (List (Entry Value))
  | [] => pure []
  | ⟨key, stored, value⟩ :: es => do
    let k ← stored.make
    let v ← value.make
    let rest ← makeEntries es
    return ⟨key, k, v⟩ :: rest

end

end Scriptlet
