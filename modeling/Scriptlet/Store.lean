import Scriptlet.Builtin.Answer
import Scriptlet.Console
import Scriptlet.Value.Hash
import Scriptlet.Value.Render

/-!
# The store of a run

A run keeps the number of stamps drawn so far, the table of scopes and the
output channels. Each way of making a value draws one stamp, so no two
creations share one. A closure is called by binding its parameters in a new
scope inside the one it captured.
-/
namespace Scriptlet

structure Store where
  stamps : Nat
  scopes : Scopes Value
  console : Console

namespace Store

def empty : Store := ⟨0, Scopes.empty, Console.empty⟩

def next (st : Store) : Stamp := ⟨st.stamps⟩

def tick (st : Store) : Store := { st with stamps := st.stamps + 1 }

def newReturn (st : Store) (inner : Value) : Value × Store := (.ret st.next inner, st.tick)

def newError (st : Store) (message : String) : Value × Store := (.error st.next message, st.tick)

def newFault (st : Store) (f : Fault) : Value × Store := st.newError f.message

def newString (st : Store) (text : String) : Value × Store := (.str st.next text, st.tick)

def newArray (st : Store) (items : List Value) : Value × Store := (.array st.next items, st.tick)

def newHash (st : Store) (pairs : List (Value × Value)) : Except Unhashable (Value × Store) :=
  match entriesOfPairs pairs with
  | .ok entries => .ok (.hash st.next entries, st.tick)
  | .error e => .error e

/-- The keys are given and need not be those of the stored keys. -/
def newKeyedHash (st : Store) (entries : List (Entry Value)) : Value × Store :=
  (.hash st.next (entriesOfKeyed entries), st.tick)

def newClosure (st : Store) (params : List String) (body : Block) (scope : ScopeId) :
    Closure × Store :=
  (⟨st.next, params, body, scope⟩, st.tick)

def newQuote (st : Store) (node : Node) : Value × Store := (.quote st.next node, st.tick)

/-- A new value with the payload of an integer, boolean, string or array. -/
def renew? (st : Store) : Value → Option (Value × Store)
  | .int n => some (.int n, st)
  | .bool b => some (.bool b, st)
  | .str _ text => some (st.newString text)
  | .array _ items => some (st.newArray items)
  | _ => none

def newScope (st : Store) : ScopeId × Store :=
  let (e, scopes) := st.scopes.create
  (e, { st with scopes })

def enclose (st : Store) (outer : ScopeId) : ScopeId × Store :=
  let (e, scopes) := st.scopes.enclose outer
  (e, { st with scopes })

def encloseTimes (st : Store) (outer : ScopeId) (n : Nat) : ScopeId × Store :=
  let (e, scopes) := st.scopes.encloseTimes outer n
  (e, { st with scopes })

def set (st : Store) (e : ScopeId) (name : String) (value : Value) : Store :=
  { st with scopes := st.scopes.set e name value }

/-- The scope in which the body of a closure runs on the given arguments, or the
error value if there are too many or too few of them. -/
def activate (st : Store) (c : Closure) (args : List Value) : Except Value ScopeId × Store :=
  if args.length = c.params.length then
    let (e, scopes) := st.scopes.enclose c.scope
    (.ok e, { st with scopes := scopes.setAll e (c.params.zipWith Binding.mk args) })
  else Prod.map .error id (st.newFault (.paramCount c.params.length args.length))

/-- Binds every builtin by its name. -/
def register (st : Store) (e : ScopeId) : Store :=
  { st with scopes := st.scopes.setAll e (Builtin.all.map fun b => ⟨b.name, .builtin b⟩) }

def attach (st : Store) (channel : Channel) : ChannelId × Store :=
  let (id, console) := st.console.attach channel
  (id, { st with console })

def print (st : Store) (id : ChannelId) (line : Text) : Store :=
  { st with console := st.console.print id line }

def clear (st : Store) (id : ChannelId) : Store :=
  { st with console := st.console.clear id }

def newAnswer (st : Store) : Answer → Value × Store
  | .value v => (v, st)
  | .array items => st.newArray items
  | .fault f => st.newFault f

/-- Calls a builtin, which prints to the given channel. -/
def call (st : Store) (id : ChannelId) (b : Builtin) (args : List Value) : Value × Store :=
  ((b.lines args).foldl (fun st line => st.print id line) st).newAnswer (b.answer args)

end Store

end Scriptlet
