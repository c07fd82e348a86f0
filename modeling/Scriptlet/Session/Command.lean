import Scriptlet.Session.Snapshot
import Scriptlet.Session.Term

/-!
# Commands and replies

A command names what it works on and where its result goes; a reply says what
came of it. Names of scopes, variables and registries are given as strings.
-/
namespace Scriptlet

inductive Command where
  | newScope (into : String)
  | enclose (into outer : String)
  | aliasScope (into scope : String)
  | outer (into scope : String)
  | encloseTimes (into scope : String) (times : Nat)
  | get (scope name : String) (into : Option String)
  | set (scope name : String) (value : Term)
  | containsLocal (scope name : String)
  | depth (scope : String)
  | localNames (scope : String)
  | scopeOutline (scope : String)
  | sameScope (left right : String)
  | dropScope (scope : String)
  | dropVar (name : String)
  | bind (into : String) (value : Term)
  | inspect (value : Term)
  | render (value : Term)
  | outline (value : Term)
  | equal (left right : Term)
  | shared (left right : Term)
  | unwrap (into : String) (value : Term)
  | unquote (into : String) (value : Term)
  | item (into : String) (value : Term) (position : Nat)
  | lookup (into : String) (value key : Term)
  | closureScope (into : String) (value : Term)
  | activate (into : String) (value : Term) (args : List Term)
  | sameClosure (left right : Term)
  | asFunction (into : String) (value : Term)
  | asMacro (into : String) (value : Term)
  | newRegistry (into : String) (channel : Channel)
  | shareRegistry (into registry : String)
  | builtin (into registry name : String)
  | register (registry scope : String)
  | call (into registry : String) (callee : Term) (args : List Term)
  | print (registry line : String)
  | held (registry : String)
  | clear (registry : String)

inductive Reply where
  | done
  | absent
  | flag (b : Bool)
  | count (n : Nat)
  | names (names : List String)
  | text (t : Text)
  | shown (t : Shown)
  | value (v : Snapshot)
  | found (v : Option Snapshot)
  | inspection (i : Inspection)
  | node (n : Node)
  | scope (names : List String) (depth : Nat)
  | activation (names : List String) (depth : Nat)
  | fault (v : Snapshot)
  | called (result : Snapshot) (printed : Shown)
  | printed (t : Text)
  | failed (f : Failure)

end Scriptlet
