import Scriptlet.Scopes.Outline
import Scriptlet.Session.Command
import Scriptlet.Value.Equality
import Scriptlet.Value.Outline

/-!
# Running commands

Each command makes the values of its terms, from left to right, before it looks
at the scopes and registries it names. What is called has to be a builtin before
its arguments are made. A command that fails leaves the session as it was, and
the next one goes on from there.
-/
namespace Scriptlet

namespace Session

def snapshot (v : Value) : Action Snapshot := read fun st => v.snapshot st.scopes

/-- Keeps a value under a name and shows it. -/
def keep (name : String) (v : Value) : Action Reply := do
  bindVar name v
  return .value (← snapshot v)

def keep? (name : String) : Option Value → Action Reply
  | some v => keep name v
  | none => pure .absent

/-- The names a scope binds itself, and its depth. -/
def scopeView (e : ScopeId) : Action (List String × Nat) :=
  read fun st => (st.scopes.localNames e, st.scopes.depth e)

/-- Prints through a channel and gives what reached standard output. -/
def echoed {α : Type} (act : Action α) : Action (α × Text) := do
  let before ← read Store.console
  let a ← act
  let after ← read Store.console
  return (a, after.standardSince before)

/-- Calls a builtin. A `puts` of a text without a fixed order leaves its mark on
the channel. -/
def callBuiltin (id : ChannelId) (b : Builtin) (args : List Value) : Action (Value × Shown) := do
  let scrambles := b == .puts && anyUnordered args
  if scrambles then modify fun s => { s with scrambled := id :: s.scrambled }
  let (v, printed) ← echoed (update fun st => st.call id b args)
  return (v, Shown.ofText scrambles printed)

def held (id : ChannelId) : Action Shown := fun s =>
  .ok (Shown.ofText (s.scrambled.contains id) (s.store.console.held id), s)

def clear (id : ChannelId) : Action Unit := do
  change fun st => st.clear id
  modify fun s => { s with scrambled := s.scrambled.filter (· ≠ id) }

def step : Command → Action Reply
  | .newScope into => do
    bindScope into (← update Store.newScope)
    return .done
  | .enclose into name => do
    let o ← scope name
    let e ← update fun st => st.enclose o
    bindScope into e
    return .count (← read fun st => st.scopes.depth e)
  | .aliasScope into name => do
    bindScope into (← scope name)
    return .done
  | .outer into name => do
    let e ← scope name
    match ← read fun st => st.scopes.outer? e with
    | some o =>
      bindScope into o
      return .flag true
    | none => return .flag false
  | .encloseTimes into name times => do
    let o ← scope name
    let e ← update fun st => st.encloseTimes o times
    bindScope into e
    return .count (← read fun st => st.scopes.depth e)
  | .get scopeName name into => do
    let e ← scope scopeName
    match ← read fun st => st.scopes.get? e name, into with
    | some v, some var => keep var v
    | some v, none => return .value (← snapshot v)
    | none, _ => return .absent
  | .set scopeName name value => do
    let v ← value.make
    let e ← scope scopeName
    change fun st => st.set e name v
    return .value (← snapshot v)
  | .containsLocal scopeName name => do
    let e ← scope scopeName
    return .flag (← read fun st => st.scopes.containsLocal e name)
  | .depth scopeName => do
    let e ← scope scopeName
    return .count (← read fun st => st.scopes.depth e)
  | .localNames scopeName => do
    let e ← scope scopeName
    return .names (← read fun st => st.scopes.localNames e)
  | .scopeOutline scopeName => do
    let e ← scope scopeName
    return .text (← read fun st => st.scopes.outline Text.isHidden e)
  | .sameScope left right => do
    let e ← scope left
    let f ← scope right
    return .flag (e == f)
  | .dropScope name => do
    let known := (Keyed.find? name (← get).scopes).isSome
    modify fun s => { s with scopes := Keyed.erase name s.scopes }
    return .flag known
  | .dropVar name => do
    let known := (Keyed.find? name (← get).vars).isSome
    modify fun s => { s with vars := Keyed.erase name s.vars }
    return .flag known
  | .bind into value => do keep into (← value.make)
  | .inspect value => do
    let v ← value.make
    return .inspection (← read fun st => v.inspect st.scopes)
  | .render value => do return .shown (← value.make).shown
  | .outline value => do return .shown ((← value.make).shownOutline Text.isHidden)
  | .equal left right => do
    let v ← left.make
    let w ← right.make
    return .flag (v.same w)
  | .shared left right => do
    let v ← left.make
    let w ← right.make
    return match v.sharedWith? w with
      | some b => .flag b
      | none => .absent
  | .unwrap into value => do keep into (← value.make).unwrapped
  | .unquote into value => do
    let v ← value.make
    match v.quotedNode with
    | .ok node =>
      bindVar into (← update fun st => st.newQuote node)
      return .node node
    | .error e => fail (.notQuoted e)
  | .item into value position => do
    let v ← value.make
    keep? into (v.items?.bind (·[position]?))
  | .lookup into value key => do
    let v ← value.make
    let k ← key.make
    match v.lookup k with
    | .ok (some w) =>
      bindVar into w
      return .found (some (← snapshot w))
    | .ok none => return .found none
    | .error e => fail (.lookup e)
  | .closureScope into value => do
    let v ← value.make
    match v.closure? with
    | some c =>
      bindScope into c.scope
      let (names, depth) ← scopeView c.scope
      return .scope names depth
    | none => return .absent
  | .activate into value args => do
    let v ← value.make
    let args ← makeAll args
    match v.closure? with
    | some c =>
      match ← update fun st => st.activate c args with
      | .ok e =>
        bindScope into e
        let (names, depth) ← scopeView e
        return .activation names depth
      | .error w => return .fault (← snapshot w)
    | none => return .absent
  | .sameClosure left right => do
    let v ← left.make
    let w ← right.make
    return match v.closure?, w.closure? with
      | some c, some d => .flag (c.same d)
      | _, _ => .absent
  | .asFunction into value => do
    let v ← value.make
    keep? into (v.closure?.map .function)
  | .asMacro into value => do
    let v ← value.make
    keep? into (v.closure?.map .macroFn)
  | .newRegistry into channel => do
    bindRegistry into (← update fun st => st.attach channel)
    return .done
  | .shareRegistry into name => do
    bindRegistry into (← registry name)
    return .done
  | .builtin into registryName name => do
    let _ ← registry registryName
    keep? into ((Builtin.ofName? name).map .builtin)
  | .register registryName scopeName => do
    let _ ← registry registryName
    let e ← scope scopeName
    change fun st => st.register e
    return .names (← read fun st => st.scopes.localNames e)
  | .call into registryName callee args => do
    let v ← callee.make
    let b ← ofOption .notBuiltin v.builtin?
    let args ← makeAll args
    let id ← registry registryName
    let (w, printed) ← callBuiltin id b args
    bindVar into w
    return .called (← snapshot w) printed
  | .print registryName line => do
    let id ← registry registryName
    let (_, printed) ← echoed (change fun st => st.print id line.toList)
    return .printed printed
  | .held registryName => do
    let id ← registry registryName
    return .shown (← held id)
  | .clear registryName => do
    let id ← registry registryName
    clear id
    return .done

def perform (s : Session) (c : Command) : Reply × Session :=
  match step c s with
  | .ok (reply, after) => (reply, after)
  | .error f => (.failed f, s)

def run (s : Session) : List Command → List Reply × Session
  | [] => ([], s)
  | c :: cs =>
    let (reply, s) := s.perform c
    let (replies, s) := s.run cs
    (reply :: replies, s)

end Session

end Scriptlet
