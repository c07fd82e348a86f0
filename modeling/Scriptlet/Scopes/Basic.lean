import Scriptlet.Keyed

/-!
# Scopes

Scopes live in a table and are named by their place in it. A scope may lie
inside another one, which was there before it: the links never lead to a
younger scope, so walking outward from any scope ends. Looking up a name walks
outward to the first scope that binds it; binding a name touches one scope
only.
-/
namespace Scriptlet

@[ext]
structure ScopeId where
  index : Nat
deriving DecidableEq

structure Binding (α : Type) where
  name : String
  value : α

instance (α : Type) : Keyed (Binding α) String := ⟨Binding.name⟩

@[simp]
theorem Binding.keyed_key {α : Type} (b : Binding α) : Keyed.key b = b.name := rfl

structure Scope (α : Type) where
  outer : Option ScopeId
  bindings : List (Binding α)

structure Scopes (α : Type) where
  table : Array (Scope α)
  outer_lt : ∀ {i : Nat} {s : Scope α} {o : ScopeId},
    table[i]? = some s → s.outer = some o → o.index < i

namespace Scopes

variable {α : Type}

def empty : Scopes α where
  table := #[]
  outer_lt h := by simp at h

instance : Membership ScopeId (Scopes α) := ⟨fun t e => e.index < t.table.size⟩

theorem mem_def (t : Scopes α) (e : ScopeId) : e ∈ t ↔ e.index < t.table.size := Iff.rfl

instance (t : Scopes α) (e : ScopeId) : Decidable (e ∈ t) :=
  inferInstanceAs (Decidable (e.index < t.table.size))

def outer? (t : Scopes α) (e : ScopeId) : Option ScopeId := t.table[e.index]?.bind Scope.outer

theorem index_lt_of_outer? {t : Scopes α} {e o : ScopeId} (h : t.outer? e = some o) :
    o.index < e.index := by
  obtain ⟨s, hs, ho⟩ := Option.bind_eq_some_iff.1 h
  exact t.outer_lt hs ho

/-- The scope itself and all scopes around it, from the inside out. -/
def chain (t : Scopes α) (e : ScopeId) : List ScopeId :=
  match _h : t.outer? e with
  | none => [e]
  | some o => e :: chain t o
termination_by e.index
decreasing_by exact index_lt_of_outer? _h

theorem chain_of_none {t : Scopes α} {e : ScopeId} (h : t.outer? e = none) : t.chain e = [e] := by
  rw [chain]
  split <;> simp_all

theorem chain_of_some {t : Scopes α} {e o : ScopeId} (h : t.outer? e = some o) :
    t.chain e = e :: t.chain o := by
  rw [chain]
  split <;> simp_all

def depth (t : Scopes α) (e : ScopeId) : Nat := (t.chain e).tail.length

def bindings (t : Scopes α) (e : ScopeId) : List (Binding α) :=
  (t.table[e.index]?.map Scope.bindings).getD []

def getLocal? (t : Scopes α) (e : ScopeId) (name : String) : Option α :=
  (Keyed.find? name (t.bindings e)).map Binding.value

def containsLocal (t : Scopes α) (e : ScopeId) (name : String) : Bool :=
  (t.getLocal? e name).isSome

def get? (t : Scopes α) (e : ScopeId) (name : String) : Option α :=
  (t.chain e).findSome? (t.getLocal? · name)

/-- The names bound in the scope itself, in increasing order of their code
points. -/
def localNames (t : Scopes α) (e : ScopeId) : List String :=
  (Keyed.keys (t.bindings e)).mergeSort fun a b => decide (a ≤ b)

def push (t : Scopes α) (outer : Option ScopeId) (h : ∀ o, outer = some o → o ∈ t) : Scopes α where
  table := t.table.push ⟨outer, []⟩
  outer_lt {i s o} hs ho := by
    rw [Array.getElem?_push] at hs
    split at hs
    · next hi =>
      cases hs
      exact hi ▸ h o ho
    · exact t.outer_lt hs ho

def next (t : Scopes α) : ScopeId := ⟨t.table.size⟩

def create (t : Scopes α) : ScopeId × Scopes α :=
  (t.next, t.push none (by simp))

/-- A new scope inside `outer`. Only a scope of the table can enclose another
one. -/
def enclose (t : Scopes α) (outer : ScopeId) : ScopeId × Scopes α :=
  if h : outer ∈ t then (t.next, t.push (some outer) (by simpa using h)) else t.create

def set (t : Scopes α) (e : ScopeId) (name : String) (value : α) : Scopes α where
  table := t.table.modify e.index fun s =>
    { s with bindings := Keyed.put ⟨name, value⟩ s.bindings }
  outer_lt {i s o} hs ho := by
    rw [Array.getElem?_modify] at hs
    split at hs
    · obtain ⟨s', hs', rfl⟩ := Option.map_eq_some_iff.1 hs
      exact t.outer_lt hs' ho
    · exact t.outer_lt hs ho

/-- Binds several names one after the other, so the last binding of a name
stays. -/
def setAll (t : Scopes α) (e : ScopeId) (bindings : List (Binding α)) : Scopes α :=
  bindings.foldl (fun t b => t.set e b.name b.value) t

/-- A scope `n` levels inside `e`, and `e` itself for none. -/
def encloseTimes (t : Scopes α) (e : ScopeId) : Nat → ScopeId × Scopes α
  | 0 => (e, t)
  | n + 1 => let (inner, t) := t.enclose e; t.encloseTimes inner n

end Scopes

end Scriptlet
