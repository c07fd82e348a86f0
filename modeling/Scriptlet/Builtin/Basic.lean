/-!
# Builtin functions

The six functions every script can call, in the order in which they are
registered, with the names scripts know them by.
-/
namespace Scriptlet

inductive Builtin where
  | len
  | first
  | last
  | rest
  | push
  | puts
deriving DecidableEq

namespace Builtin

def all : List Builtin := [.len, .first, .last, .rest, .push, .puts]

def name : Builtin → String
  | .len => "len"
  | .first => "first"
  | .last => "last"
  | .rest => "rest"
  | .push => "push"
  | .puts => "puts"

/-- The name in outlines. -/
def tag : Builtin → String
  | .len => "Len"
  | .first => "First"
  | .last => "Last"
  | .rest => "Rest"
  | .push => "Push"
  | .puts => "Puts"

def ofName? (name : String) : Option Builtin := all.find? (·.name == name)

theorem mem_all (b : Builtin) : b ∈ all := by
  cases b <;> decide

theorem ofName?_name (b : Builtin) : ofName? b.name = some b := by
  cases b <;> rfl

end Builtin

end Scriptlet
