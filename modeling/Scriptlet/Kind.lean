/-!
# Kinds of values

Each value has one of twelve kinds. A kind has the text that error messages
use and the name it has in outlines.
-/
namespace Scriptlet

inductive Kind where
  | int
  | bool
  | null
  | ret
  | error
  | str
  | array
  | hash
  | function
  | builtin
  | quote
  | macroFn
deriving DecidableEq

namespace Kind

def all : List Kind :=
  [.int, .bool, .null, .ret, .error, .str, .array, .hash, .function, .builtin, .quote, .macroFn]

def text : Kind → String
  | .int => "INTEGER"
  | .bool => "BOOLEAN"
  | .null => "NULL"
  | .ret => "RETURN_VALUE"
  | .error => "ERROR"
  | .str => "STRING"
  | .array => "ARRAY"
  | .hash => "HASH"
  | .function => "FUNCTION"
  | .builtin => "BUILTIN"
  | .quote => "QUOTE"
  | .macroFn => "MACRO"

def name : Kind → String
  | .int => "Integer"
  | .bool => "Boolean"
  | .null => "Null"
  | .ret => "ReturnValue"
  | .error => "Error"
  | .str => "String"
  | .array => "Array"
  | .hash => "Hash"
  | .function => "Function"
  | .builtin => "Builtin"
  | .quote => "Quote"
  | .macroFn => "Macro"

def ofText? (s : String) : Option Kind := all.find? (·.text == s)

end Kind

end Scriptlet
