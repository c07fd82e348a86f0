/-!
# Texts

Everything the language writes is a text, a list of characters. Numbers are
written in decimal with a leading minus sign where negative, and the parts of
an enumeration stand with a comma and a blank between neighbours.
-/
namespace Scriptlet

abbrev Text := List Char

namespace Text

def ofNat (n : Nat) : Text := Nat.toDigits 10 n

def ofInt : Int → Text
  | .ofNat n => ofNat n
  | .negSucc n => '-' :: ofNat (n + 1)

def ofBool : Bool → Text
  | true => "true".toList
  | false => "false".toList

def commaSep : List Text → Text
  | [] => []
  | [part] => part
  | part :: next :: rest => part ++ ',' :: ' ' :: commaSep (next :: rest)

@[simp]
theorem commaSep_nil : commaSep [] = [] := rfl

@[simp]
theorem commaSep_singleton (part : Text) : commaSep [part] = part := rfl

theorem commaSep_cons_cons (part next : Text) (rest : List Text) :
    commaSep (part :: next :: rest) = part ++ ',' :: ' ' :: commaSep (next :: rest) := rfl

end Text

end Scriptlet
