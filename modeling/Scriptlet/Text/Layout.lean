import Scriptlet.Text.Basic

/-!
# Layout of outlines

An outline names the shape of a piece of data: a tag with its content in
parentheses, a tag with named fields between braces, or an enumeration between
square brackets.
-/
namespace Scriptlet.Text

def tagged (tag : String) (content : Text) : Text :=
  tag.toList ++ '(' :: content ++ [')']

def field (name : String) (content : Text) : Text :=
  name.toList ++ ':' :: ' ' :: content

def record (tag : String) (fields : List Text) : Text :=
  tag.toList ++ ' ' :: '\x7b' :: ' ' :: commaSep fields ++ [' ', '\x7d']

def listed (items : List Text) : Text :=
  '[' :: commaSep items ++ [']']

def braced (items : List Text) : Text :=
  '\x7b' :: commaSep items ++ ['\x7d']

end Scriptlet.Text
