import Scriptlet.Text.Basic

/-!
# Quoted strings

A quoted string stands between double quotes. The quote itself, the backslash
and four control characters have a short escape; a character that would leave
no visible mark of its own is written as its code point in hexadecimal.
-/
namespace Scriptlet.Text

/-- Closed ranges of code points without a visible mark of their own: controls,
blanks other than the plain one, joiners and direction marks, combining marks,
private use and unassigned planes. -/
def hiddenRanges : List (Nat × Nat) :=
  [(0x0, 0x1f), (0x7f, 0xa0), (0xad, 0xad), (0x300, 0x36f), (0x483, 0x489), (0x591, 0x5bd),
   (0x600, 0x605), (0x610, 0x61a), (0x61c, 0x61c), (0x64b, 0x65f), (0x1680, 0x1680),
   (0x180b, 0x180f), (0x1ab0, 0x1ace), (0x1dc0, 0x1dff), (0x2000, 0x200f), (0x2028, 0x202f),
   (0x205f, 0x206f), (0x20d0, 0x20f0), (0x3000, 0x3000), (0x302a, 0x302f), (0x3099, 0x309a),
   (0xd800, 0xf8ff), (0xfe00, 0xfe0f), (0xfe20, 0xfe2f), (0xfeff, 0xfeff), (0xfff0, 0xfffb),
   (0xfffe, 0xffff), (0xe0000, 0x10ffff)]

def isHidden (c : Char) : Bool :=
  hiddenRanges.any fun (low, high) => low ≤ c.toNat && c.toNat ≤ high

def codePoint (c : Char) : Text :=
  '\\' :: 'u' :: '\x7b' :: Nat.toDigits 16 c.toNat ++ ['\x7d']

/-- The short escapes are fixed; which other characters are written by code
point is up to `hidden`. -/
def escape (hidden : Char → Bool) (c : Char) : Text :=
  if c = '\x00' then ['\\', '0']
  else if c = '\t' then ['\\', 't']
  else if c = '\n' then ['\\', 'n']
  else if c = '\r' then ['\\', 'r']
  else if c = '"' then ['\\', '"']
  else if c = '\\' then ['\\', '\\']
  else if hidden c then codePoint c
  else [c]

def quoted (hidden : Char → Bool) (t : Text) : Text :=
  '"' :: t.flatMap (escape hidden) ++ ['"']

end Scriptlet.Text
