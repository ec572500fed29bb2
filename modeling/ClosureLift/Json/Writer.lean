import ClosureLift.Json.Basic

/-!
The two written forms of a value: compact, and laid out with two spaces per level. Strings escape
the quote, the backslash and the characters below U+0020 and leave everything else as it is.
-/
namespace ClosureLift

namespace Json

def hexDigit (n : Nat) : Char :=
  if n < 10 then Char.ofNat (48 + n) else Char.ofNat (87 + n)

def escaped (c : Char) : List Char :=
  if c = '"' then ['\\', '"']
  else if c = '\\' then ['\\', '\\']
  else if c = '\n' then ['\\', 'n']
  else if c = '\r' then ['\\', 'r']
  else if c = '\t' then ['\\', 't']
  else if c = '\x08' then ['\\', 'b']
  else if c = '\x0c' then ['\\', 'f']
  else if c.toNat < 32 then ['\\', 'u', '0', '0', hexDigit (c.toNat / 16), hexDigit (c.toNat % 16)]
  else [c]

def quoted (text : String) : List Char :=
  '"' :: (text.toList.flatMap escaped ++ ['"'])

def scalarChars : Json → List Char
  | .bool true => "true".toList
  | .bool false => "false".toList
  | .int n => (toString n).toList
  | .real literal => literal.toList
  | .str text => quoted text
  | .null | .arr _ | .obj _ | .unreadable => "null".toList

mutual

def compactChars : Json → List Char
  | .arr items => '[' :: (compactItems items ++ [']'])
  | .obj members => '\x7b' :: (compactMembers members ++ ['\x7d'])
  | v => v.scalarChars

def compactItems : List Json → List Char
  | [] => []
  | [v] => v.compactChars
  | v :: w :: rest => v.compactChars ++ ',' :: compactItems (w :: rest)

def compactMembers : List (String × Json) → List Char
  | [] => []
  | [(k, v)] => quoted k ++ ':' :: v.compactChars
  | (k, v) :: m :: rest => quoted k ++ ':' :: (v.compactChars ++ ',' :: compactMembers (m :: rest))

end

def compact (v : Json) : String := String.ofList v.compactChars

def lineBreak (level : Nat) : List Char := '\n' :: List.replicate (2 * level) ' '

mutual

def prettyChars (level : Nat) : Json → List Char
  | .arr [] => ['[', ']']
  | .arr (v :: rest) =>
    '[' :: (prettyItems (level + 1) (v :: rest) ++ lineBreak level ++ [']'])
  | .obj [] => ['\x7b', '\x7d']
  | .obj (m :: rest) =>
    '\x7b' :: (prettyMembers (level + 1) (m :: rest) ++ lineBreak level ++ ['\x7d'])
  | v => v.scalarChars

def prettyItems (level : Nat) : List Json → List Char
  | [] => []
  | [v] => lineBreak level ++ v.prettyChars level
  | v :: w :: rest => lineBreak level ++ v.prettyChars level ++ ',' :: prettyItems level (w :: rest)

def prettyMembers (level : Nat) : List (String × Json) → List Char
  | [] => []
  | [(k, v)] => lineBreak level ++ quoted k ++ ':' :: ' ' :: v.prettyChars level
  | (k, v) :: m :: rest =>
    lineBreak level ++ quoted k ++ ':' :: ' ' :: (v.prettyChars level ++
      ',' :: prettyMembers level (m :: rest))

end

def pretty (v : Json) : String := String.ofList (v.prettyChars 0)

end Json

end ClosureLift
