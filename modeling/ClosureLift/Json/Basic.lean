/-!
JSON values. Members of an object stay in the order of the text and may repeat, because whether a
repetition matters depends on who reads the object.
-/
namespace ClosureLift

/-- A JSON value. A number with a fraction or an exponent, and the literal `-0`, is no integer and
keeps its spelling. A part of a text can be well formed and still have no value: a string with half
of a surrogate pair, a number beyond the range of binary64, brackets nested too deep. It is
`unreadable`, which no decoder accepts but a field that nobody asks for may hold. -/
inductive Json where
  | null
  | bool (value : Bool)
  | int (value : Int)
  | real (literal : String)
  | str (text : String)
  | arr (items : List Json)
  | obj (members : List (String × Json))
  | unreadable

namespace Json

mutual

def isReadable : Json → Bool
  | .unreadable => false
  | .arr items => allReadable items
  | .obj members => membersReadable members
  | .null | .bool _ | .int _ | .real _ | .str _ => true

def allReadable : List Json → Bool
  | [] => true
  | v :: rest => v.isReadable && allReadable rest

def membersReadable : List (String × Json) → Bool
  | [] => true
  | (_, v) :: rest => v.isReadable && membersReadable rest

end

mutual

def depth : Json → Nat
  | .arr items => itemsDepth items + 1
  | .obj members => membersDepth members + 1
  | .null | .bool _ | .int _ | .real _ | .str _ | .unreadable => 0

def itemsDepth : List Json → Nat
  | [] => 0
  | v :: rest => max v.depth (itemsDepth rest)

def membersDepth : List (String × Json) → Nat
  | [] => 0
  | (_, v) :: rest => max v.depth (membersDepth rest)

end

end Json

end ClosureLift
