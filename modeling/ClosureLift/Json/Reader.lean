import ClosureLift.Binary64
import ClosureLift.Json.Basic

/-!
Reading strict JSON in two passes: characters to tokens, tokens to a value with a stack of the
brackets that are still open. Each pass goes once through its input, so no bound on the length of
the text is needed. A reader has a limit on nesting; what lies deeper is read and checked like the
rest but has no value.
-/
namespace ClosureLift

namespace Json

inductive Token where
  | openArray
  | closeArray
  | openObject
  | closeObject
  | comma
  | colon
  /-- A string, without content if it names half of a surrogate pair. -/
  | text (content : Option String)
  | scalar (value : Json)

def digits1? (cs : List Char) : Option (List Char × List Char) :=
  match cs.takeWhile Char.isDigit with
  | [] => none
  | ds => some (ds, cs.dropWhile Char.isDigit)

def fraction? : List Char → Option (List Char × List Char)
  | '.' :: rest => digits1? rest
  | rest => some ([], rest)

def exponent? : List Char → Option Int
  | [] => some 0
  | e :: rest =>
    if e ≠ 'e' ∧ e ≠ 'E' then none
    else
      let (negative, rest) := match rest with
        | '-' :: rest => (true, rest)
        | '+' :: rest => (false, rest)
        | rest => (false, rest)
      match digits1? rest with
      | some (ds, []) =>
        some (if negative then - Int.ofNat (Binary64.decimal ds) else Binary64.decimal ds)
      | _ => none

/-- Appends digits to a number as long as it stays below `2 ^ 64`; the second part is the digits
that are left. -/
def absorb (n : Nat) : List Char → Nat × List Char
  | [] => (n, [])
  | c :: rest =>
    let next := Binary64.decimal [c] + 10 * n
    if next < UInt64.size then absorb next rest else (n, c :: rest)

/-- Whether a number is out of range. What counts are the leading digits that fit into 64 bits, of
the whole part and then of the fraction, and the power of ten that brings them to their place. -/
def isOutOfRange (whole fraction : List Char) (exponent : Int) : Bool :=
  let (n, wholeRest) := absorb 0 whole
  let (n, fractionRest) := absorb n fraction
  let places : Int := fraction.length - fractionRest.length
  Binary64.productOverflows n (exponent + wholeRest.length - places)

/-- The magnitude and spelling rules of a number: no leading zero, no bare point or exponent. -/
def number? (literal : List Char) : Option Json := do
  let (negative, cs) := match literal with
    | '-' :: rest => (true, rest)
    | rest => (false, rest)
  let (whole, rest) ← digits1? cs
  if whole.head? = some '0' ∧ 1 < whole.length then none
  let (fraction, tail) ← fraction? rest
  let exponent ← exponent? tail
  let magnitude := Binary64.decimal whole
  if isOutOfRange whole fraction exponent then
    return .unreadable
  else if rest = [] ∧ ¬(negative ∧ magnitude = 0) then
    return .int (if negative then - Int.ofNat magnitude else magnitude)
  else
    return .real (String.ofList literal)

def word? (cs : List Char) : Option Token :=
  if cs = "true".toList then some (.scalar (.bool true))
  else if cs = "false".toList then some (.scalar (.bool false))
  else if cs = "null".toList then some (.scalar .null)
  else (number? cs).map .scalar

def isWordChar (c : Char) : Bool :=
  c.isAlphanum || c == '-' || c == '+' || c == '.'

def hexValue? (c : Char) : Option Nat :=
  if '0' ≤ c ∧ c ≤ '9' then some (c.toNat - 48)
  else if 'a' ≤ c ∧ c ≤ 'f' then some (c.toNat - 87)
  else if 'A' ≤ c ∧ c ≤ 'F' then some (c.toNat - 55)
  else none

def unit? (a b c d : Char) : Option Nat := do
  return (((← hexValue? a) * 16 + (← hexValue? b)) * 16 + (← hexValue? c)) * 16 + (← hexValue? d)

inductive Piece where
  | char (c : Char)
  | unit (n : Nat)

def isHighUnit (n : Nat) : Bool := 0xD800 ≤ n && n < 0xDC00
def isLowUnit (n : Nat) : Bool := 0xDC00 ≤ n && n < 0xE000

def pairedUnits (high low : Nat) : Char :=
  Char.ofNat (0x10000 + (high - 0xD800) * 0x400 + (low - 0xDC00))

/-- Joins surrogate pairs. Half of a pair is no character. -/
def joined? : List Piece → Option (List Char)
  | [] => some []
  | .char c :: rest => (joined? rest).map (c :: ·)
  | .unit high :: .unit low :: rest =>
    if isHighUnit high && isLowUnit low then (joined? rest).map (pairedUnits high low :: ·)
    else if isHighUnit high || isLowUnit high then none
    else (joined? (.unit low :: rest)).map (Char.ofNat high :: ·)
  | .unit n :: rest =>
    if isHighUnit n || isLowUnit n then none else (joined? rest).map (Char.ofNat n :: ·)

def unescaped? (c : Char) : Option Char :=
  if c = '"' ∨ c = '\\' ∨ c = '/' then some c
  else if c = 'b' then some '\x08'
  else if c = 'f' then some '\x0c'
  else if c = 'n' then some '\n'
  else if c = 'r' then some '\r'
  else if c = 't' then some '\t'
  else none

inductive Lexing where
  | between
  | word (taken : List Char)
  | text (taken : List Piece)

/-- A character that does not continue a word: what it starts, and the token it is by itself. -/
def start? (c : Char) : Option (Lexing × List Token) :=
  if c = ' ' ∨ c = '\n' ∨ c = '\t' ∨ c = '\r' then some (.between, [])
  else if c = '[' then some (.between, [.openArray])
  else if c = ']' then some (.between, [.closeArray])
  else if c = '\x7b' then some (.between, [.openObject])
  else if c = '\x7d' then some (.between, [.closeObject])
  else if c = ',' then some (.between, [.comma])
  else if c = ':' then some (.between, [.colon])
  else if c = '"' then some (.text [], [])
  else if isWordChar c then some (.word [c], [])
  else none

def lex : Lexing → List Char → Option (List Token)
  | .between, [] => some []
  | .word taken, [] => (word? taken.reverse).map ([·])
  | .text _, [] => none
  | .between, c :: rest => do
    let (state, tokens) ← start? c
    return tokens ++ (← lex state rest)
  | .word taken, c :: rest =>
    if isWordChar c then lex (.word (c :: taken)) rest
    else do
      let token ← word? taken.reverse
      let (state, tokens) ← start? c
      return token :: tokens ++ (← lex state rest)
  | .text taken, '"' :: rest => do
    return .text ((joined? taken.reverse).map String.ofList) :: (← lex .between rest)
  | .text taken, '\\' :: 'u' :: a :: b :: c :: d :: rest => do
    lex (.text (.unit (← unit? a b c d) :: taken)) rest
  | .text taken, '\\' :: c :: rest => do
    lex (.text (.char (← unescaped? c) :: taken)) rest
  | .text taken, c :: rest =>
    if c.toNat < 32 ∨ c = '\\' then none else lex (.text (.char c :: taken)) rest

inductive Bracket where
  | array (items : List Json)
  | object (members : List (Option String × Json))
  | member (members : List (Option String × Json)) (key : Option String)

inductive Reading where
  | value (stack : List Bracket)
  | firstItem (stack : List Bracket)
  | firstKey (stack : List Bracket)
  | key (stack : List Bracket)
  | colon (stack : List Bracket)
  | next (stack : List Bracket)
  | done (value : Json)

def deliver (v : Json) : List Bracket → Option Reading
  | [] => some (.done v)
  | .array items :: stack => some (.next (.array (v :: items) :: stack))
  | .member members key :: stack => some (.next (.object ((key, v) :: members) :: stack))
  | .object _ :: _ => none

/-- Puts a finished array or object where it belongs, or a part without value if it lies too
deep. -/
def close (limit : Nat) (v : Json) (stack : List Bracket) : Option Reading :=
  deliver (if stack.length < limit then v else .unreadable) stack

def objectOf (members : List (Option String × Json)) : Json :=
  match members.reverse.mapM fun (key, v) => key.map (·, v) with
  | some members => .obj members
  | none => .unreadable

def readValue (stack : List Bracket) : Token → Option Reading
  | .openArray => some (.firstItem (.array [] :: stack))
  | .openObject => some (.firstKey (.object [] :: stack))
  | .text content => deliver ((content.map Json.str).getD .unreadable) stack
  | .scalar v => deliver v stack
  | _ => none

def readKey : List Bracket → Token → Option Reading
  | .object members :: stack, .text content => some (.colon (.member members content :: stack))
  | _, _ => none

def readClose (limit : Nat) : List Bracket → Token → Option Reading
  | .array items :: stack, .closeArray => close limit (.arr items.reverse) stack
  | .object members :: stack, .closeObject => close limit (objectOf members) stack
  | _, _ => none

def step (limit : Nat) : Reading → Token → Option Reading
  | .value stack, token => readValue stack token
  | .firstItem stack, .closeArray => readClose limit stack .closeArray
  | .firstItem stack, token => readValue stack token
  | .firstKey stack, .closeObject => readClose limit stack .closeObject
  | .firstKey stack, token => readKey stack token
  | .key stack, token => readKey stack token
  | .colon stack, .colon => some (.value stack)
  | .next (.array items :: stack), .comma => some (.value (.array items :: stack))
  | .next (.object members :: stack), .comma => some (.key (.object members :: stack))
  | .next stack, token => readClose limit stack token
  | _, _ => none

def readTokens (limit : Nat) (tokens : List Token) : Option Json :=
  match tokens.foldlM (step limit) (.value []) with
  | some (.done v) => some v
  | _ => none

/-- The value of a text that is one JSON value and nothing else. Arrays and objects nested more than
`limit` deep have no value. -/
def read? (limit : Nat) (text : String) : Option Json := do
  readTokens limit (← lex .between text.toList)

end Json

end ClosureLift
