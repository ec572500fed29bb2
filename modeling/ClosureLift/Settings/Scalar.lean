import ClosureLift.Binary64
import ClosureLift.Json.Reader

/-!
Numbers, truth values, dates and times of TOML. No setting is one of them, but they may stand where
nobody looks, so a reader only checks that one is there and gives what follows it. Where one form
begins like another the longer is tried first.
-/
namespace ClosureLift

namespace Toml

def word? (word : String) (cs : List Char) : Option (List Char) := word.toList.isPrefixOf? cs

def sign (cs : List Char) : Bool × List Char :=
  match cs with
  | '-' :: rest => (true, rest)
  | '+' :: rest => (false, rest)
  | rest => (false, rest)

def digits (isDigit : Char → Bool) : List Char → List Char × List Char
  | '_' :: c :: rest =>
    if isDigit c then
      let (ds, rest) := digits isDigit rest
      (c :: ds, rest)
    else ([], '_' :: c :: rest)
  | c :: rest =>
    if isDigit c then
      let (ds, rest) := digits isDigit rest
      (c :: ds, rest)
    else ([], c :: rest)
  | [] => ([], [])

def digits1? (isDigit : Char → Bool) (cs : List Char) : Option (List Char × List Char) :=
  if cs.head?.any isDigit then some (digits isDigit cs) else none

def whole? (cs : List Char) : Option (List Char × List Char) :=
  match cs with
  | '0' :: rest => some (['0'], rest)
  | _ => digits1? Char.isDigit cs

def isDigitOf (base : Nat) (c : Char) : Bool := (Json.hexValue? c).any (· < base)

def baseInteger? (base : Nat) (cs : List Char) : Option (List Char) := do
  let (ds, rest) ← digits1? (isDigitOf base) cs
  let n := ds.foldl (fun n c => base * n + (Json.hexValue? c).getD 0) 0
  if n ≤ Int64.maxValue.toInt then some rest else none

/-- An integer of 64 bits. Only a decimal one has a sign. -/
def integer? (cs : List Char) : Option (List Char) :=
  match cs with
  | '0' :: 'x' :: rest => baseInteger? 16 rest
  | '0' :: 'o' :: rest => baseInteger? 8 rest
  | '0' :: 'b' :: rest => baseInteger? 2 rest
  | _ => do
    let (negative, cs) := sign cs
    let (ds, rest) ← whole? cs
    let bound := if negative then - Int64.minValue.toInt else Int64.maxValue.toInt
    if Binary64.decimal ds ≤ bound then some rest else none

def fraction? : List Char → Option (List Char × List Char)
  | '.' :: rest => digits1? Char.isDigit rest
  | rest => some ([], rest)

def exponent? (cs : List Char) : Option (Int × List Char) :=
  match cs with
  | 'e' :: rest | 'E' :: rest => do
    let (negative, rest) := sign rest
    let (ds, rest) ← digits1? Char.isDigit rest
    let n : Int := Binary64.decimal ds
    return (if negative then -n else n, rest)
  | rest => some (0, rest)

/-- A number with a fraction or an exponent. Only on the negative side may it be out of range. -/
def real? (cs : List Char) : Option (List Char) := do
  let (negative, cs) := sign cs
  let (whole, tail) ← whole? cs
  let (fraction, rest) ← fraction? tail
  let (exponent, rest) ← exponent? rest
  if rest.length = tail.length then none
  else if !negative && Binary64.overflows (whole ++ fraction) (exponent - fraction.length) then none
  else some rest

def special? (cs : List Char) : Option (List Char) :=
  let (_, cs) := sign cs
  word? "inf" cs <|> word? "nan" cs

def fixed? (count low high : Nat) (cs : List Char) : Option (Nat × List Char) :=
  let ds := cs.take count
  let n := Binary64.decimal ds
  if ds.length = count ∧ ds.all Char.isDigit ∧ low ≤ n ∧ n ≤ high then some (n, cs.drop count)
  else none

def daysOf (year month : Nat) : Nat :=
  let leap := year % 4 = 0 ∧ (year % 100 ≠ 0 ∨ year % 400 = 0)
  if month = 2 then (if leap then 29 else 28)
  else if [4, 6, 9, 11].contains month then 30
  else 31

def date? (cs : List Char) : Option (List Char) := do
  let (year, rest) ← fixed? 4 0 9999 cs
  let (month, rest) ← fixed? 2 1 12 (← word? "-" rest)
  let (_, rest) ← fixed? 2 1 (daysOf year month) (← word? "-" rest)
  return rest

def subsecond (cs : List Char) : List Char :=
  match cs with
  | '.' :: c :: rest => if c.isDigit then rest.dropWhile Char.isDigit else cs
  | _ => cs

def time? (cs : List Char) : Option (List Char) := do
  let (_, rest) ← fixed? 2 0 23 cs
  let (_, rest) ← fixed? 2 0 59 (← word? ":" rest)
  let (_, rest) ← fixed? 2 0 60 (← word? ":" rest)
  return subsecond rest

def offset? (cs : List Char) : Option (List Char) :=
  match cs with
  | 'Z' :: rest | 'z' :: rest => some rest
  | '+' :: rest | '-' :: rest => do
    let (_, rest) ← fixed? 2 0 23 rest
    let (_, rest) ← fixed? 2 0 59 (← word? ":" rest)
    return rest
  | _ => none

def timeOfDate? (cs : List Char) : Option (List Char) :=
  match cs with
  | 'T' :: rest | 't' :: rest | ' ' :: rest => do
    let rest ← time? rest
    return (offset? rest).getD rest
  | _ => none

def moment? (cs : List Char) : Option (List Char) := do
  let rest ← date? cs
  return (timeOfDate? rest).getD rest

def scalar? (cs : List Char) : Option (List Char) :=
  word? "true" cs <|> word? "false" cs <|> moment? cs <|> time? cs <|> real? cs <|> special? cs <|>
    integer? cs

end Toml

end ClosureLift
