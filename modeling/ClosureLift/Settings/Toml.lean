import ClosureLift.Settings.Scalar

/-!
The part of TOML that settings are written in: comments, table headers, dotted and quoted keys,
values of all kinds. Headers of table arrays are left out, since no setting is an array of tables. A
reader gives what it takes from the start of a text and what follows it.
-/
namespace ClosureLift

namespace Toml

abbrev Key := List String

inductive Value where
  | text (content : String)
  | array (items : List Value)
  | table (members : List (Key × Value))
  | scalar

inductive Statement where
  | header (path : Key)
  | assign (path : Key) (value : Value)

def nestingLimit : Nat := 79

def keyLimit : Nat := 79

def isBlank (c : Char) : Bool := c == ' ' || c == '\t'

def isPlain (c : Char) : Bool := c == '\t' || (32 ≤ c.toNat && c.toNat != 127)

def isBareKeyChar (c : Char) : Bool := c.isAlphanum || c == '_' || c == '-'

def blanks (cs : List Char) : List Char := cs.dropWhile isBlank

def newline? : List Char → Option (List Char)
  | '\n' :: rest | '\r' :: '\n' :: rest => some rest
  | _ => none

def comment (cs : List Char) : List Char :=
  match cs with
  | '#' :: rest => rest.dropWhile isPlain
  | _ => cs

def endOfLine? (cs : List Char) : Option (List Char) :=
  match comment (blanks cs) with
  | [] => some []
  | rest => newline? rest

def hexNumber? (digits : List Char) : Option Nat :=
  digits.foldlM (fun n c => (Json.hexValue? c).map (16 * n + ·)) 0

def codePoint? (digits : List Char) : Option Char := do
  let n ← hexNumber? digits
  if n.isValidChar then some (Char.ofNat n) else none

def unescaped? (c : Char) : Option Char :=
  if c = '"' ∨ c = '\\' then some c
  else if c = 'b' then some '\x08'
  else if c = 'f' then some '\x0c'
  else if c = 'n' then some '\n'
  else if c = 'r' then some '\r'
  else if c = 't' then some '\t'
  else none

def adding (c : Char) (taken : Option (List Char × List Char)) : Option (List Char × List Char) :=
  taken.map fun (cs, rest) => (c :: cs, rest)

def basic : List Char → Option (List Char × List Char)
  | [] => none
  | '"' :: rest => some ([], rest)
  | '\\' :: 'u' :: a :: b :: c :: d :: rest => do adding (← codePoint? [a, b, c, d]) (basic rest)
  | '\\' :: 'U' :: a :: b :: c :: d :: e :: f :: g :: h :: rest => do
    adding (← codePoint? [a, b, c, d, e, f, g, h]) (basic rest)
  | '\\' :: c :: rest => do adding (← unescaped? c) (basic rest)
  | c :: rest => if isPlain c then adding c (basic rest) else none

def literal : List Char → Option (List Char × List Char)
  | [] => none
  | '\'' :: rest => some ([], rest)
  | c :: rest => if isPlain c then adding c (literal rest) else none

/-- A string in three double quotes, after those. A backslash at the end of a line removes the line
break and all white space after it; `joining` holds while that goes on. Two further quotes may stand
before the last three. -/
def basicLines (joining : Bool) : List Char → Option (List Char × List Char)
  | [] => none
  | '"' :: '"' :: '"' :: '"' :: '"' :: rest => some (['"', '"'], rest)
  | '"' :: '"' :: '"' :: '"' :: rest => some (['"'], rest)
  | '"' :: '"' :: '"' :: rest => some ([], rest)
  | '\\' :: 'u' :: a :: b :: c :: d :: rest => do
    adding (← codePoint? [a, b, c, d]) (basicLines false rest)
  | '\\' :: 'U' :: a :: b :: c :: d :: e :: f :: g :: h :: rest => do
    adding (← codePoint? [a, b, c, d, e, f, g, h]) (basicLines false rest)
  | '\r' :: '\n' :: rest =>
    if joining then basicLines true rest else adding '\n' (basicLines false rest)
  | '\\' :: c :: rest =>
    if (newline? (blanks (c :: rest))).isSome then basicLines true (c :: rest)
    else do adding (← unescaped? c) (basicLines false rest)
  | c :: rest =>
    if joining && (isBlank c || c == '\n') then basicLines true rest
    else if isPlain c || c == '\n' then adding c (basicLines false rest)
    else none

def literalLines : List Char → Option (List Char × List Char)
  | [] => none
  | '\'' :: '\'' :: '\'' :: '\'' :: '\'' :: rest => some (['\'', '\''], rest)
  | '\'' :: '\'' :: '\'' :: '\'' :: rest => some (['\''], rest)
  | '\'' :: '\'' :: '\'' :: rest => some ([], rest)
  | '\r' :: '\n' :: rest => adding '\n' (literalLines rest)
  | c :: rest => if isPlain c || c == '\n' then adding c (literalLines rest) else none

def text (taken : Option (List Char × List Char)) : Option (String × List Char) :=
  taken.map fun (cs, rest) => (String.ofList cs, rest)

def skipNewline (cs : List Char) : List Char := (newline? cs).getD cs

def string : List Char → Option (String × List Char)
  | '"' :: '"' :: '"' :: rest => text (basicLines false (skipNewline rest))
  | '\'' :: '\'' :: '\'' :: rest => text (literalLines (skipNewline rest))
  | '"' :: rest => text (basic rest)
  | '\'' :: rest => text (literal rest)
  | _ => none

def simpleKey (cs : List Char) : Option (String × List Char) :=
  match cs with
  | '"' :: rest => text (basic rest)
  | '\'' :: rest => text (literal rest)
  | _ =>
    match cs.takeWhile isBareKeyChar with
    | [] => none
    | name => some (String.ofList name, cs.dropWhile isBareKeyChar)

def dottedKey : Nat → List Char → Option (Key × List Char)
  | 0, _ => none
  | n + 1, cs => do
    let (name, rest) ← simpleKey cs
    match blanks rest with
    | '.' :: rest =>
      let (names, rest) ← dottedKey n (blanks rest)
      return (name :: names, rest)
    | rest => return ([name], rest)

def key (cs : List Char) : Option (Key × List Char) := dottedKey keyLimit cs

def skipLines : Nat → List Char → List Char
  | 0, cs => cs
  | n + 1, cs =>
    match newline? (comment (blanks cs)) with
    | some rest => skipLines n rest
    | none => blanks cs

def gap (cs : List Char) : List Char := skipLines cs.length cs

/-- Whether each member has a place of its own: a key that leads to a value leads no further. -/
def areApart : List (Key × Value) → Bool
  | [] => true
  | (path, _) :: rest =>
    rest.all (fun m => !path.isPrefixOf m.1 && !m.1.isPrefixOf path) && areApart rest

mutual

/-- A value inside of which `room` levels of nesting are left. -/
def value (room : Nat) : Nat → List Char → Option (Value × List Char)
  | 0, _ => none
  | n + 1, '[' :: rest => do
    if room = 0 then none
    let (vs, rest) ← items (room - 1) n (gap rest)
    return (.array vs, rest)
  | n + 1, '\x7b' :: rest => do
    if room = 0 then none
    let (ms, rest) ← match blanks rest with
      | '\x7d' :: rest => some ([], rest)
      | rest => members (room - 1) n rest
    if areApart ms then return (.table ms, rest) else none
  | _ + 1, cs =>
    match string cs with
    | some (s, rest) => some (.text s, rest)
    | none => (scalar? cs).map (.scalar, ·)

def items (room : Nat) : Nat → List Char → Option (List Value × List Char)
  | 0, _ => none
  | _ + 1, ']' :: rest => some ([], rest)
  | n + 1, cs => do
    let (v, rest) ← value room n cs
    match gap rest with
    | ',' :: rest =>
      let (vs, rest) ← items room n (gap rest)
      return (v :: vs, rest)
    | ']' :: rest => return ([v], rest)
    | _ => none

def members (room : Nat) : Nat → List Char → Option (List (Key × Value) × List Char)
  | 0, _ => none
  | n + 1, cs => do
    let (path, rest) ← key cs
    let '=' :: rest := rest | none
    let (v, rest) ← value room n (blanks rest)
    match blanks rest with
    | ',' :: rest =>
      let (ms, rest) ← members room n (blanks rest)
      return ((path, v) :: ms, rest)
    | '\x7d' :: rest => return ([(path, v)], rest)
    | _ => none

end

def statement (cs : List Char) : Option (Statement × List Char) :=
  match cs with
  | '[' :: rest => do
    let (path, rest) ← key (blanks rest)
    let ']' :: rest := rest | none
    return (.header path, rest)
  | _ => do
    let (path, rest) ← key cs
    let '=' :: rest := rest | none
    let (v, rest) ← value nestingLimit (2 * cs.length) (blanks rest)
    return (.assign path v, rest)

def lines : Nat → List Char → Option (List Statement)
  | 0, cs => if cs = [] then some [] else none
  | n + 1, cs => do
    match comment (blanks cs) with
    | [] => return []
    | rest =>
      match newline? rest with
      | some rest => lines n rest
      | none =>
        let (s, rest) ← statement rest
        return s :: (← lines n (← endOfLine? rest))

/-- The statements of a document, which may start with a byte order mark. -/
def read? (document : String) : Option (List Statement) :=
  let cs := document.toList
  let cs := if cs.head? = some '\ufeff' then cs.drop 1 else cs
  lines cs.length cs

end Toml

end ClosureLift
