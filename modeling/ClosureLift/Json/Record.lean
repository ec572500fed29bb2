import ClosureLift.Json.Basic

/-!
Taking values apart. A record is an object with named fields, in any order and with other members
ignored, or an array that lists the fields in their declared order. A case of a variant is a member
by itself, `{"case": payload}`; a case without payload is also a bare string. The payload of a case
can be fields of the case itself, and then a text may list them but a value must name them.
-/
namespace ClosureLift

namespace Json

/-- The value of a member that occurs at most once; `none` if it occurs again. -/
def member? (name : String) : List (String × Json) → Option (Option Json)
  | [] => some none
  | (key, v) :: rest =>
    if key = name then
      if rest.any (·.1 == name) then none else some (some v)
    else member? name rest

/-- The fields of a record in declared order, each of which may be missing. -/
def fields? (names : List String) : Json → Option (List (Option Json))
  | .obj members => names.mapM (member? · members)
  | .arr items =>
    if items.length ≤ names.length then
      some (items.map some ++ List.replicate (names.length - items.length) none)
    else none
  | _ => none

/-- How a case may give its own fields: in an object only, or also in an array. -/
inductive PayloadForm where
  | named
  | listed
  deriving DecidableEq

def payload? (form : PayloadForm) (names : List String) (v : Json) : Option (List (Option Json)) :=
  match form, v with
  | .named, .arr _ => none
  | _, v => v.fields? names

def case? : Json → Option (String × Option Json)
  | .str name => some (name, none)
  | .obj [(name, payload)] => some (name, some payload)
  | _ => none

/-- A case that carries nothing; a payload of `null` counts as nothing. -/
def name? (v : Json) : Option String :=
  match v.case? with
  | some (name, none) | some (name, some .null) => some name
  | _ => none

def text? : Json → Option String
  | .str text => some text
  | _ => none

def bool? : Json → Option Bool
  | .bool b => some b
  | _ => none

def int? : Json → Option Int
  | .int n => some n
  | _ => none

def uint32? (v : Json) : Option UInt32 := do
  let n ← v.int?
  if 0 ≤ n ∧ n < UInt32.size then some (UInt32.ofNat n.toNat) else none

def int64? (v : Json) : Option Int64 := do
  let n ← v.int?
  if Int64.minValue.toInt ≤ n ∧ n ≤ Int64.maxValue.toInt then some (Int64.ofInt n) else none

def list? (decode : Json → Option α) : Json → Option (List α)
  | .arr items => items.mapM decode
  | _ => none

def needed (decode : Json → Option α) : Option Json → Option α
  | some v => decode v
  | none => none

def optional (default : α) (decode : Json → Option α) : Option Json → Option α
  | some v => decode v
  | none => some default

def nullable (decode : Json → Option α) : Json → Option (Option α)
  | .null => some none
  | v => (decode v).map some

def ofTexts (texts : List String) : Json := .arr (texts.map .str)

def ofOption (encode : α → Json) : Option α → Json
  | some a => encode a
  | none => .null

def ofUInt32 (n : UInt32) : Json := .int n.toNat

end Json

end ClosureLift
