import ClosureLift.Lift.Basic
import ClosureLift.Settings.Toml

/-!
Settings files. The only table is `lift`; it is written under a header, with dotted keys or as one
value, but only in one of these ways, and it holds nothing but options.
-/
namespace ClosureLift

namespace Settings

def fileName : String := "cassis.toml"

inductive Table where
  | missing
  | dotted (members : List (Toml.Key × Toml.Value))
  | headed (members : List (Toml.Key × Toml.Value))
  | given (value : Toml.Value)

namespace Table

/-- Takes in one statement. Inside the headed table keys are relative to it. -/
def extend : Table → Toml.Statement → Option Table
  | .missing, .header ["lift"] => some (.headed [])
  | .missing, .assign ["lift"] v => some (.given v)
  | .missing, .assign ("lift" :: path) v => some (.dotted [(path, v)])
  | .dotted members, .assign ("lift" :: path) v => some (.dotted (members ++ [(path, v)]))
  | .headed members, .assign path v => some (.headed (members ++ [(path, v)]))
  | _, _ => none

def option? : Toml.Value → Option Json
  | .text content => some (.str content)
  | _ => none

def ofMembers? (members : List (Toml.Key × Toml.Value)) : Option LiftOptions := do
  let options ← members.mapM fun (path, v) => do
    match path with
    | [name] => return (name, ← option? v)
    | _ => none
  LiftOptions.ofJson? (.obj options)

/-- Options in their declared order. Only as many items count as there are options. -/
def ofItems? (items : List Toml.Value) : Option LiftOptions := do
  LiftOptions.ofJson? (.arr (← (items.take LiftOptions.fieldNames.length).mapM option?))

def options? : Table → Option LiftOptions
  | .missing => some .standard
  | .dotted members | .headed members | .given (.table members) => ofMembers? members
  | .given (.array items) => ofItems? items
  | .given _ => none

end Table

def read? (document : String) : Option LiftOptions := do
  let statements ← Toml.read? document
  (← statements.foldlM Table.extend .missing).options?

end Settings

end ClosureLift
