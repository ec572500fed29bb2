import ClosureLift.Program.Node

/-!
The names of a unit. One table serves the whole unit, so names minted in different branches of a
traversal never collide; it only grows. A scope is a path in the unit. Source keys are bound in one
scope and seen from every scope under it.

The candidates for a name `x` are `x`, `x_0`, `x_1` and so on, all different, so among one more of
them than there are names taken at least one is free. The numbers of candidates and the counters of
a table are natural numbers. Kept in machine words (32 bits for a candidate, 64 for a counter), they
would agree with these for as long as a table has no 2^31 forms of one name in one scope.
-/
namespace ClosureLift

def firstFree (taken : Nat → Bool) : Nat → Nat → Nat
  | 0, k => k
  | tries + 1, k => if taken k then firstFree taken tries (k + 1) else k

def numbered (name : String) : Nat → String
  | 0 => name
  | k + 1 => name ++ "_" ++ toString k

def freshName (taken : String → Bool) (count : Nat) (name : String) : String :=
  numbered name (firstFree (fun k => taken (numbered name k)) count 0)

inductive ScopeError where
  | alreadyBound (key : String) (scope : Identifier)
  | unbound (key : String)
  | redeclared (id : Identifier)
  deriving DecidableEq

def ScopeError.message : ScopeError → String
  | .alreadyBound key scope => s!"key `{key}` is already bound in {scope.display}"
  | .unbound key => s!"variable not found: {key}"
  | .redeclared id => s!"identifier {id.display} is declared more than once"

structure ScopeTable where
  identifiers : List Identifier
  keys : List ((Identifier × String) × Variable)
  nextAnonymous : Nat
  nextTemporary : Nat
  temporaryName : String

namespace ScopeTable

def empty (temporaryName : String) : ScopeTable := ⟨[], [], 0, 0, temporaryName⟩

def contains (table : ScopeTable) (id : Identifier) : Bool := table.identifiers.contains id

def insert (table : ScopeTable) (id : Identifier) : ScopeTable :=
  { table with identifiers := id :: table.identifiers }

def reserve (table : ScopeTable) (id : Identifier) : Bool × ScopeTable :=
  if table.contains id then (false, table) else (true, table.insert id)

/-- Takes identifiers one by one up to the first that is taken already. -/
def reserveAll : ScopeTable → List Identifier → Except ScopeError Unit × ScopeTable
  | table, [] => (.ok (), table)
  | table, id :: rest =>
    if table.contains id then (.error (.redeclared id), table)
    else (table.insert id).reserveAll rest

def reserveProgram (table : ScopeTable) (program : Program) : Except ScopeError Unit × ScopeTable :=
  table.reserveAll program.declaredIds

/-- Mints a variable in `scope`, under `name` or the first numbered form of it that is free
there. -/
def freshVariable (table : ScopeTable) (scope : Identifier) (name : String) (ty : Ty) :
    Variable × ScopeTable :=
  let chosen := freshName (fun n => table.contains (scope.var n)) table.identifiers.length name
  let id := scope.var chosen
  (⟨id, chosen, ty⟩, table.insert id)

def freshTemporary (table : ScopeTable) (scope : Identifier) (ty : Ty) : Variable × ScopeTable :=
  let name := table.temporaryName ++ toString table.nextTemporary
  { table with nextTemporary := table.nextTemporary + 1 }.freshVariable scope name ty

/-- Mints a variable for a source key. A scope binds a key once. -/
def declare (table : ScopeTable) (scope : Identifier) (key name : String) (ty : Ty) :
    Except ScopeError Variable × ScopeTable :=
  match table.keys.lookup (scope, key) with
  | some _ => (.error (.alreadyBound key scope), table)
  | none =>
    let (x, table) := table.freshVariable scope name ty
    (.ok x, { table with keys := ((scope, key), x) :: table.keys })

/-- Resolves a source key in `scope` or the nearest scope around it that binds the key. -/
def lookup (table : ScopeTable) (scope : Identifier) (key : String) : Except ScopeError Variable :=
  match scope.selfAndAncestors.findSome? fun path => table.keys.lookup (path, key) with
  | some x => .ok x
  | none => .error (.unbound key)

/-- Names a class for a closure inside `enclosing`. The counter is shared by the whole unit and
passes over names that the unit declares. -/
def freshClassName (table : ScopeTable) (enclosing : TypeName) : TypeName × ScopeTable :=
  let taken (k : Nat) := table.contains (Identifier.top.type (enclosing.synthesized k))
  let k := firstFree taken table.identifiers.length table.nextAnonymous
  let name := enclosing.synthesized k
  (name, { table.insert (Identifier.top.type name) with nextAnonymous := k + 1 })

end ScopeTable

end ClosureLift
