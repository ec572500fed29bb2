import ClosureLift.Lift.Conversion
import ClosureLift.Proofs.Codec.Syntax

/-!
Programs and texts. A program whose JSON stays within the nesting limit is read back from what is
written for it, and a text that was read once can be written and read again: filling in what it left
out never leads beyond the limit.
-/
namespace ClosureLift

open Json

section

variable (form : PayloadForm)

theorem Stmt.round_trips : RoundTrips Stmt.toJson (Stmt.ofJson? form) where
  plain := Stmt.to_json_plain
  reads s := Stmt.reads_within form s _ (Nat.le_refl _)
  shallow v := (shallow_within form v.depth).stmt v

theorem Method.round_trips : RoundTrips Method.toJson (Method.ofJson? form) where
  plain := Method.to_json_plain
  reads m := Method.reads_within form m _ (Nat.le_refl _)
  shallow v := (shallow_within form v.depth).method v

theorem Constructor.round_trips : RoundTrips Constructor.toJson (Constructor.ofJson? form) where
  plain c := by
    simp [Constructor.toJson, Plain, PlainMembers, plain_items_map Variable.round_trips.plain,
      Stmt.all_plain]
  reads c := by
    rw [Constructor.toJson, Constructor.ofJson?, read_record (by rfl) (by decide)]
    simp [Variable.round_trips.list.needed, Stmt.list_to_json,
      (Stmt.round_trips form).list.needed]
  shallow := by
    intro v c read
    obtain ⟨fields, positive, below, read⟩ := record_fields read
    split at read
    · simp only [Option.bind_eq_bind, Option.bind_eq_some_iff] at read
      obtain ⟨params, readParams, body, readBody, done⟩ := read
      cases done
      simp only [List.forall_mem_cons] at below
      apply obj_depth_le positive
      simp [Variable.round_trips.list.shallow.needed below.1 readParams, Stmt.list_to_json,
        (Stmt.round_trips form).list.shallow.needed below.2.1 readBody]
    · cases read

theorem Json.Below.mono {j k : Nat} {field : Option Json} (below : Below j field) (le : j ≤ k) :
    Below k field :=
  fun v held => Nat.lt_of_lt_of_le (below v held) le

namespace Class

theorem to_json_plain (c : Class) : c.toJson.Plain := by
  simp [Class.toJson, Plain, PlainMembers, TypeName.round_trips.plain,
    plain_items_map TypeParameter.round_trips.plain, plain_items_map TypeName.round_trips.plain,
    plain_items_map Field.round_trips.plain, (Constructor.round_trips .listed).plain,
    Method.all_plain, Span.round_trips.plain]

theorem reads (c : Class) : Class.ofJson? form c.toJson = some c := by
  rw [Class.toJson, Class.ofJson?, read_record (by rfl) (by decide)]
  simp [TypeName.round_trips.needed, TypeParameter.round_trips.list.optional,
    TypeName.round_trips.list.optional, Field.round_trips.list.optional,
    (Constructor.round_trips form).optional, Method.list_to_json,
    (Method.round_trips form).list.optional, Span.round_trips.optional]

theorem shallow {v : Json} {c : Class} {k : Nat} (read : Class.ofJson? form v = some c)
    (deep : v.depth ≤ k) (floor : 3 ≤ k) : c.toJson.depth ≤ k := by
  -- A class can be written deeper than it was read: the constructor may have been left out.
  obtain ⟨fields, positive, below, read⟩ := record_fields read
  split at read
  · simp only [Option.bind_eq_bind, Option.bind_eq_some_iff] at read
    obtain ⟨name, readName, typeParams, readTypeParams, superTypes, readSuper, fields, readFields,
      constructor, readConstructor, methods, readMethods, span, readSpan, done⟩ := read
    cases done
    have below := fun field among => (below field among).mono deep
    have less : 1 < k := by omega
    simp only [List.forall_mem_cons] at below
    apply obj_depth_le (Nat.zero_lt_of_lt less)
    simp [Method.list_to_json, TypeName.round_trips.shallow.needed below.1 readName,
      TypeParameter.round_trips.list.shallow.optional below.2.1 readTypeParams less,
      TypeName.round_trips.list.shallow.optional below.2.2.1 readSuper less,
      Field.round_trips.list.shallow.optional below.2.2.2.1 readFields less,
      (Constructor.round_trips form).shallow.optional below.2.2.2.2.1 readConstructor floor,
      (Method.round_trips form).list.shallow.optional below.2.2.2.2.2.1 readMethods less,
      Span.round_trips.shallow.optional below.2.2.2.2.2.2.1 readSpan less]
  · cases read

theorem list_shallow {v : Json} {cs : List Class} {k : Nat}
    (read : list? (Class.ofJson? form) v = some cs) (deep : v.depth ≤ k) (floor : 4 ≤ k) :
    (Json.arr (cs.map Class.toJson)).depth ≤ k := by
  cases v with
  | arr items =>
    rw [depth] at deep ⊢
    have each : itemsDepth (cs.map Class.toJson) ≤ k - 1 := by
      apply items_depth_le.mpr
      intro written member
      obtain ⟨c, among, rfl⟩ := List.mem_map.mp member
      obtain ⟨item, inside, decoded⟩ := each_some read c among
      have within := items_depth_le.mp (Nat.le_refl _) item inside
      exact shallow form decoded (by omega) (by omega)
    omega
  | _ => cases read

end Class

namespace Program

theorem to_json_plain (p : Program) : p.toJson.Plain := by
  simp [Program.toJson, Plain, PlainMembers, SourceFiles.round_trips.plain,
    plain_items_map Class.to_json_plain]

theorem reads (p : Program) : Program.ofJson? form p.toJson = some p := by
  rw [Program.toJson, Program.ofJson?, read_record (by rfl) (by decide)]
  simp [text_round_trips.needed, SourceFiles.round_trips.optional,
    needed_some (list_map (Class.reads form) p.classes)]

theorem shallow {v : Json} {p : Program} {k : Nat} (read : Program.ofJson? form v = some p)
    (deep : v.depth ≤ k) (floor : 5 ≤ k) : p.toJson.depth ≤ k := by
  obtain ⟨fields, positive, below, read⟩ := record_fields read
  split at read
  · simp only [Option.bind_eq_bind, Option.bind_eq_some_iff] at read
    obtain ⟨name, readName, files, readFiles, classes, readClasses, done⟩ := read
    cases done
    simp only [List.forall_mem_cons] at below
    obtain ⟨listed, held, decoded⟩ := of_needed readClasses
    have within := below.2.2.1 listed held
    have written : (Json.arr (classes.map Class.toJson)).depth ≤ k - 1 :=
      Class.list_shallow form decoded (by omega) (by omega)
    have inside : (Json.arr (classes.map Class.toJson)).depth < k := by omega
    have less : 1 < k := by omega
    apply obj_depth_le (Nat.zero_lt_of_lt less)
    simp [text_round_trips.shallow.needed (below.1.mono deep) readName,
      SourceFiles.round_trips.shallow.optional (below.2.1.mono deep) readFiles less, inside]
  · cases read

end Program

end

namespace Program

theorem text_of_depth {p : Program} (shallow : p.toJson.depth ≤ nestingLimit) :
    ofText? p.toJson.compact = some p ∧ ofText? p.toJson.pretty = some p := by
  unfold ofText? decodeText?
  rw [read_compact p.to_json_plain shallow, read_pretty p.to_json_plain shallow]
  exact ⟨p.reads .listed, p.reads .listed⟩

theorem depth_of_text {text : String} {p : Program} (read : ofText? text = some p) :
    p.toJson.depth ≤ nestingLimit := by
  obtain ⟨v, lexed, decoded⟩ := Option.bind_eq_some_iff.mp read
  exact shallow .listed decoded (read_depth lexed) (by decide)

/-- A program whose JSON nests no deeper than the limit is read back from the text that is written
for it, in either layout. Whatever text a program was read from, what is written for it is such a
text. -/
theorem text_reads_back :
    (∀ p : Program, p.toJson.depth ≤ nestingLimit →
      ofText? p.toJson.compact = some p ∧ ofText? p.toJson.pretty = some p) ∧
    ∀ (text : String) (p : Program), ofText? text = some p →
      p.toJson.depth ≤ nestingLimit ∧
      ofText? p.toJson.compact = some p ∧ ofText? p.toJson.pretty = some p := by
  constructor
  · intro p shallow
    exact text_of_depth shallow
  · intro text p read
    have shallow := depth_of_text read
    exact ⟨shallow, text_of_depth shallow⟩

/-- All three forms of closures, generic types, the least integer, and characters that are written
with an escape or in several bytes. -/
def varied : Program :=
  let box : TypeName := ⟨"a.Box"⟩
  let function : TypeName := ⟨"a.Function"⟩
  let item : TypeParameter := ⟨box, "T"⟩
  let boxed : Ty := .parameterized box [.bound item (.parameter item)]
  let x : Variable := ⟨((Identifier.top.type box).method "run").var "x\"", "x\"", boxed⟩
  let text : Expr := .literal (.string "\\ \"\n\x01\u00e9\u2028😀")
  let written : Lambda := ⟨function, "apply", [x], .string, [.ret (some text)], ⟨0, 3, 9⟩⟩
  let referred : MethodReference :=
    ⟨function, "apply", [.parameter item], .unit, .instance (.this box), "run", .dummy⟩
  let opened : AnonymousClass :=
    ⟨⟨"a.Box$1"⟩, [function], [⟨"held", boxed, true⟩],
      [⟨"apply", false, [item], [x], .unit, [.loop (.literal (.boolean false)) []]⟩], ⟨1, 0, 2⟩⟩
  let body : List Stmt :=
    [.decl x (.literal (.integer Int64.minValue)), .expr (.lambda written),
      .cond (.literal .unit) [.expr (.methodReference referred)]
        [.ret (some (.anonymousClass opened))]]
  ⟨"unit\t1", ⟨["Box.java", ""]⟩,
    [⟨box, [item], [function], [⟨"held", boxed, false⟩], ⟨[x], []⟩,
      [⟨"run", true, [], [x], boxed, body⟩], ⟨0, 0, 4294967294⟩⟩]⟩

/-- The second text leaves out all that it may, and spells a name with escapes. -/
theorem varied_text_reads_back :
    let bare : Program := ⟨"p😀\n", ⟨[]⟩, [⟨⟨"A"⟩, [], [], [], ⟨[], []⟩, [], .dummy⟩]⟩
    (varied.toJson.depth ≤ nestingLimit ∧
      ofText? varied.toJson.compact = some varied ∧ ofText? varied.toJson.pretty = some varied) ∧
    ofText? "[\"\\u0070\\ud83d\\ude00\\n\", [], [[\"A\"]]]" = some bare ∧
      ofText? bare.toJson.compact = some bare ∧ ofText? bare.toJson.pretty = some bare := by
  intro bare
  have shallow : varied.toJson.depth ≤ nestingLimit := by decide +kernel
  have read : ofText? "[\"\\u0070\\ud83d\\ude00\\n\", [], [[\"A\"]]]" = some bare := rfl
  exact ⟨⟨shallow, text_reads_back.1 varied shallow⟩, read, (text_reads_back.2 _ _ read).2⟩

end Program

end ClosureLift
