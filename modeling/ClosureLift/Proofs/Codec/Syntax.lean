import ClosureLift.Codec.Program
import ClosureLift.Proofs.Codec.Basic

/-!
The codecs of expressions, statements and methods. Their decoders count down the depth of what they
are given, and the depth of what was written is enough for it to be read back.
-/
namespace ClosureLift

open Json

theorem Json.read_payload {form : PayloadForm} {names : List String}
    {members : List (String × Json)} {build : List (Option Json) → Option α}
    (same : members.map (·.1) = names) (distinct : names.Nodup) :
    ((Json.obj members).payload? form names >>= build) =
      build (members.map fun m => some m.2) := by
  have named : (Json.obj members).payload? form names = (Json.obj members).fields? names := by
    cases form <;> rfl
  rw [named, read_record same distinct]

theorem Json.nullable_some {decode : Json → Option α} {v : Json} {a : α} (read : decode v = some a)
    (present : v ≠ .null) : nullable decode v = some (some a) := by
  cases v with
  | null => exact absurd rfl present
  | _ => simp [nullable, read]

theorem Expr.to_json_ne_null (e : Expr) : e.toJson ≠ .null := by
  cases e <;> simp [Expr.toJson]

mutual

theorem Expr.to_json_plain : (e : Expr) → e.toJson.Plain
  | .literal value => by simp [Expr.toJson, Plain, PlainMembers, Literal.round_trips.plain]
  | .reference ref => by simp [Expr.toJson, Plain, PlainMembers, Reference.round_trips.plain]
  | .assign target value => by
    simp [Expr.toJson, Plain, PlainMembers, Expr.to_json_plain target, Expr.to_json_plain value]
  | .fieldAccess receiver field ty => by
    simp [Expr.toJson, Plain, PlainMembers, Expr.to_json_plain receiver, Ty.round_trips.plain]
  | .methodCall receiver method args typeArgs ty => by
    simp [Expr.toJson, Plain, PlainMembers, Expr.to_json_plain receiver, Expr.all_plain args,
      plain_items_map Ty.round_trips.plain, Ty.round_trips.plain]
  | .staticCall cls method args typeArgs ty => by
    simp [Expr.toJson, Plain, PlainMembers, TypeName.round_trips.plain, Expr.all_plain args,
      plain_items_map Ty.round_trips.plain, Ty.round_trips.plain]
  | .construct ty args => by
    simp [Expr.toJson, Plain, PlainMembers, Expr.all_plain args, Ty.round_trips.plain]
  | .operation op args ty => by
    simp [Expr.toJson, Plain, PlainMembers, Operator.round_trips.plain, Expr.all_plain args,
      Ty.round_trips.plain]
  | .conditional condition ifTrue ifFalse ty => by
    simp [Expr.toJson, Plain, PlainMembers, Expr.to_json_plain condition,
      Expr.to_json_plain ifTrue, Expr.to_json_plain ifFalse, Ty.round_trips.plain]
  | .lambda closure => by simp [Expr.toJson, Plain, PlainMembers, Lambda.to_json_plain closure]
  | .methodReference closure => by
    simp [Expr.toJson, Plain, PlainMembers, MethodReference.to_json_plain closure]
  | .anonymousClass closure => by
    simp [Expr.toJson, Plain, PlainMembers, AnonymousClass.to_json_plain closure]

theorem Expr.all_plain : (es : List Expr) → PlainItems (Expr.toJsonAll es)
  | [] => trivial
  | e :: rest => ⟨Expr.to_json_plain e, Expr.all_plain rest⟩

theorem Lambda.to_json_plain : (closure : Lambda) → closure.toJson.Plain
  | ⟨interface, method, params, returnType, body, span⟩ => by
    simp [Lambda.toJson, Plain, PlainMembers, TypeName.round_trips.plain,
      plain_items_map Variable.round_trips.plain, Ty.round_trips.plain, Stmt.all_plain body,
      Span.round_trips.plain]

theorem Target.to_json_plain : (target : Target) → target.toJson.Plain
  | .static cls => by simp [Target.toJson, Plain, PlainMembers, TypeName.round_trips.plain]
  | .instance receiver => by
    simp [Target.toJson, Plain, PlainMembers, Expr.to_json_plain receiver]

theorem MethodReference.to_json_plain : (closure : MethodReference) → closure.toJson.Plain
  | ⟨interface, method, paramTypes, returnType, target, targetMethod, span⟩ => by
    simp [MethodReference.toJson, Plain, PlainMembers, TypeName.round_trips.plain,
      plain_items_map Ty.round_trips.plain, Ty.round_trips.plain, Target.to_json_plain target,
      Span.round_trips.plain]

theorem AnonymousClass.to_json_plain : (closure : AnonymousClass) → closure.toJson.Plain
  | ⟨name, superTypes, fields, methods, span⟩ => by
    simp [AnonymousClass.toJson, Plain, PlainMembers, TypeName.round_trips.plain,
      plain_items_map TypeName.round_trips.plain, plain_items_map Field.round_trips.plain,
      Method.all_plain methods, Span.round_trips.plain]

theorem Method.to_json_plain : (m : Method) → m.toJson.Plain
  | ⟨name, isStatic, typeParams, params, returnType, body⟩ => by
    simp [Method.toJson, Plain, PlainMembers, plain_items_map TypeParameter.round_trips.plain,
      plain_items_map Variable.round_trips.plain, Ty.round_trips.plain, Stmt.all_plain body]

theorem Method.all_plain : (ms : List Method) → PlainItems (Method.toJsonAll ms)
  | [] => trivial
  | m :: rest => ⟨Method.to_json_plain m, Method.all_plain rest⟩

theorem Stmt.to_json_plain : (s : Stmt) → s.toJson.Plain
  | .expr value => by simp [Stmt.toJson, Plain, PlainMembers, Expr.to_json_plain value]
  | .ret none => by simp [Stmt.toJson, Plain, PlainMembers]
  | .ret (some value) => by simp [Stmt.toJson, Plain, PlainMembers, Expr.to_json_plain value]
  | .decl x init => by
    simp [Stmt.toJson, Plain, PlainMembers, Variable.round_trips.plain, Expr.to_json_plain init]
  | .cond condition thenBranch elseBranch => by
    simp [Stmt.toJson, Plain, PlainMembers, Expr.to_json_plain condition,
      Stmt.all_plain thenBranch, Stmt.all_plain elseBranch]
  | .loop condition body => by
    simp [Stmt.toJson, Plain, PlainMembers, Expr.to_json_plain condition, Stmt.all_plain body]

theorem Stmt.all_plain : (ss : List Stmt) → PlainItems (Stmt.toJsonAll ss)
  | [] => trivial
  | s :: rest => ⟨Stmt.to_json_plain s, Stmt.all_plain rest⟩

end

theorem Method.list_to_json (ms : List Method) : Method.toJsonAll ms = ms.map Method.toJson := by
  induction ms with
  | nil => rfl
  | cons m rest ih => rw [Method.toJsonAll, ih, List.map_cons]

theorem Expr.list_to_json (es : List Expr) : Expr.toJsonAll es = es.map Expr.toJson := by
  induction es with
  | nil => rfl
  | cons e rest ih => rw [Expr.toJsonAll, ih, List.map_cons]

theorem Stmt.list_to_json (ss : List Stmt) : Stmt.toJsonAll ss = ss.map Stmt.toJson := by
  induction ss with
  | nil => rfl
  | cons s rest ih => rw [Stmt.toJsonAll, ih, List.map_cons]

section

variable (form : PayloadForm)

mutual

theorem Expr.reads_within : (e : Expr) → (n : Nat) → e.toJson.depth ≤ n →
    Expr.ofJsonWithin form n e.toJson = some e
  | e, 0, room => by cases e <;> simp [Expr.toJson, depth] at room
  | .literal value, n + 1, _ => by
    rw [Expr.toJson]
    change (Literal.ofJson? value.toJson >>= _) = _
    rw [Literal.round_trips.reads]
    rfl
  | .reference ref, n + 1, _ => by
    rw [Expr.toJson]
    change (Reference.ofJson? ref.toJson >>= _) = _
    rw [Reference.round_trips.reads]
    rfl
  | .assign target value, n + 1, room => by
    simp only [Expr.toJson, depth, membersDepth] at room
    rw [Expr.toJson]
    change (payload? form ["target", "value"] _ >>= _) = _
    rw [read_payload (by rfl) (by decide)]
    simp [needed_some (Expr.reads_within target n (by omega)),
      needed_some (Expr.reads_within value n (by omega))]
  | .fieldAccess receiver field ty, n + 1, room => by
    simp only [Expr.toJson, depth, membersDepth] at room
    rw [Expr.toJson]
    change (payload? form ["receiver", "field", "ty"] _ >>= _) = _
    rw [read_payload (by rfl) (by decide)]
    simp [needed_some (Expr.reads_within receiver n (by omega)), text_round_trips.needed,
      Ty.round_trips.needed]
  | .methodCall receiver method args typeArgs ty, n + 1, room => by
    simp only [Expr.toJson, depth, membersDepth] at room
    rw [Expr.toJson]
    change (payload? form ["receiver", "method", "args", "type_args", "ty"] _ >>= _) = _
    rw [read_payload (by rfl) (by decide)]
    simp [needed_some (Expr.reads_within receiver n (by omega)), text_round_trips.needed,
      needed_some (Expr.all_read_within args n (by omega)), Ty.round_trips.list.optional,
      Ty.round_trips.needed]
  | .staticCall cls method args typeArgs ty, n + 1, room => by
    simp only [Expr.toJson, depth, membersDepth] at room
    rw [Expr.toJson]
    change (payload? form ["class", "method", "args", "type_args", "ty"] _ >>= _) = _
    rw [read_payload (by rfl) (by decide)]
    simp [TypeName.round_trips.needed, text_round_trips.needed,
      needed_some (Expr.all_read_within args n (by omega)), Ty.round_trips.list.optional,
      Ty.round_trips.needed]
  | .construct ty args, n + 1, room => by
    simp only [Expr.toJson, depth, membersDepth] at room
    rw [Expr.toJson]
    change (payload? form ["ty", "args"] _ >>= _) = _
    rw [read_payload (by rfl) (by decide)]
    simp [Ty.round_trips.needed, needed_some (Expr.all_read_within args n (by omega))]
  | .operation op args ty, n + 1, room => by
    simp only [Expr.toJson, depth, membersDepth] at room
    rw [Expr.toJson]
    change (payload? form ["operator", "args", "ty"] _ >>= _) = _
    rw [read_payload (by rfl) (by decide)]
    simp [Operator.round_trips.needed,
      needed_some (Expr.all_read_within args n (by omega)), Ty.round_trips.needed]
  | .conditional condition ifTrue ifFalse ty, n + 1, room => by
    simp only [Expr.toJson, depth, membersDepth] at room
    rw [Expr.toJson]
    change (payload? form ["condition", "if_true", "if_false", "ty"] _ >>= _) = _
    rw [read_payload (by rfl) (by decide)]
    simp [needed_some (Expr.reads_within condition n (by omega)),
      needed_some (Expr.reads_within ifTrue n (by omega)),
      needed_some (Expr.reads_within ifFalse n (by omega)), Ty.round_trips.needed]
  | .lambda closure, n + 1, room => by
    simp only [Expr.toJson, depth, membersDepth] at room
    rw [Expr.toJson]
    change (Lambda.ofJsonWithin form n closure.toJson >>= _) = _
    rw [Lambda.reads_within closure n (by omega)]
    rfl
  | .methodReference closure, n + 1, room => by
    simp only [Expr.toJson, depth, membersDepth] at room
    rw [Expr.toJson]
    change (MethodReference.ofJsonWithin form n closure.toJson >>= _) = _
    rw [MethodReference.reads_within closure n (by omega)]
    rfl
  | .anonymousClass closure, n + 1, room => by
    simp only [Expr.toJson, depth, membersDepth] at room
    rw [Expr.toJson]
    change (AnonymousClass.ofJsonWithin form n closure.toJson >>= _) = _
    rw [AnonymousClass.reads_within closure n (by omega)]
    rfl

theorem Expr.all_read_within : (es : List Expr) → (n : Nat) →
    itemsDepth (Expr.toJsonAll es) ≤ n →
    list? (Expr.ofJsonWithin form n) (.arr (Expr.toJsonAll es)) = some es
  | [], _, _ => rfl
  | e :: rest, n, room => by
    simp only [Expr.toJsonAll, itemsDepth] at room
    exact list_cons (Expr.reads_within e n (by omega)) (Expr.all_read_within rest n (by omega))

theorem Lambda.reads_within : (closure : Lambda) → (n : Nat) → closure.toJson.depth ≤ n →
    Lambda.ofJsonWithin form n closure.toJson = some closure
  | closure, 0, room => by cases closure; simp [Lambda.toJson, depth] at room
  | ⟨interface, method, params, returnType, body, span⟩, n + 1, room => by
    simp only [Lambda.toJson, depth, membersDepth] at room
    rw [Lambda.toJson, Lambda.ofJsonWithin, read_record (by rfl) (by decide)]
    simp [TypeName.round_trips.needed, text_round_trips.needed, Variable.round_trips.list.needed,
      Ty.round_trips.needed, needed_some (Stmt.all_read_within body n (by omega)),
      Span.round_trips.optional]

theorem Target.reads_within : (target : Target) → (n : Nat) → target.toJson.depth ≤ n →
    Target.ofJsonWithin form n target.toJson = some target
  | target, 0, room => by cases target <;> simp [Target.toJson, depth] at room
  | .static cls, n + 1, _ => by
    rw [Target.toJson]
    rfl
  | .instance receiver, n + 1, room => by
    simp only [Target.toJson, depth, membersDepth] at room
    rw [Target.toJson]
    change (Expr.ofJsonWithin form n receiver.toJson >>= _) = _
    rw [Expr.reads_within receiver n (by omega)]
    rfl

theorem MethodReference.reads_within : (closure : MethodReference) → (n : Nat) →
    closure.toJson.depth ≤ n → MethodReference.ofJsonWithin form n closure.toJson = some closure
  | closure, 0, room => by cases closure; simp [MethodReference.toJson, depth] at room
  | ⟨interface, method, paramTypes, returnType, target, targetMethod, span⟩, n + 1, room => by
    simp only [MethodReference.toJson, depth, membersDepth] at room
    rw [MethodReference.toJson, MethodReference.ofJsonWithin, read_record (by rfl) (by decide)]
    simp [TypeName.round_trips.needed, text_round_trips.needed, Ty.round_trips.list.needed,
      Ty.round_trips.needed, needed_some (Target.reads_within target n (by omega)),
      Span.round_trips.optional]

theorem AnonymousClass.reads_within : (closure : AnonymousClass) → (n : Nat) →
    closure.toJson.depth ≤ n → AnonymousClass.ofJsonWithin form n closure.toJson = some closure
  | closure, 0, room => by cases closure; simp [AnonymousClass.toJson, depth] at room
  | ⟨name, superTypes, fields, methods, span⟩, n + 1, room => by
    simp only [AnonymousClass.toJson, depth, membersDepth] at room
    rw [AnonymousClass.toJson, AnonymousClass.ofJsonWithin, read_record (by rfl) (by decide)]
    simp [TypeName.round_trips.needed, TypeName.round_trips.list.needed,
      Field.round_trips.list.optional, needed_some (Method.all_read_within methods n (by omega)),
      Span.round_trips.optional]

theorem Method.reads_within : (m : Method) → (n : Nat) → m.toJson.depth ≤ n →
    Method.ofJsonWithin form n m.toJson = some m
  | m, 0, room => by cases m; simp [Method.toJson, depth] at room
  | ⟨name, isStatic, typeParams, params, returnType, body⟩, n + 1, room => by
    simp only [Method.toJson, depth, membersDepth] at room
    rw [Method.toJson, Method.ofJsonWithin, read_record (by rfl) (by decide)]
    simp [text_round_trips.needed, bool_round_trips.optional,
      TypeParameter.round_trips.list.optional, Variable.round_trips.list.needed,
      Ty.round_trips.needed, needed_some (Stmt.all_read_within body n (by omega))]

theorem Method.all_read_within : (ms : List Method) → (n : Nat) →
    itemsDepth (Method.toJsonAll ms) ≤ n →
    list? (Method.ofJsonWithin form n) (.arr (Method.toJsonAll ms)) = some ms
  | [], _, _ => rfl
  | m :: rest, n, room => by
    simp only [Method.toJsonAll, itemsDepth] at room
    exact list_cons (Method.reads_within m n (by omega)) (Method.all_read_within rest n (by omega))

theorem Stmt.reads_within : (s : Stmt) → (n : Nat) → s.toJson.depth ≤ n →
    Stmt.ofJsonWithin form n s.toJson = some s
  | .ret none, 0, room => by simp [Stmt.toJson, depth] at room
  | .ret (some _), 0, room => by simp [Stmt.toJson, depth] at room
  | .expr _, 0, room | .decl _ _, 0, room | .cond _ _ _, 0, room | .loop _ _, 0, room => by
    simp [Stmt.toJson, depth] at room
  | .expr value, n + 1, room => by
    simp only [Stmt.toJson, depth, membersDepth] at room
    rw [Stmt.toJson]
    change (Expr.ofJsonWithin form n value.toJson >>= _) = _
    rw [Expr.reads_within value n (by omega)]
    rfl
  | .ret none, n + 1, _ => by
    rw [Stmt.toJson]
    rfl
  | .ret (some value), n + 1, room => by
    simp only [Stmt.toJson, depth, membersDepth] at room
    rw [Stmt.toJson]
    change (nullable (Expr.ofJsonWithin form n) value.toJson >>= _) = _
    rw [nullable_some (Expr.reads_within value n (by omega)) value.to_json_ne_null]
    rfl
  | .decl x init, n + 1, room => by
    simp only [Stmt.toJson, depth, membersDepth] at room
    rw [Stmt.toJson]
    change (payload? form ["declaration", "init"] _ >>= _) = _
    rw [read_payload (by rfl) (by decide)]
    simp [Variable.round_trips.needed, needed_some (Expr.reads_within init n (by omega))]
  | .cond condition thenBranch elseBranch, n + 1, room => by
    simp only [Stmt.toJson, depth, membersDepth] at room
    rw [Stmt.toJson]
    change (payload? form ["condition", "then_branch", "else_branch"] _ >>= _) = _
    rw [read_payload (by rfl) (by decide)]
    simp [needed_some (Expr.reads_within condition n (by omega)),
      needed_some (Stmt.all_read_within thenBranch n (by omega)),
      optional_some (Stmt.all_read_within elseBranch n (by omega))]
  | .loop condition body, n + 1, room => by
    simp only [Stmt.toJson, depth, membersDepth] at room
    rw [Stmt.toJson]
    change (payload? form ["condition", "body"] _ >>= _) = _
    rw [read_payload (by rfl) (by decide)]
    simp [needed_some (Expr.reads_within condition n (by omega)),
      needed_some (Stmt.all_read_within body n (by omega))]

theorem Stmt.all_read_within : (ss : List Stmt) → (n : Nat) →
    itemsDepth (Stmt.toJsonAll ss) ≤ n →
    list? (Stmt.ofJsonWithin form n) (.arr (Stmt.toJsonAll ss)) = some ss
  | [], _, _ => rfl
  | s :: rest, n, room => by
    simp only [Stmt.toJsonAll, itemsDepth] at room
    exact list_cons (Stmt.reads_within s n (by omega)) (Stmt.all_read_within rest n (by omega))

end

end

namespace Json

theorem payload_fields {form : PayloadForm} {v : Json} {names : List String}
    {build : List (Option Json) → Option α} {a : α}
    (read : (v.payload? form names >>= build) = some a) :
    ∃ fields, 0 < v.depth ∧ (∀ field ∈ fields, Below v.depth field) ∧ build fields = some a := by
  obtain ⟨fields, found, built⟩ := Option.bind_eq_some_iff.mp read
  have named : v.fields? names = some fields := by
    unfold payload? at found
    split at found
    · cases found
    · exact found
  exact ⟨fields, (fields_below named).1, (fields_below named).2, built⟩

theorem of_nullable_some {decode : Json → Option α} {v : Json} {a : α}
    (read : nullable decode v = some (some a)) : decode v = some a := by
  cases v with
  | null => cases read
  | _ => simpa [nullable] using read

theorem one_lt_of_arr {items : List Json} {k : Nat} (room : (Json.arr items).depth < k) :
    1 < k := by
  rw [depth] at room
  omega

end Json

structure ShallowWithin (form : PayloadForm) (n : Nat) : Prop where
  expr : Shallow Expr.toJson (Expr.ofJsonWithin form n)
  lambda : Shallow Lambda.toJson (Lambda.ofJsonWithin form n)
  target : Shallow Target.toJson (Target.ofJsonWithin form n)
  methodReference : Shallow MethodReference.toJson (MethodReference.ofJsonWithin form n)
  anonymousClass : Shallow AnonymousClass.toJson (AnonymousClass.ofJsonWithin form n)
  method : Shallow Method.toJson (Method.ofJsonWithin form n)
  stmt : Shallow Stmt.toJson (Stmt.ofJsonWithin form n)

namespace ShallowWithin

variable {form : PayloadForm} {n : Nat} (ih : ShallowWithin form n)
include ih

theorem exprs :
    Shallow (fun es => .arr (Expr.toJsonAll es)) (list? (Expr.ofJsonWithin form n)) := by
  simpa only [Expr.list_to_json] using ih.expr.list

theorem methods :
    Shallow (fun ms => .arr (Method.toJsonAll ms)) (list? (Method.ofJsonWithin form n)) := by
  simpa only [Method.list_to_json] using ih.method.list

theorem stmts :
    Shallow (fun ss => .arr (Stmt.toJsonAll ss)) (list? (Stmt.ofJsonWithin form n)) := by
  simpa only [Stmt.list_to_json] using ih.stmt.list

theorem expr_succ : Shallow Expr.toJson (Expr.ofJsonWithin form (n + 1)) := by
  intro v e read
  obtain ⟨choice, found, read⟩ := Option.bind_eq_some_iff.mp read
  split at read
  · obtain ⟨value, inner, done⟩ := Option.bind_eq_some_iff.mp read
    cases done
    exact case_depth_le found (Literal.round_trips.shallow _ _ inner) _
  · obtain ⟨ref, inner, done⟩ := Option.bind_eq_some_iff.mp read
    cases done
    exact case_depth_le found (Reference.round_trips.shallow _ _ inner) _
  · obtain ⟨fields, positive, below, read⟩ := payload_fields read
    split at read
    · simp only [Option.bind_eq_bind, Option.bind_eq_some_iff] at read
      obtain ⟨target, readTarget, value, readValue, done⟩ := read
      cases done
      simp only [List.forall_mem_cons] at below
      refine case_depth_le found (obj_depth_le positive ?_) _
      simp [ih.expr.needed below.1 readTarget, ih.expr.needed below.2.1 readValue]
    · cases read
  · obtain ⟨fields, positive, below, read⟩ := payload_fields read
    split at read
    · simp only [Option.bind_eq_bind, Option.bind_eq_some_iff] at read
      obtain ⟨receiver, readReceiver, field, readField, ty, readTy, done⟩ := read
      cases done
      simp only [List.forall_mem_cons] at below
      refine case_depth_le found (obj_depth_le positive ?_) _
      simp [ih.expr.needed below.1 readReceiver,
        text_round_trips.shallow.needed below.2.1 readField,
        Ty.round_trips.shallow.needed below.2.2.1 readTy]
    · cases read
  · obtain ⟨fields, positive, below, read⟩ := payload_fields read
    split at read
    · simp only [Option.bind_eq_bind, Option.bind_eq_some_iff] at read
      obtain ⟨receiver, readReceiver, method, readMethod, args, readArgs, typeArgs, readTypeArgs,
        ty, readTy, done⟩ := read
      cases done
      simp only [List.forall_mem_cons] at below
      -- Type arguments that are left out are written as an empty array, no deeper than `args`.
      have deeper := ih.exprs.needed below.2.2.1 readArgs
      refine case_depth_le found (obj_depth_le positive ?_) _
      simp [ih.expr.needed below.1 readReceiver,
        text_round_trips.shallow.needed below.2.1 readMethod, deeper,
        Ty.round_trips.list.shallow.optional below.2.2.2.1 readTypeArgs (one_lt_of_arr deeper),
        Ty.round_trips.shallow.needed below.2.2.2.2.1 readTy]
    · cases read
  · obtain ⟨fields, positive, below, read⟩ := payload_fields read
    split at read
    · simp only [Option.bind_eq_bind, Option.bind_eq_some_iff] at read
      obtain ⟨cls, readCls, method, readMethod, args, readArgs, typeArgs, readTypeArgs, ty, readTy,
        done⟩ := read
      cases done
      simp only [List.forall_mem_cons] at below
      have deeper := ih.exprs.needed below.2.2.1 readArgs
      refine case_depth_le found (obj_depth_le positive ?_) _
      simp [TypeName.round_trips.shallow.needed below.1 readCls,
        text_round_trips.shallow.needed below.2.1 readMethod, deeper,
        Ty.round_trips.list.shallow.optional below.2.2.2.1 readTypeArgs (one_lt_of_arr deeper),
        Ty.round_trips.shallow.needed below.2.2.2.2.1 readTy]
    · cases read
  · obtain ⟨fields, positive, below, read⟩ := payload_fields read
    split at read
    · simp only [Option.bind_eq_bind, Option.bind_eq_some_iff] at read
      obtain ⟨ty, readTy, args, readArgs, done⟩ := read
      cases done
      simp only [List.forall_mem_cons] at below
      refine case_depth_le found (obj_depth_le positive ?_) _
      simp [Ty.round_trips.shallow.needed below.1 readTy, ih.exprs.needed below.2.1 readArgs]
    · cases read
  · obtain ⟨fields, positive, below, read⟩ := payload_fields read
    split at read
    · simp only [Option.bind_eq_bind, Option.bind_eq_some_iff] at read
      obtain ⟨op, readOp, args, readArgs, ty, readTy, done⟩ := read
      cases done
      simp only [List.forall_mem_cons] at below
      refine case_depth_le found (obj_depth_le positive ?_) _
      simp [Operator.round_trips.shallow.needed below.1 readOp, ih.exprs.needed below.2.1 readArgs,
        Ty.round_trips.shallow.needed below.2.2.1 readTy]
    · cases read
  · obtain ⟨fields, positive, below, read⟩ := payload_fields read
    split at read
    · simp only [Option.bind_eq_bind, Option.bind_eq_some_iff] at read
      obtain ⟨condition, readCondition, ifTrue, readTrue, ifFalse, readFalse, ty, readTy, done⟩ :=
        read
      cases done
      simp only [List.forall_mem_cons] at below
      refine case_depth_le found (obj_depth_le positive ?_) _
      simp [ih.expr.needed below.1 readCondition, ih.expr.needed below.2.1 readTrue,
        ih.expr.needed below.2.2.1 readFalse, Ty.round_trips.shallow.needed below.2.2.2.1 readTy]
    · cases read
  · obtain ⟨closure, inner, done⟩ := Option.bind_eq_some_iff.mp read
    cases done
    exact case_depth_le found (ih.lambda _ _ inner) _
  · obtain ⟨closure, inner, done⟩ := Option.bind_eq_some_iff.mp read
    cases done
    exact case_depth_le found (ih.methodReference _ _ inner) _
  · obtain ⟨closure, inner, done⟩ := Option.bind_eq_some_iff.mp read
    cases done
    exact case_depth_le found (ih.anonymousClass _ _ inner) _
  · cases read

theorem lambda_succ : Shallow Lambda.toJson (Lambda.ofJsonWithin form (n + 1)) := by
  intro v closure read
  obtain ⟨fields, positive, below, read⟩ := record_fields read
  split at read
  · simp only [Option.bind_eq_bind, Option.bind_eq_some_iff] at read
    obtain ⟨interface, readInterface, method, readMethod, params, readParams, returnType,
      readReturn, body, readBody, span, readSpan, done⟩ := read
    cases done
    simp only [List.forall_mem_cons] at below
    have deeper := ih.stmts.needed below.2.2.2.2.1 readBody
    apply obj_depth_le positive
    simp [TypeName.round_trips.shallow.needed below.1 readInterface,
      text_round_trips.shallow.needed below.2.1 readMethod,
      Variable.round_trips.list.shallow.needed below.2.2.1 readParams,
      Ty.round_trips.shallow.needed below.2.2.2.1 readReturn, deeper,
      Span.round_trips.shallow.optional below.2.2.2.2.2.1 readSpan (one_lt_of_arr deeper)]
  · cases read

theorem target_succ : Shallow Target.toJson (Target.ofJsonWithin form (n + 1)) := by
  intro v target read
  obtain ⟨choice, found, read⟩ := Option.bind_eq_some_iff.mp read
  split at read
  · obtain ⟨cls, inner, done⟩ := Option.bind_eq_some_iff.mp read
    cases done
    exact case_depth_le found (TypeName.round_trips.shallow _ _ inner) _
  · obtain ⟨receiver, inner, done⟩ := Option.bind_eq_some_iff.mp read
    cases done
    exact case_depth_le found (ih.expr _ _ inner) _
  · cases read

theorem method_reference_succ :
    Shallow MethodReference.toJson (MethodReference.ofJsonWithin form (n + 1)) := by
  intro v closure read
  obtain ⟨fields, positive, below, read⟩ := record_fields read
  split at read
  · simp only [Option.bind_eq_bind, Option.bind_eq_some_iff] at read
    obtain ⟨interface, readInterface, method, readMethod, paramTypes, readParams, returnType,
      readReturn, target, readTarget, targetMethod, readName, span, readSpan, done⟩ := read
    cases done
    simp only [List.forall_mem_cons] at below
    have deeper := Ty.round_trips.list.shallow.needed below.2.2.1 readParams
    apply obj_depth_le positive
    simp [TypeName.round_trips.shallow.needed below.1 readInterface,
      text_round_trips.shallow.needed below.2.1 readMethod, deeper,
      Ty.round_trips.shallow.needed below.2.2.2.1 readReturn,
      ih.target.needed below.2.2.2.2.1 readTarget,
      text_round_trips.shallow.needed below.2.2.2.2.2.1 readName,
      Span.round_trips.shallow.optional below.2.2.2.2.2.2.1 readSpan (one_lt_of_arr deeper)]
  · cases read

theorem anonymous_class_succ :
    Shallow AnonymousClass.toJson (AnonymousClass.ofJsonWithin form (n + 1)) := by
  intro v closure read
  obtain ⟨fields, positive, below, read⟩ := record_fields read
  split at read
  · simp only [Option.bind_eq_bind, Option.bind_eq_some_iff] at read
    obtain ⟨name, readName, superTypes, readSuper, fields, readFields, methods, readMethods, span,
      readSpan, done⟩ := read
    cases done
    simp only [List.forall_mem_cons] at below
    have deeper := ih.methods.needed below.2.2.2.1 readMethods
    apply obj_depth_le positive
    simp [TypeName.round_trips.shallow.needed below.1 readName,
      TypeName.round_trips.list.shallow.needed below.2.1 readSuper,
      Field.round_trips.list.shallow.optional below.2.2.1 readFields (one_lt_of_arr deeper), deeper,
      Span.round_trips.shallow.optional below.2.2.2.2.1 readSpan (one_lt_of_arr deeper)]
  · cases read

theorem method_succ : Shallow Method.toJson (Method.ofJsonWithin form (n + 1)) := by
  intro v m read
  obtain ⟨fields, positive, below, read⟩ := record_fields read
  split at read
  · simp only [Option.bind_eq_bind, Option.bind_eq_some_iff] at read
    obtain ⟨name, readName, isStatic, readStatic, typeParams, readTypeParams, params, readParams,
      returnType, readReturn, body, readBody, done⟩ := read
    cases done
    simp only [List.forall_mem_cons] at below
    have deeper := ih.stmts.needed below.2.2.2.2.2.1 readBody
    apply obj_depth_le positive
    simp [text_round_trips.shallow.needed below.1 readName,
      bool_round_trips.shallow.optional below.2.1 readStatic positive,
      TypeParameter.round_trips.list.shallow.optional below.2.2.1 readTypeParams
        (one_lt_of_arr deeper),
      Variable.round_trips.list.shallow.needed below.2.2.2.1 readParams,
      Ty.round_trips.shallow.needed below.2.2.2.2.1 readReturn, deeper]
  · cases read

theorem stmt_succ : Shallow Stmt.toJson (Stmt.ofJsonWithin form (n + 1)) := by
  intro v s read
  obtain ⟨choice, found, read⟩ := Option.bind_eq_some_iff.mp read
  split at read
  · obtain ⟨value, inner, done⟩ := Option.bind_eq_some_iff.mp read
    cases done
    exact case_depth_le found (ih.expr _ _ inner) _
  · obtain ⟨value, inner, done⟩ := Option.bind_eq_some_iff.mp read
    cases done
    cases value with
    | none => exact case_depth_le found (Nat.zero_le _) _
    | some value => exact case_depth_le found (ih.expr _ _ (of_nullable_some inner)) _
  · obtain ⟨fields, positive, below, read⟩ := payload_fields read
    split at read
    · simp only [Option.bind_eq_bind, Option.bind_eq_some_iff] at read
      obtain ⟨x, readX, init, readInit, done⟩ := read
      cases done
      simp only [List.forall_mem_cons] at below
      refine case_depth_le found (obj_depth_le positive ?_) _
      simp [Variable.round_trips.shallow.needed below.1 readX, ih.expr.needed below.2.1 readInit]
    · cases read
  · obtain ⟨fields, positive, below, read⟩ := payload_fields read
    split at read
    · simp only [Option.bind_eq_bind, Option.bind_eq_some_iff] at read
      obtain ⟨condition, readCondition, thenBranch, readThen, elseBranch, readElse, done⟩ := read
      cases done
      simp only [List.forall_mem_cons] at below
      have deeper := ih.stmts.needed below.2.1 readThen
      refine case_depth_le found (obj_depth_le positive ?_) _
      simp [ih.expr.needed below.1 readCondition, deeper,
        ih.stmts.optional below.2.2.1 readElse (one_lt_of_arr deeper)]
    · cases read
  · obtain ⟨fields, positive, below, read⟩ := payload_fields read
    split at read
    · simp only [Option.bind_eq_bind, Option.bind_eq_some_iff] at read
      obtain ⟨condition, readCondition, body, readBody, done⟩ := read
      cases done
      simp only [List.forall_mem_cons] at below
      refine case_depth_le found (obj_depth_le positive ?_) _
      simp [ih.expr.needed below.1 readCondition, ih.stmts.needed below.2.1 readBody]
    · cases read
  · cases read

end ShallowWithin

-- The decoders of the syntax call each other, so they go down by one together.
theorem shallow_within (form : PayloadForm) (n : Nat) : ShallowWithin form n := by
  induction n with
  | zero => constructor <;> intro _ _ read <;> cases read
  | succ n ih =>
    exact ⟨ih.expr_succ, ih.lambda_succ, ih.target_succ, ih.method_reference_succ,
      ih.anonymous_class_succ, ih.method_succ, ih.stmt_succ⟩

end ClosureLift
