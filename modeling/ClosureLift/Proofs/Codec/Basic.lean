import ClosureLift.Codec.Basic
import ClosureLift.Proofs.Json.Reading

/-!
Codecs that lose nothing. What is written is read back, and a value is never written deeper than it
was read; the second is what keeps texts readable that were read and written once.
-/
namespace ClosureLift

/-- Nothing is written deeper than it was read. -/
def Shallow (encode : α → Json) (decode : Json → Option α) : Prop :=
  ∀ v a, decode v = some a → (encode a).depth ≤ v.depth

structure RoundTrips (encode : α → Json) (decode : Json → Option α) : Prop where
  plain (a : α) : (encode a).Plain
  reads (a : α) : decode (encode a) = some a
  shallow : Shallow encode decode

namespace Json

/-- A field that is there is not as deep as the value it is a field of. -/
def Below (k : Nat) (field : Option Json) : Prop := ∀ v, field = some v → v.depth < k

theorem member_below {name : String} {members : List (String × Json)} {field : Option Json}
    (found : member? name members = some field) : Below (membersDepth members + 1) field := by
  induction members with
  | nil =>
    cases found
    intro v held
    cases held
  | cons m rest ih =>
    obtain ⟨key, v⟩ := m
    unfold member? at found
    split at found
    · split at found
      · cases found
      · cases found
        intro w held
        cases held
        simp only [membersDepth]
        omega
    · intro w held
      have := ih found w held
      simp only [membersDepth]
      omega

theorem member_found {name : String} {v : Json} {members : List (String × Json)}
    (distinct : (members.map (·.1)).Nodup) (among : (name, v) ∈ members) :
    member? name members = some (some v) := by
  induction members with
  | nil => cases among
  | cons m rest ih =>
    obtain ⟨key, w⟩ := m
    rw [List.map_cons, List.nodup_cons] at distinct
    rcases List.mem_cons.mp among with same | later
    · cases same
      have once : ¬ rest.any (·.1 == name) = true := by
        intro again
        obtain ⟨other, inside, equal⟩ := List.any_eq_true.mp again
        exact distinct.1 (List.mem_map.mpr ⟨other, inside, eq_of_beq equal⟩)
      rw [member?, if_pos rfl, if_neg once]
    · have other : key ≠ name := by
        intro equal
        exact distinct.1 (List.mem_map.mpr ⟨(name, v), later, equal.symm⟩)
      rw [member?, if_neg other]
      exact ih distinct.2 later

theorem each_found {members wanted : List (String × Json)}
    (found : ∀ m ∈ wanted, member? m.1 members = some (some m.2)) :
    (wanted.map (·.1)).mapM (member? · members) = some (wanted.map fun m => some m.2) := by
  induction wanted with
  | nil => rfl
  | cons m rest ih =>
    have later := ih fun other among => found other (List.mem_cons_of_mem m among)
    rw [List.map_cons, List.mapM_cons, found m List.mem_cons_self, later]
    rfl

theorem read_tagged {tag : String} {kind : Json} {names : List String}
    {members : List (String × Json)} {build : List (Option Json) → Option α}
    (same : members.map (·.1) = names) (distinct : (tag :: names).Nodup) :
    ((Json.obj ((tag, kind) :: members)).fields? names >>= build) =
      build (members.map fun m => some m.2) := by
  subst same
  have found : ∀ m ∈ members, member? m.1 ((tag, kind) :: members) = some (some m.2) :=
    fun m among => member_found distinct (List.mem_cons_of_mem _ among)
  rw [fields?, each_found found]
  rfl

theorem read_record {names : List String} {members : List (String × Json)}
    {build : List (Option Json) → Option α} (same : members.map (·.1) = names)
    (distinct : names.Nodup) :
    ((Json.obj members).fields? names >>= build) = build (members.map fun m => some m.2) := by
  subst same
  have found : ∀ m ∈ members, member? m.1 members = some (some m.2) :=
    fun m among => member_found distinct among
  rw [fields?, each_found found]
  rfl

theorem needed_some {decode : Json → Option α} {v : Json} {a : α} (read : decode v = some a) :
    needed decode (some v) = some a := read

theorem optional_some {decode : Json → Option α} {v : Json} {default a : α}
    (read : decode v = some a) : optional default decode (some v) = some a := read

theorem each_some {f : α → Option β} {as : List α} {bs : List β} (run : as.mapM f = some bs) :
    ∀ b ∈ bs, ∃ a ∈ as, f a = some b := by
  induction as generalizing bs with
  | nil =>
    cases run
    simp
  | cons a rest ih =>
    rw [List.mapM_cons] at run
    simp only [Option.bind_eq_bind, Option.bind_eq_some_iff] at run
    obtain ⟨first, here, later, there, done⟩ := run
    cases done
    intro b member
    rcases List.mem_cons.mp member with rfl | among
    · exact ⟨a, List.mem_cons_self, here⟩
    · obtain ⟨a', inside, same⟩ := ih there b among
      exact ⟨a', List.mem_cons_of_mem a inside, same⟩

theorem fields_below {names : List String} {v : Json} {fields : List (Option Json)}
    (found : v.fields? names = some fields) :
    0 < v.depth ∧ ∀ field ∈ fields, Below v.depth field := by
  cases v with
  | obj members =>
    refine ⟨Nat.succ_pos _, ?_⟩
    intro field among
    obtain ⟨name, _, here⟩ := each_some found field among
    exact member_below here
  | arr items =>
    refine ⟨Nat.succ_pos _, ?_⟩
    simp only [fields?] at found
    split at found
    · cases found
      intro field among v held
      subst held
      rcases List.mem_append.mp among with listed | missing
      · obtain ⟨w, inside, same⟩ := List.mem_map.mp listed
        cases same
        exact Nat.lt_succ_of_le (items_depth_le.mp (Nat.le_refl _) v inside)
      · cases (List.mem_replicate.mp missing).2
    · cases found
  | _ => cases found

theorem record_fields {v : Json} {names : List String} {build : List (Option Json) → Option α}
    {a : α} (read : (v.fields? names >>= build) = some a) :
    ∃ fields, 0 < v.depth ∧ (∀ field ∈ fields, Below v.depth field) ∧ build fields = some a := by
  obtain ⟨fields, found, built⟩ := Option.bind_eq_some_iff.mp read
  exact ⟨fields, (fields_below found).1, (fields_below found).2, built⟩

theorem list_cons {decode : Json → Option α} {v : Json} {items : List Json} {a : α} {as : List α}
    (first : decode v = some a) (later : list? decode (.arr items) = some as) :
    list? decode (.arr (v :: items)) = some (a :: as) := by
  simp only [list?] at later ⊢
  rw [List.mapM_cons, first, later]
  rfl

theorem plain_items_map {encode : α → Json} (plain : ∀ a, (encode a).Plain) (as : List α) :
    PlainItems (as.map encode) := by
  induction as with
  | nil => trivial
  | cons a rest ih => exact ⟨plain a, ih⟩

theorem list_map {encode : α → Json} {decode : Json → Option α}
    (reads : ∀ a, decode (encode a) = some a) (as : List α) :
    list? decode (.arr (as.map encode)) = some as := by
  induction as with
  | nil => rfl
  | cons a rest ih => exact list_cons (reads a) ih

theorem of_needed {decode : Json → Option α} {field : Option Json} {a : α}
    (read : needed decode field = some a) : ∃ v, field = some v ∧ decode v = some a := by
  cases field with
  | none => cases read
  | some v => exact ⟨v, rfl, read⟩

theorem obj_depth_le {members : List (String × Json)} {k : Nat} (positive : 0 < k)
    (each : ∀ m ∈ members, m.2.depth < k) : (Json.obj members).depth ≤ k := by
  have shallow : membersDepth members ≤ k - 1 :=
    members_depth_le.mpr fun m member => by have := each m member; omega
  rw [depth]
  omega

end Json

open Json

namespace Shallow

variable {encode : α → Json} {decode : Json → Option α} (shallow : Shallow encode decode)
include shallow

theorem needed {field : Option Json} {k : Nat} {a : α} (below : Below k field)
    (read : Json.needed decode field = some a) : (encode a).depth < k := by
  obtain ⟨v, held, decoded⟩ := of_needed read
  exact Nat.lt_of_le_of_lt (shallow v a decoded) (below v held)

theorem optional {field : Option Json} {k : Nat} {default a : α} (below : Below k field)
    (read : Json.optional default decode field = some a) (small : (encode default).depth < k) :
    (encode a).depth < k := by
  cases field with
  | none =>
    cases read
    exact small
  | some v => exact Nat.lt_of_le_of_lt (shallow _ _ read) (below v rfl)

theorem list : Shallow (fun as => .arr (as.map encode)) (list? decode) := by
  intro v as read
  cases v with
  | arr items =>
    rw [depth, depth]
    refine Nat.succ_le_succ (items_depth_le.mpr ?_)
    intro w member
    obtain ⟨a, among, rfl⟩ := List.mem_map.mp member
    obtain ⟨item, inside, same⟩ := each_some read a among
    exact Nat.le_trans (shallow _ _ same) (items_depth_le.mp (Nat.le_refl _) item inside)
  | _ => cases read

end Shallow

namespace RoundTrips

variable {encode : α → Json} {decode : Json → Option α} (codec : RoundTrips encode decode)
include codec

theorem needed (a : α) : Json.needed decode (some (encode a)) = some a :=
  needed_some (codec.reads a)

theorem optional (default a : α) : Json.optional default decode (some (encode a)) = some a :=
  optional_some (codec.reads a)

theorem list : RoundTrips (fun as => .arr (as.map encode)) (list? decode) where
  plain := plain_items_map codec.plain
  reads := list_map codec.reads
  shallow := codec.shallow.list

end RoundTrips

theorem text_round_trips : RoundTrips Json.str Json.text? where
  plain _ := trivial
  reads _ := rfl
  shallow _ _ _ := Nat.zero_le _

theorem TypeName.round_trips : RoundTrips TypeName.toJson TypeName.ofJson? where
  plain _ := trivial
  reads _ := rfl
  shallow _ _ _ := Nat.zero_le _

theorem TypeParameter.round_trips : RoundTrips TypeParameter.toJson TypeParameter.ofJson? where
  plain _ := ⟨trivial, trivial, trivial⟩
  reads p := by
    rw [TypeParameter.toJson, TypeParameter.ofJson?, read_record (by rfl) (by decide)]
    simp [TypeName.round_trips.needed, text_round_trips.needed]
  shallow := by
    intro v p read
    obtain ⟨fields, positive, below, read⟩ := record_fields read
    split at read
    · simp only [Option.bind_eq_bind, Option.bind_eq_some_iff] at read
      obtain ⟨declaration, here, name, there, done⟩ := read
      cases done
      simp only [List.forall_mem_cons] at below
      apply obj_depth_le positive
      simp [TypeName.round_trips.shallow.needed below.1 here,
        text_round_trips.shallow.needed below.2.1 there]
    · cases read

namespace Json

mutual

theorem plain_readable : (v : Json) → v.Plain → v.isReadable = true
  | .null, _ | .bool _, _ | .int _, _ | .str _, _ => rfl
  | .arr items, plain => by
    rw [isReadable]
    exact plain_items_readable items plain
  | .obj members, plain => by
    rw [isReadable]
    exact plain_members_readable members plain

theorem plain_items_readable : (items : List Json) → PlainItems items → allReadable items = true
  | [], _ => rfl
  | v :: rest, plain => by
    rw [allReadable, plain_readable v plain.1, plain_items_readable rest plain.2]
    rfl

theorem plain_members_readable : (members : List (String × Json)) → PlainMembers members →
    membersReadable members = true
  | [], _ => rfl
  | (_, v) :: rest, plain => by
    rw [membersReadable, plain_readable v plain.1, plain_members_readable rest plain.2]
    rfl

end

end Json

namespace Ty

theorem list_to_json (tys : List Ty) : toJsonAll tys = tys.map toJson := by
  induction tys with
  | nil => rfl
  | cons ty rest ih => rw [toJsonAll, ih, List.map_cons]

mutual

theorem to_json_plain : (ty : Ty) → ty.toJson.Plain
  | .scalar name => by simp [toJson, Plain, PlainMembers, TypeName.round_trips.plain]
  | .parameter p => by simp [toJson, Plain, PlainMembers, TypeParameter.round_trips.plain]
  | .bound p value => by
    simp [toJson, Plain, PlainMembers, TypeParameter.round_trips.plain, to_json_plain value]
  | .parameterized raw args => by
    simp [toJson, Plain, PlainMembers, TypeName.round_trips.plain, all_plain args]

theorem all_plain : (tys : List Ty) → PlainItems (toJsonAll tys)
  | [] => trivial
  | ty :: rest => ⟨to_json_plain ty, all_plain rest⟩

end

theorem read_kind {inner : Bool} {kind : String} {members : List (String × Json)}
    {build : String × Json → Option α} (distinct : ("kind" :: members.map (·.1)).Nodup) :
    (kind? inner (.obj (("kind", .str kind) :: members)) >>= build) =
      build (kind, .obj (("kind", .str kind) :: members)) := by
  have found : member? "kind" (("kind", .str kind) :: members) = some (some (.str kind)) :=
    member_found distinct List.mem_cons_self
  rw [kind?, found]
  rfl

mutual

theorem reads_within (inner : Bool) : (ty : Ty) → (n : Nat) → ty.toJson.depth ≤ n →
    ofJsonWithin inner n ty.toJson = some ty
  | ty, 0, room => by cases ty <;> simp [toJson, depth] at room
  | .scalar name, n + 1, _ => by
    rw [toJson, ofJsonWithin, read_kind (by simp)]
    change (fields? ["name"] _ >>= _) = _
    rw [read_tagged (by rfl) (by decide)]
    simp [TypeName.round_trips.needed]
  | .parameter p, n + 1, _ => by
    rw [toJson, ofJsonWithin, read_kind (by simp)]
    change (fields? ["parameter"] _ >>= _) = _
    rw [read_tagged (by rfl) (by decide)]
    simp [TypeParameter.round_trips.needed]
  | .bound p value, n + 1, room => by
    simp only [toJson, depth, membersDepth] at room
    rw [toJson, ofJsonWithin, read_kind (by simp)]
    change (fields? ["parameter", "value"] _ >>= _) = _
    rw [read_tagged (by rfl) (by decide)]
    simp [TypeParameter.round_trips.needed, needed_some (reads_within true value n (by omega))]
  | .parameterized raw args, n + 1, room => by
    simp only [toJson, depth, membersDepth] at room
    rw [toJson, ofJsonWithin, read_kind (by simp)]
    change (fields? ["raw", "parameters"] _ >>= _) = _
    rw [read_tagged (by rfl) (by decide)]
    simp [TypeName.round_trips.needed, needed_some (all_read_within args n (by omega))]

theorem all_read_within : (tys : List Ty) → (n : Nat) → itemsDepth (toJsonAll tys) ≤ n →
    list? (ofJsonWithin true n) (.arr (toJsonAll tys)) = some tys
  | [], _, _ => rfl
  | ty :: rest, n, room => by
    simp only [toJsonAll, itemsDepth] at room
    exact list_cons (reads_within true ty n (by omega)) (all_read_within rest n (by omega))

end

theorem kind_body {inner : Bool} {v body : Json} {kind : String}
    (found : kind? inner v = some (kind, body)) : body.depth ≤ v.depth := by
  unfold kind? at found
  split at found
  · simp only [Option.bind_eq_bind, Option.bind_eq_some_iff] at found
    obtain ⟨_, _, _, _, done⟩ := found
    cases done
    exact Nat.le_refl _
  · simp only [Option.bind_eq_bind, Option.bind_eq_some_iff] at found
    obtain ⟨_, _, done⟩ := found
    cases done
    simp only [depth, itemsDepth]
    omega
  · cases found

theorem shallow_within (n : Nat) (inner : Bool) : Shallow toJson (ofJsonWithin inner n) := by
  induction n generalizing inner with
  | zero =>
    intro v ty read
    cases read
  | succ n ih =>
    intro v ty read
    obtain ⟨kind, found, read⟩ := Option.bind_eq_some_iff.mp read
    split at read
    · refine Nat.le_trans ?_ (kind_body found)
      obtain ⟨fields, positive, below, read⟩ := record_fields read
      split at read
      · obtain ⟨name, here, done⟩ := Option.bind_eq_some_iff.mp read
        cases done
        apply obj_depth_le positive
        simp [TypeName.toJson, depth, positive]
      · cases read
    · refine Nat.le_trans ?_ (kind_body found)
      obtain ⟨fields, positive, below, read⟩ := record_fields read
      split at read
      · obtain ⟨param, here, done⟩ := Option.bind_eq_some_iff.mp read
        cases done
        simp only [List.forall_mem_cons] at below
        apply obj_depth_le positive
        simp [depth, positive, TypeParameter.round_trips.shallow.needed below.1 here]
      · cases read
    · refine Nat.le_trans ?_ (kind_body found)
      obtain ⟨fields, positive, below, read⟩ := record_fields read
      split at read
      · simp only [Option.bind_eq_bind, Option.bind_eq_some_iff] at read
        obtain ⟨param, here, value, there, done⟩ := read
        cases done
        simp only [List.forall_mem_cons] at below
        apply obj_depth_le positive
        simp [depth, positive, TypeParameter.round_trips.shallow.needed below.1 here,
          (ih true).needed below.2.1 there]
      · cases read
    · refine Nat.le_trans ?_ (kind_body found)
      obtain ⟨fields, positive, below, read⟩ := record_fields read
      split at read
      · simp only [Option.bind_eq_bind, Option.bind_eq_some_iff] at read
        obtain ⟨raw, here, args, there, done⟩ := read
        cases done
        simp only [List.forall_mem_cons] at below
        apply obj_depth_le positive
        have listed := (ih true).list.needed below.2.1 there
        simpa [TypeName.toJson, depth, positive, list_to_json] using listed
      · cases read
    · cases read

theorem round_trips : RoundTrips toJson ofJson? where
  plain := to_json_plain
  reads ty := by
    rw [ofJson?, if_pos (plain_readable _ (to_json_plain ty))]
    exact reads_within false ty _ (Nat.le_refl _)
  shallow := by
    intro v ty read
    unfold ofJson? at read
    split at read
    · exact shallow_within _ _ v ty read
    · cases read

end Ty

theorem bool_round_trips : RoundTrips Json.bool Json.bool? where
  plain _ := trivial
  reads _ := rfl
  shallow _ _ _ := Nat.zero_le _

-- Over a variable: on a written number the bounds would be compared by counting up to them.
theorem Json.uint32_of_int {v : Json} {n : Int} (held : v.int? = some n)
    (fits : 0 ≤ n ∧ n < UInt32.size) : v.uint32? = some (UInt32.ofNat n.toNat) := by
  simp only [uint32?, held, Option.bind_eq_bind, Option.bind_some, if_pos fits]

theorem uint32_round_trips : RoundTrips Json.ofUInt32 Json.uint32? where
  plain n := by
    have below := n.toNat_lt
    simp only [ofUInt32, Plain, UInt64.size]
    omega
  reads n := by
    have fits : 0 ≤ (n.toNat : Int) ∧ (n.toNat : Int) < UInt32.size :=
      ⟨Int.natCast_nonneg _, Int.ofNat_lt.mpr n.toNat_lt_size⟩
    have held : (ofUInt32 n).int? = some n.toNat := rfl
    rw [uint32_of_int held fits, Int.toNat_natCast, UInt32.ofNat_toNat]
  shallow _ _ _ := Nat.zero_le _

namespace Segment

theorem to_json_depth (s : Segment) : s.toJson.depth = 1 := by
  cases s <;> rfl

theorem round_trips : RoundTrips toJson ofJson? where
  plain s := by cases s <;> simp [toJson, Plain, PlainMembers]
  reads s := by cases s <;> rfl
  shallow := by
    intro v s read
    -- A segment is read from an object or an array, and both are as deep as what is written.
    rw [to_json_depth]
    cases v with
    | obj members => exact Nat.succ_pos _
    | arr items => exact Nat.succ_pos _
    | _ => cases read

end Segment

theorem Identifier.round_trips : RoundTrips Identifier.toJson Identifier.ofJson? where
  plain id := Segment.round_trips.list.plain id.segments
  reads id := by
    have listed := Segment.round_trips.list.reads id.segments
    simp only [Identifier.ofJson?, Identifier.toJson, listed, Option.map_some]
  shallow := by
    intro v id read
    obtain ⟨segments, listed, rfl⟩ := Option.map_eq_some_iff.mp read
    exact Segment.round_trips.list.shallow v segments listed

theorem SourceFiles.round_trips : RoundTrips SourceFiles.toJson SourceFiles.ofJson? where
  plain files := text_round_trips.list.plain files.paths
  reads files := by
    have listed := text_round_trips.list.reads files.paths
    simp only [SourceFiles.ofJson?, SourceFiles.toJson, ofTexts, listed, Option.map_some]
  shallow := by
    intro v files read
    obtain ⟨paths, listed, rfl⟩ := Option.map_eq_some_iff.mp read
    exact text_round_trips.list.shallow v paths listed

theorem Span.round_trips : RoundTrips Span.toJson Span.ofJson? where
  plain span := by simp [Span.toJson, Plain, PlainMembers, uint32_round_trips.plain]
  reads span := by
    rw [Span.toJson, Span.ofJson?, read_record (by rfl) (by decide)]
    simp [uint32_round_trips.needed]
  shallow := by
    intro v span read
    obtain ⟨fields, positive, below, read⟩ := record_fields read
    apply obj_depth_le positive
    simp [ofUInt32, depth, positive]

theorem Variable.round_trips : RoundTrips Variable.toJson Variable.ofJson? where
  plain x := by
    simp [Variable.toJson, Plain, PlainMembers, Identifier.round_trips.plain, Ty.round_trips.plain]
  reads x := by
    rw [Variable.toJson, Variable.ofJson?, read_record (by rfl) (by decide)]
    simp [Identifier.round_trips.needed, text_round_trips.needed, Ty.round_trips.needed]
  shallow := by
    intro v x read
    obtain ⟨fields, positive, below, read⟩ := record_fields read
    split at read
    · simp only [Option.bind_eq_bind, Option.bind_eq_some_iff] at read
      obtain ⟨id, hereId, name, _, ty, hereTy, done⟩ := read
      cases done
      simp only [List.forall_mem_cons] at below
      apply obj_depth_le positive
      simp [depth, positive, Identifier.round_trips.shallow.needed below.1 hereId,
        Ty.round_trips.shallow.needed below.2.2.1 hereTy]
    · cases read

theorem Field.round_trips : RoundTrips Field.toJson Field.ofJson? where
  plain f := by simp [Field.toJson, Plain, PlainMembers, Ty.round_trips.plain]
  reads f := by
    rw [Field.toJson, Field.ofJson?, read_record (by rfl) (by decide)]
    simp [text_round_trips.needed, Ty.round_trips.needed, bool_round_trips.optional]
  shallow := by
    intro v f read
    obtain ⟨fields, positive, below, read⟩ := record_fields read
    split at read
    · simp only [Option.bind_eq_bind, Option.bind_eq_some_iff] at read
      obtain ⟨name, _, ty, hereTy, isStatic, _, done⟩ := read
      cases done
      simp only [List.forall_mem_cons] at below
      apply obj_depth_le positive
      simp [depth, positive, Ty.round_trips.shallow.needed below.2.1 hereTy]
    · cases read

theorem Json.case_payload {v payload : Json} {name : String}
    (found : v.case? = some (name, some payload)) : payload.depth < v.depth := by
  unfold case? at found
  split at found
  · cases found
  · cases found
    simp only [depth, membersDepth]
    omega
  · cases found

theorem Json.case_depth_le {v payload inner : Json} {name : String}
    (found : v.case? = some (name, some payload)) (shallow : inner.depth ≤ payload.depth)
    (written : String) : (Json.obj [(written, inner)]).depth ≤ v.depth := by
  have below := case_payload found
  simp only [depth, membersDepth]
  omega

theorem Reference.round_trips : RoundTrips Reference.toJson Reference.ofJson? where
  plain ref := by
    cases ref <;>
      simp [Reference.toJson, Plain, PlainMembers, Variable.round_trips.plain,
        TypeName.round_trips.plain]
  reads ref := by
    cases ref <;>
      simp [Reference.ofJson?, Reference.toJson, case?, Variable.round_trips.reads,
        TypeName.round_trips.reads]
  shallow := by
    intro v ref read
    obtain ⟨choice, found, read⟩ := Option.bind_eq_some_iff.mp read
    split at read
    · obtain ⟨x, inner, done⟩ := Option.bind_eq_some_iff.mp read
      cases done
      exact case_depth_le found (Variable.round_trips.shallow _ _ inner) _
    · obtain ⟨cls, inner, done⟩ := Option.bind_eq_some_iff.mp read
      cases done
      exact case_depth_le found (TypeName.round_trips.shallow _ _ inner) _
    · cases read

theorem int64_round_trips : RoundTrips (fun n : Int64 => .int n.toInt) Json.int64? where
  plain n := by
    have lower := n.le_toInt
    have upper := n.toInt_lt
    simp only [Plain, UInt64.size]
    omega
  reads n := by
    have fits : Int64.minValue.toInt ≤ n.toInt ∧ n.toInt ≤ Int64.maxValue.toInt :=
      ⟨n.minValue_le_toInt, n.toInt_le⟩
    simp only [int64?, int?, Option.bind_eq_bind, Option.bind_some, if_pos fits, Int64.ofInt_toInt]
  shallow _ _ _ := Nat.zero_le _

theorem Literal.round_trips : RoundTrips Literal.toJson Literal.ofJson? where
  plain value := by
    cases value with
    | integer n => exact ⟨int64_round_trips.plain n, trivial⟩
    | _ => simp [Literal.toJson, Plain, PlainMembers]
  reads value := by
    cases value with
    | integer n =>
      have held : int64? (.int n.toInt) = some n := int64_round_trips.reads n
      simp [Literal.ofJson?, Literal.toJson, case?, held]
    | _ => simp [Literal.ofJson?, Literal.toJson, case?, bool?, text?]
  shallow := by
    intro v value read
    obtain ⟨choice, found, read⟩ := Option.bind_eq_some_iff.mp read
    split at read
    · cases read
      exact Nat.zero_le _
    · cases read
      exact Nat.zero_le _
    · obtain ⟨b, _, done⟩ := Option.bind_eq_some_iff.mp read
      cases done
      exact case_depth_le found (Nat.zero_le _) _
    · obtain ⟨n, _, done⟩ := Option.bind_eq_some_iff.mp read
      cases done
      exact case_depth_le found (Nat.zero_le _) _
    · obtain ⟨text, _, done⟩ := Option.bind_eq_some_iff.mp read
      cases done
      exact case_depth_le found (Nat.zero_le _) _
    · cases read

theorem Operator.round_trips : RoundTrips Operator.toJson Operator.ofJson? where
  plain _ := trivial
  reads op := by cases op <;> decide
  shallow _ _ _ := Nat.zero_le _

end ClosureLift
