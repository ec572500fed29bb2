import ClosureLift.Proofs.Json.Lexing

/-!
Reading values back. The tokens of a value that nests no deeper than the reader allows are read as
that value, wherever in a text they stand; and a value that is read nests no deeper than the reader
allows.
-/
namespace ClosureLift

namespace Json

abbrev resume (limit : Nat) (state : Reading) (ts : List Token) : Option Reading :=
  ts.foldlM (step limit) state

theorem resume_cons (limit : Nat) (state : Reading) (t : Token) (ts : List Token) :
    resume limit state (t :: ts) = (step limit state t).bind fun next => resume limit next ts :=
  List.foldlM_cons

theorem first_token (v : Json) : ∃ t ts, v.tokens = t :: ts ∧
    ∀ limit stack, step limit (.firstItem stack) t = step limit (.value stack) t := by
  cases v with
  | arr items => exact ⟨_, _, rfl, fun _ _ => rfl⟩
  | obj members => exact ⟨_, _, rfl, fun _ _ => rfl⟩
  | _ => exact ⟨_, _, rfl, fun _ _ => rfl⟩

theorem item_tokens_head (v : Json) (more : List Json) :
    ∃ ts, itemTokens (v :: more) = v.tokens ++ ts := by
  cases more with
  | nil => exact ⟨[], (List.append_nil _).symm⟩
  | cons w more => exact ⟨_, rfl⟩

theorem resume_first_item (limit : Nat) {items : List Json} (some : items ≠ [])
    (stack : List Bracket) (ts : List Token) :
    resume limit (.firstItem stack) (itemTokens items ++ ts) =
      resume limit (.value stack) (itemTokens items ++ ts) := by
  cases items with
  | nil => exact absurd rfl some
  | cons v more =>
    obtain ⟨us, split⟩ := item_tokens_head v more
    obtain ⟨t, rest, first, same⟩ := first_token v
    rw [split, first, List.cons_append, List.cons_append, resume_cons, resume_cons, same]

theorem resume_first_key (limit : Nat) {members : List (String × Json)} (some : members ≠ [])
    (stack : List Bracket) (ts : List Token) :
    resume limit (.firstKey stack) (memberTokens members ++ ts) =
      resume limit (.key stack) (memberTokens members ++ ts) := by
  cases members with
  | nil => exact absurd rfl some
  | cons m more =>
    obtain ⟨k, v⟩ := m
    cases more <;> rfl

theorem keyed_members (members : List (String × Json)) :
    ((members.map fun m => (some m.1, m.2)).mapM fun m => m.1.map (·, m.2)) = some members := by
  induction members with
  | nil => rfl
  | cons m rest ih =>
    rw [List.map_cons, List.mapM_cons, ih]
    rfl

theorem object_of_members (members : List (String × Json)) :
    objectOf (members.reverse.map fun m => (some m.1, m.2)) = .obj members := by
  have keyed := keyed_members members
  unfold objectOf
  rw [List.map_reverse, List.reverse_reverse]
  split
  · rename_i found same
    cases same.symm.trans keyed
    rfl
  · rename_i same
    cases same.symm.trans keyed

theorem close_within {limit : Nat} {stack : List Bracket} (room : stack.length < limit) (v : Json) :
    close limit v stack = deliver v stack := by
  rw [close, if_pos room]

mutual

theorem tokens_resume (limit : Nat) : (v : Json) → v.Plain → (stack : List Bracket) →
    stack.length + v.depth ≤ limit → (ts : List Token) →
    resume limit (.value stack) (v.tokens ++ ts) =
      (deliver v stack).bind fun state => resume limit state ts
  | .arr items, plain, stack, room, ts => by
    simp only [depth] at room
    have inside : stack.length < limit := by omega
    have opened : resume limit (.value stack) ((Json.arr items).tokens ++ ts) =
        resume limit (.firstItem (.array [] :: stack)) (itemTokens items ++ .closeArray :: ts) := by
      rw [tokens, List.cons_append, List.append_assoc]
      rfl
    rw [opened]
    by_cases empty : items = []
    · subst empty
      have closed : step limit (.firstItem (.array [] :: stack)) .closeArray =
          close limit (.arr []) stack := rfl
      rw [itemTokens, List.nil_append, resume_cons, closed, close_within inside]
    · have inner := items_resume limit items empty plain [] stack (by omega) (.closeArray :: ts)
      rw [resume_first_item limit empty, inner, resume_cons]
      have closed : step limit (.next (.array (items.reverse ++ []) :: stack)) .closeArray =
          close limit (.arr (items.reverse ++ []).reverse) stack := rfl
      rw [closed, close_within inside, List.append_nil, List.reverse_reverse]
  | .obj members, plain, stack, room, ts => by
    simp only [depth] at room
    have inside : stack.length < limit := by omega
    have opened : resume limit (.value stack) ((Json.obj members).tokens ++ ts) =
        resume limit (.firstKey (.object [] :: stack))
          (memberTokens members ++ .closeObject :: ts) := by
      rw [tokens, List.cons_append, List.append_assoc]
      rfl
    rw [opened]
    by_cases empty : members = []
    · subst empty
      have closed : step limit (.firstKey (.object [] :: stack)) .closeObject =
          close limit (.obj []) stack := rfl
      rw [memberTokens, List.nil_append, resume_cons, closed, close_within inside]
    · have inner := members_resume limit members empty plain [] stack (by omega)
        (.closeObject :: ts)
      rw [resume_first_key limit empty, inner, resume_cons, List.append_nil]
      have closed : step limit (.next (.object (members.reverse.map fun m => (some m.1, m.2)) ::
          stack)) .closeObject =
          close limit (objectOf (members.reverse.map fun m => (some m.1, m.2))) stack := rfl
      rw [closed, close_within inside, object_of_members]
  | .null, _, _, _, _ | .bool _, _, _, _, _ | .int _, _, _, _, _ | .str _, _, _, _, _ =>
    resume_cons ..

theorem items_resume (limit : Nat) : (items : List Json) → items ≠ [] → PlainItems items →
    (done : List Json) → (stack : List Bracket) → stack.length + 1 + itemsDepth items ≤ limit →
    (ts : List Token) →
    resume limit (.value (.array done :: stack)) (itemTokens items ++ ts) =
      resume limit (.next (.array (items.reverse ++ done) :: stack)) ts
  | [], nonempty, _, _, _, _, _ => absurd rfl nonempty
  | [v], _, plain, done, stack, room, ts => by
    simp only [itemsDepth] at room
    exact tokens_resume limit v plain.1 (.array done :: stack) (by simp; omega) ts
  | v :: w :: more, _, plain, done, stack, room, ts => by
    simp only [itemsDepth] at room
    have first := tokens_resume limit v plain.1 (.array done :: stack) (by simp; omega)
      (.comma :: (itemTokens (w :: more) ++ ts))
    have later := items_resume limit (w :: more) (List.cons_ne_nil _ _) plain.2 (v :: done) stack
      (by simp only [itemsDepth]; omega) ts
    rw [itemTokens, List.append_assoc, List.cons_append, first]
    rw [List.reverse_cons, List.append_assoc]
    exact later

theorem members_resume (limit : Nat) : (members : List (String × Json)) → members ≠ [] →
    PlainMembers members → (done : List (Option String × Json)) → (stack : List Bracket) →
    stack.length + 1 + membersDepth members ≤ limit → (ts : List Token) →
    resume limit (.key (.object done :: stack)) (memberTokens members ++ ts) =
      resume limit (.next (.object ((members.reverse.map fun m => (some m.1, m.2)) ++ done) ::
        stack)) ts
  | [], nonempty, _, _, _, _, _ => absurd rfl nonempty
  | [(k, v)], _, plain, done, stack, room, ts => by
    simp only [membersDepth] at room
    exact tokens_resume limit v plain.1 (.member done (some k) :: stack) (by simp; omega) ts
  | (k, v) :: m :: more, _, plain, done, stack, room, ts => by
    simp only [membersDepth] at room
    have first := tokens_resume limit v plain.1 (.member done (some k) :: stack) (by simp; omega)
      (.comma :: (memberTokens (m :: more) ++ ts))
    have later := members_resume limit (m :: more) (List.cons_ne_nil _ _) plain.2
      ((some k, v) :: done) stack (by simp only [membersDepth]; omega) ts
    rw [memberTokens, List.cons_append, List.cons_append, List.append_assoc, List.cons_append]
    rw [List.reverse_cons, List.map_append, List.append_assoc]
    exact first.trans later

end

theorem read_tokens {limit : Nat} {v : Json} (plain : v.Plain) (shallow : v.depth ≤ limit)
    {cs : List Char} (lexes : Lexes cs v.tokens []) : read? limit (String.ofList cs) = some v := by
  have lexed : lex .between cs = some v.tokens := by
    have whole := lexes
    rw [Lexes, List.append_nil, lex] at whole
    simpa using whole
  have resumed : v.tokens.foldlM (step limit) (.value []) = some (.done v) := by
    have whole := tokens_resume limit v plain [] (by simpa using shallow) []
    rw [List.append_nil] at whole
    exact whole
  have read : readTokens limit v.tokens = some v := by
    unfold readTokens
    rw [resumed]
  rw [read?, String.toList_ofList, lexed]
  exact read

theorem read_compact {limit : Nat} {v : Json} (plain : v.Plain) (shallow : v.depth ≤ limit) :
    read? limit v.compact = some v :=
  read_tokens plain shallow (compact_lexes v plain [] fun _ none => by cases none)

theorem read_pretty {limit : Nat} {v : Json} (plain : v.Plain) (shallow : v.depth ≤ limit) :
    read? limit v.pretty = some v :=
  read_tokens plain shallow (pretty_lexes v plain 0 [] fun _ none => by cases none)

theorem items_depth_le {items : List Json} {k : Nat} :
    itemsDepth items ≤ k ↔ ∀ v ∈ items, v.depth ≤ k := by
  induction items with
  | nil => simp [itemsDepth]
  | cons v rest ih => simp only [itemsDepth, Nat.max_le, List.forall_mem_cons, ih]

theorem members_depth_le {members : List (String × Json)} {k : Nat} :
    membersDepth members ≤ k ↔ ∀ m ∈ members, m.2.depth ≤ k := by
  induction members with
  | nil => simp [membersDepth]
  | cons m rest ih =>
    obtain ⟨key, v⟩ := m
    simp only [membersDepth, Nat.max_le, List.forall_mem_cons, ih]

def Token.Flat : Token → Prop
  | .scalar v => v.depth = 0
  | _ => True

theorem number_flat {cs : List Char} {v : Json} (means : number? cs = some v) : v.depth = 0 := by
  unfold number? at means
  split at means
  simp only [Option.bind_eq_bind, Option.bind_eq_some_iff] at means
  obtain ⟨whole, _, means⟩ := means
  split at means
  · cases means
  · simp only [Option.bind_eq_some_iff] at means
    obtain ⟨fraction, _, exponent, _, means⟩ := means
    split at means
    · cases means
      rfl
    · split at means <;> cases means <;> rfl

theorem word_flat {cs : List Char} {token : Token} (means : word? cs = some token) :
    token.Flat := by
  unfold word? at means
  split at means
  · cases means
    rfl
  · split at means
    · cases means
      rfl
    · split at means
      · cases means
        rfl
      · obtain ⟨v, number, rfl⟩ := Option.map_eq_some_iff.mp means
        exact number_flat number

theorem start_flat {c : Char} {state : Lexing} {tokens : List Token}
    (starts : start? c = some (state, tokens)) : ∀ t ∈ tokens, t.Flat := by
  unfold start? at starts
  grind [Token.Flat]

theorem lex_flat {state : Lexing} {cs : List Char} {tokens : List Token}
    (lexed : lex state cs = some tokens) : ∀ t ∈ tokens, t.Flat := by
  fun_induction lex state cs generalizing tokens with
  | case1 =>
    cases lexed
    simp
  | case2 taken =>
    obtain ⟨token, means, rfl⟩ := Option.map_eq_some_iff.mp lexed
    simpa using word_flat means
  | case4 c rest ih =>
    simp only [Option.bind_eq_bind, Option.bind_eq_some_iff] at lexed
    obtain ⟨⟨state, first⟩, starts, later, run, done⟩ := lexed
    cases done
    exact List.forall_mem_append.mpr ⟨start_flat starts, ih state run⟩
  | case5 taken c rest word ih => exact ih lexed
  | case6 taken c rest word ih =>
    simp only [Option.bind_eq_bind, Option.bind_eq_some_iff] at lexed
    obtain ⟨token, means, ⟨state, first⟩, starts, later, run, done⟩ := lexed
    cases done
    exact List.forall_mem_cons.mpr
      ⟨word_flat means, List.forall_mem_append.mpr ⟨start_flat starts, ih state run⟩⟩
  | case7 taken rest ih =>
    simp only [Option.bind_eq_bind, Option.bind_eq_some_iff] at lexed
    obtain ⟨later, run, done⟩ := lexed
    cases done
    exact List.forall_mem_cons.mpr ⟨trivial, ih run⟩
  | case8 taken a b c d rest ih =>
    obtain ⟨n, _, run⟩ := Option.bind_eq_some_iff.mp lexed
    exact ih n run
  | case9 taken c rest _ ih =>
    obtain ⟨d, _, run⟩ := Option.bind_eq_some_iff.mp lexed
    exact ih d run
  | case11 taken c rest _ _ _ _ ih => exact ih lexed
  | case3 | case10 => cases lexed

def Bracket.values : Bracket → List Json
  | .array items => items
  | .object members | .member members _ => members.map (·.2)

/-- Nothing in the open brackets nests deeper than the brackets around it allow. -/
def Fits (limit : Nat) : List Bracket → Prop
  | [] => True
  | b :: stack => (∀ v ∈ b.values, v.depth ≤ limit - (stack.length + 1)) ∧ Fits limit stack

def Reading.Fits (limit : Nat) : Reading → Prop
  | .value stack | .firstItem stack | .firstKey stack | .key stack | .colon stack
  | .next stack => Json.Fits limit stack
  | .done v => v.depth ≤ limit

theorem deliver_fits {limit : Nat} {v : Json} {stack : List Bracket} {next : Reading}
    (shallow : v.depth ≤ limit - stack.length) (fits : Fits limit stack)
    (run : deliver v stack = some next) : next.Fits limit := by
  cases stack with
  | nil =>
    cases run
    exact shallow
  | cons b stack =>
    cases b with
    | array items =>
      cases run
      exact ⟨List.forall_mem_cons.mpr ⟨shallow, fits.1⟩, fits.2⟩
    | member members key =>
      cases run
      exact ⟨List.forall_mem_cons.mpr ⟨shallow, fits.1⟩, fits.2⟩
    | object members => cases run

theorem close_fits {limit : Nat} {v : Json} {stack : List Bracket} {next : Reading}
    (shallow : v.depth ≤ limit - (stack.length + 1) + 1) (fits : Fits limit stack)
    (run : close limit v stack = some next) : next.Fits limit := by
  unfold close at run
  split at run
  · exact deliver_fits (by omega) fits run
  · exact deliver_fits (Nat.zero_le _) fits run

theorem keyed_values {members : List (Option String × Json)} {keyed : List (String × Json)}
    (run : (members.mapM fun m => m.1.map (·, m.2)) = some keyed) :
    keyed.map (·.2) = members.map (·.2) := by
  induction members generalizing keyed with
  | nil =>
    cases run
    rfl
  | cons m rest ih =>
    rw [List.mapM_cons] at run
    simp only [Option.bind_eq_bind, Option.bind_eq_some_iff] at run
    obtain ⟨first, named, later, others, done⟩ := run
    cases done
    obtain ⟨key, _, rfl⟩ := Option.map_eq_some_iff.mp named
    rw [List.map_cons, List.map_cons, ih others]

theorem object_depth {members : List (Option String × Json)} {k : Nat}
    (shallow : ∀ v ∈ members.map (·.2), v.depth ≤ k) : (objectOf members).depth ≤ k + 1 := by
  unfold objectOf
  split
  · rename_i keyed run
    have values := keyed_values run
    rw [depth]
    refine Nat.succ_le_succ (members_depth_le.mpr ?_)
    intro m member
    apply shallow
    have listed : m.2 ∈ keyed.map (·.2) := List.mem_map_of_mem member
    rw [values, List.map_reverse, List.mem_reverse] at listed
    exact listed
  · exact Nat.zero_le _

theorem read_close_fits {limit : Nat} {stack : List Bracket} {t : Token} {next : Reading}
    (fits : Fits limit stack) (run : readClose limit stack t = some next) : next.Fits limit := by
  unfold readClose at run
  split at run
  · refine close_fits ?_ fits.2 run
    rw [depth]
    refine Nat.succ_le_succ (items_depth_le.mpr ?_)
    intro v member
    exact fits.1 v (List.mem_reverse.mp member)
  · exact close_fits (object_depth fits.1) fits.2 run
  · cases run

theorem read_value_fits {limit : Nat} {stack : List Bracket} {t : Token} {next : Reading}
    (fits : Fits limit stack) (flat : t.Flat) (run : readValue stack t = some next) :
    next.Fits limit := by
  cases t with
  | openArray | openObject =>
    cases run
    exact ⟨by simp [Bracket.values], fits⟩
  | text content =>
    refine deliver_fits ?_ fits run
    cases content <;> exact Nat.zero_le _
  | scalar v =>
    have zero : v.depth = 0 := flat
    exact deliver_fits (by omega) fits run
  | _ => cases run

theorem read_key_fits {limit : Nat} {stack : List Bracket} {t : Token} {next : Reading}
    (fits : Fits limit stack) (run : readKey stack t = some next) : next.Fits limit := by
  unfold readKey at run
  split at run
  · cases run
    exact fits
  · cases run

theorem step_next (limit : Nat) (stack : List Bracket) (t : Token) :
    step limit (.next stack) t = readClose limit stack t ∨
      step limit (.next stack) t = some (.value stack) ∨
      step limit (.next stack) t = some (.key stack) := by
  cases stack with
  | nil => exact Or.inl (by cases t <;> rfl)
  | cons b stack =>
    cases b with
    | array items =>
      cases t with
      | comma => exact Or.inr (Or.inl rfl)
      | _ => exact Or.inl rfl
    | object members =>
      cases t with
      | comma => exact Or.inr (Or.inr rfl)
      | _ => exact Or.inl rfl
    | member members key => exact Or.inl (by cases t <;> rfl)

theorem step_fits {limit : Nat} {state next : Reading} {t : Token} (fits : state.Fits limit)
    (flat : t.Flat) (run : step limit state t = some next) : next.Fits limit := by
  cases state with
  | value stack => exact read_value_fits fits flat run
  | firstItem stack =>
    cases t with
    | closeArray => exact read_close_fits fits run
    | _ => exact read_value_fits fits flat run
  | firstKey stack =>
    cases t with
    | closeObject => exact read_close_fits fits run
    | _ => exact read_key_fits fits run
  | key stack => exact read_key_fits fits run
  | colon stack =>
    cases t with
    | colon =>
      cases run
      exact fits
    | _ => cases run
  | next stack =>
    rcases step_next limit stack t with same | same | same
    · rw [same] at run
      exact read_close_fits fits run
    · rw [same] at run
      cases run
      exact fits
    · rw [same] at run
      cases run
      exact fits
  | done v => cases t <;> cases run

theorem resume_fits {limit : Nat} {state last : Reading} {ts : List Token}
    (fits : state.Fits limit) (flat : ∀ t ∈ ts, t.Flat) (run : resume limit state ts = some last) :
    last.Fits limit := by
  induction ts generalizing state with
  | nil =>
    cases run
    exact fits
  | cons t ts ih =>
    rw [resume_cons, Option.bind_eq_some_iff] at run
    obtain ⟨next, first, later⟩ := run
    obtain ⟨here, flat⟩ := List.forall_mem_cons.mp flat
    exact ih (step_fits fits here first) flat later

theorem read_depth {limit : Nat} {text : String} {v : Json} (read : read? limit text = some v) :
    v.depth ≤ limit := by
  obtain ⟨tokens, lexed, run⟩ := Option.bind_eq_some_iff.mp read
  unfold readTokens at run
  split at run
  · rename_i found done
    cases run
    have start : (Reading.value []).Fits limit := trivial
    exact resume_fits start (lex_flat lexed) done
  · cases run

end Json

end ClosureLift
