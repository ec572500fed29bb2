import ClosureLift.Json.Reader
import ClosureLift.Json.Writer

/-!
Written values as tokens. Whatever follows a written value, unless it goes on with the last word of
it, the reader sees the tokens of the value first; layout gives no tokens.
-/
namespace ClosureLift

namespace Json

theorem absorb_all (n : Nat) (ds : List Char)
    (fits : ds.foldl (fun n c => 10 * n + (c.toNat - 48)) n < UInt64.size) :
    absorb n ds = (ds.foldl (fun n c => 10 * n + (c.toNat - 48)) n, []) := by
  induction ds generalizing n with
  | nil => rfl
  | cons c rest ih =>
    have grows : ∀ (ds : List Char) (m : Nat),
        m ≤ ds.foldl (fun n c => 10 * n + (c.toNat - 48)) m := by
      intro ds
      induction ds with
      | nil => exact fun m => Nat.le_refl m
      | cons d ds ihDigits =>
        intro m
        have := ihDigits (10 * m + (d.toNat - 48))
        simp only [List.foldl_cons]
        omega
    have next : Binary64.decimal [c] + 10 * n = 10 * n + (c.toNat - 48) := by
      simp only [Binary64.decimal, List.foldl_cons, List.foldl_nil]
      omega
    rw [List.foldl_cons] at fits ⊢
    have below := grows rest (10 * n + (c.toNat - 48))
    simp only [absorb, next]
    rw [if_pos (by omega), ih _ fits]

theorem decimal_digits (n : Nat) : Binary64.decimal (Nat.toDigits 10 n) = n :=
  Nat.ofDigitChars_ten_toDigits

theorem leading_digit {n : Nat} (positive : 0 < n) : (Nat.toDigits 10 n).head? ≠ some '0' := by
  induction n using Nat.strongRecOn with
  | ind n ih =>
    by_cases small : n < 10
    · have digit : ∀ d, d < 10 → 0 < d → Nat.digitChar d ≠ '0' := by decide
      rw [Nat.toDigits_of_lt_base small]
      simpa using digit n small positive
    · rw [Nat.toDigits_of_base_le (by omega) (by omega), List.head?_append,
        Option.or_of_isSome (by simp [Nat.toDigits_ne_nil])]
      exact ih (n / 10) (by omega) (by omega)

theorem digits_all {ds : List Char} (digits : ∀ c ∈ ds, c.isDigit = true) (some : ds ≠ []) :
    digits1? ds = .some (ds, []) := by
  have taken : (ds ++ []).takeWhile Char.isDigit = ds ++ [] := List.takeWhile_append_of_pos digits
  have left : (ds ++ []).dropWhile Char.isDigit = [] := List.dropWhile_append_of_pos digits
  rw [List.append_nil] at taken left
  unfold digits1?
  rw [taken, left]
  cases ds with
  | nil => exact absurd rfl some
  | cons c rest => rfl

theorem whole_in_range {ds : List Char} (fits : Binary64.decimal ds < UInt64.size) :
    isOutOfRange ds [] 0 = false := by
  simp [isOutOfRange, absorb_all 0 ds fits, absorb, Binary64.productOverflows]

theorem number_whole {ds : List Char} (digits : ∀ c ∈ ds, c.isDigit = true) (some : ds ≠ [])
    (short : ds.head? = .some '0' → ds.length ≤ 1) (fits : Binary64.decimal ds < UInt64.size) :
    number? ds = .some (.int (Binary64.decimal ds)) ∧
      (Binary64.decimal ds ≠ 0 → number? ('-' :: ds) = .some (.int (-Binary64.decimal ds))) := by
  have whole := digits_all digits some
  have range := whole_in_range fits
  have leading : ¬ (ds.head? = .some '0' ∧ 1 < ds.length) := by
    intro both
    have := short both.1
    omega
  have fraction : fraction? [] = .some ([], []) := rfl
  have exponent : exponent? [] = .some 0 := rfl
  constructor
  · have unsigned : ∀ rest, ds ≠ '-' :: rest := by
      intro rest same
      have := digits '-' (same ▸ List.mem_cons_self)
      exact absurd this (by decide)
    unfold number?
    split
    rename_i negative cs sign
    split at sign
    · exact absurd rfl (unsigned _)
    · cases sign
      simp [whole, leading, fraction, exponent, range]
  · intro positive
    simp [number?, whole, leading, fraction, exponent, range, positive]

theorem number_repr (n : Nat) (fits : n < UInt64.size) :
    number? (Nat.toDigits 10 n) = some (.int n) ∧
      (n ≠ 0 → number? ('-' :: Nat.toDigits 10 n) = some (.int (-n))) := by
  have digits : ∀ c ∈ Nat.toDigits 10 n, c.isDigit = true :=
    fun c member => Nat.isDigit_of_mem_toDigits (by omega) (by omega) member
  have read := number_whole digits Nat.toDigits_ne_nil
  rw [decimal_digits] at read
  refine read ?_ fits
  intro leading
  by_cases zero : n = 0
  · subst zero
    exact Nat.le_refl 1
  · exact absurd leading (leading_digit (by omega))

theorem text_of_nat (n : Nat) : (toString (Int.ofNat n)).toList = Nat.toDigits 10 n :=
  Nat.toList_repr

theorem text_of_negative (n : Nat) :
    (toString (Int.negSucc n)).toList = '-' :: Nat.toDigits 10 (n + 1) := by
  have digits : (n + 1).repr.toList = Nat.toDigits 10 (n + 1) := Nat.toList_repr
  rw [← digits]
  exact String.toList_append

theorem number_int (n : Int) (fits : n.natAbs < UInt64.size) :
    number? (toString n).toList = some (.int n) := by
  cases n with
  | ofNat m =>
    rw [text_of_nat]
    exact (number_repr m fits).1
  | negSucc m =>
    rw [text_of_negative]
    exact (number_repr (m + 1) fits).2 (by omega)

def piece (c : Char) : Piece :=
  if (escaped c).length = 6 then .unit c.toNat else .char c

theorem unit_of_control : ∀ n, n < 32 →
    unit? '0' '0' (hexDigit (n / 16)) (hexDigit (n % 16)) = some n := by
  decide

theorem escaped_cases (c : Char) :
    (∃ e, escaped c = ['\\', e] ∧ e ≠ 'u' ∧ unescaped? e = some c) ∨
    (c.toNat < 32 ∧ escaped c =
      ['\\', 'u', '0', '0', hexDigit (c.toNat / 16), hexDigit (c.toNat % 16)]) ∨
    (escaped c = [c] ∧ c ≠ '"' ∧ c ≠ '\\' ∧ ¬ c.toNat < 32) := by
  by_cases quote : c = '"'
  · subst quote
    exact Or.inl ⟨'"', rfl, by decide, rfl⟩
  by_cases backslash : c = '\\'
  · subst backslash
    exact Or.inl ⟨'\\', rfl, by decide, rfl⟩
  by_cases newline : c = '\n'
  · subst newline
    exact Or.inl ⟨'n', rfl, by decide, rfl⟩
  by_cases ret : c = '\r'
  · subst ret
    exact Or.inl ⟨'r', rfl, by decide, rfl⟩
  by_cases tab : c = '\t'
  · subst tab
    exact Or.inl ⟨'t', rfl, by decide, rfl⟩
  by_cases backspace : c = '\x08'
  · subst backspace
    exact Or.inl ⟨'b', rfl, by decide, rfl⟩
  by_cases feed : c = '\x0c'
  · subst feed
    exact Or.inl ⟨'f', rfl, by decide, rfl⟩
  rw [escaped, if_neg quote, if_neg backslash, if_neg newline, if_neg ret, if_neg tab,
    if_neg backspace, if_neg feed]
  by_cases control : c.toNat < 32
  · rw [if_pos control]
    exact Or.inr (Or.inl ⟨control, rfl⟩)
  · rw [if_neg control]
    exact Or.inr (Or.inr ⟨rfl, quote, backslash, control⟩)

theorem lex_escaped (c : Char) (taken : List Piece) (rest : List Char) :
    lex (.text taken) (escaped c ++ rest) = lex (.text (piece c :: taken)) rest := by
  rw [piece]
  rcases escaped_cases c with ⟨e, short, plain, meant⟩ | ⟨control, long⟩ |
    ⟨itself, quote, backslash, control⟩
  · rw [short, if_neg (by simp)]
    simp [lex, plain, meant]
  · rw [long, if_pos (by rfl)]
    simp [lex, unit_of_control c.toNat control]
  · rw [itself, if_neg (by simp)]
    simp [lex, backslash, control]

theorem control_of_escaped {c : Char} (long : (escaped c).length = 6) : c.toNat < 32 := by
  rcases escaped_cases c with ⟨e, short, _⟩ | ⟨control, _⟩ | ⟨itself, _⟩
  · rw [short] at long
    cases long
  · exact control
  · rw [itself] at long
    cases long

theorem joined_unit {n : Nat} (small : n < 32) (rest : List Piece) :
    joined? (.unit n :: rest) = (joined? rest).map (Char.ofNat n :: ·) := by
  have high : isHighUnit n = false := by
    simp only [isHighUnit, Bool.and_eq_false_iff, decide_eq_false_iff_not]
    omega
  have low : isLowUnit n = false := by
    simp only [isLowUnit, Bool.and_eq_false_iff, decide_eq_false_iff_not]
    omega
  cases rest with
  | nil => simp [joined?, high, low]
  | cons p rest => cases p <;> simp [joined?, high, low]

theorem joined_pieces (cs : List Char) : joined? (cs.map piece) = some cs := by
  induction cs with
  | nil => rfl
  | cons c rest ih =>
    rw [List.map_cons, piece]
    split
    · rename_i long
      rw [joined_unit (control_of_escaped long), ih, Char.ofNat_toNat]
      rfl
    · rw [joined?, ih]
      rfl

theorem lex_text (cs : List Char) (taken : List Piece) (rest : List Char) :
    lex (.text taken) (cs.flatMap escaped ++ '"' :: rest) = (lex .between rest).map
      (.text ((joined? (taken.reverse ++ cs.map piece)).map String.ofList) :: ·) := by
  induction cs generalizing taken with
  | nil =>
    rw [List.flatMap_nil, List.nil_append, List.map_nil, List.append_nil, lex]
    cases lex .between rest <;> rfl
  | cons c cs ih =>
    rw [List.flatMap_cons, List.append_assoc, lex_escaped, ih, List.reverse_cons, List.append_assoc]
    rfl

theorem lex_start {c : Char} {state : Lexing} {tokens : List Token}
    (starts : start? c = some (state, tokens)) (rest : List Char) :
    lex .between (c :: rest) = (lex state rest).map (tokens ++ ·) := by
  rw [lex, starts]
  simp only [Option.bind_eq_bind, Option.bind_some]
  cases lex state rest <;> rfl

theorem lex_quoted (text : String) (rest : List Char) :
    lex .between (quoted text ++ rest) = (lex .between rest).map (.text (some text) :: ·) := by
  have body := lex_text text.toList [] rest
  rw [List.reverse_nil, List.nil_append, joined_pieces, Option.map_some, String.ofList_toList]
    at body
  rw [quoted, List.cons_append, List.append_assoc, lex_start rfl]
  simp only [List.nil_append, Option.map_id']
  exact body

def Delimited (rest : List Char) : Prop := ∀ c, rest.head? = some c → isWordChar c = false

theorem start_of_word {c : Char} (word : isWordChar c = true) :
    start? c = some (.word [c], []) := by
  have apart : ∀ d, isWordChar d = false → c ≠ d := by
    intro d plain same
    rw [same, plain] at word
    cases word
  unfold start?
  simp [word, apart ' ' (by decide), apart '\n' (by decide), apart '\t' (by decide),
    apart '\r' (by decide), apart '[' (by decide), apart ']' (by decide), apart '\x7b' (by decide),
    apart '\x7d' (by decide), apart ',' (by decide), apart ':' (by decide), apart '"' (by decide)]

theorem lex_word_end (taken rest : List Char) (delimited : Delimited rest) :
    lex (.word taken) rest =
      (word? taken.reverse).bind fun token => (lex .between rest).map (token :: ·) := by
  cases rest with
  | nil =>
    rw [lex, lex]
    cases word? taken.reverse <;> rfl
  | cons c rest =>
    have other : isWordChar c = false := delimited c rfl
    cases starts : start? c with
    | none =>
      rw [lex, lex, starts, other]
      cases word? taken.reverse <;> rfl
    | some start =>
      rw [lex_start starts, lex, starts, other]
      simp only [Bool.false_eq_true, ↓reduceIte, Option.bind_eq_bind, Option.bind_some]
      cases word? taken.reverse with
      | none => rfl
      | some token => cases lex start.1 rest <;> rfl

theorem lex_word_chars (w taken rest : List Char) (word : ∀ c ∈ w, isWordChar c = true) :
    lex (.word taken) (w ++ rest) = lex (.word (w.reverse ++ taken)) rest := by
  induction w generalizing taken with
  | nil => rfl
  | cons c w ih =>
    rw [List.cons_append, lex, if_pos (word c List.mem_cons_self),
      ih _ fun d member => word d (List.mem_cons_of_mem c member), List.reverse_cons,
      List.append_assoc]
    rfl

theorem lex_word {w rest : List Char} (some : w ≠ []) (word : ∀ c ∈ w, isWordChar c = true)
    (delimited : Delimited rest) :
    lex .between (w ++ rest) =
      (word? w).bind fun token => (lex .between rest).map (token :: ·) := by
  cases w with
  | nil => exact absurd rfl some
  | cons c w =>
    have more := lex_word_chars w [c] rest fun d member => word d (List.mem_cons_of_mem c member)
    rw [List.cons_append, lex_start (start_of_word (word c List.mem_cons_self)), more,
      lex_word_end _ _ delimited, List.reverse_append, List.reverse_reverse]
    simp only [List.nil_append, Option.map_id']
    rfl

theorem word_of_digit {c : Char} (digit : c.isDigit = true) : isWordChar c = true := by
  simp [isWordChar, Char.isAlphanum, digit]

theorem digits_word (n : Nat) : ∀ c ∈ Nat.toDigits 10 n, isWordChar c = true :=
  fun _ member => word_of_digit (Nat.isDigit_of_mem_toDigits (by omega) (by omega) member)

theorem int_word (n : Int) :
    (toString n).toList ≠ [] ∧ ∀ c ∈ (toString n).toList, isWordChar c = true := by
  cases n with
  | ofNat m =>
    rw [text_of_nat]
    exact ⟨Nat.toDigits_ne_nil, digits_word m⟩
  | negSucc m =>
    rw [text_of_negative]
    exact ⟨List.cons_ne_nil _ _, List.forall_mem_cons.mpr ⟨by decide, digits_word (m + 1)⟩⟩

theorem word_int (n : Int) (fits : n.natAbs < UInt64.size) :
    word? (toString n).toList = some (.scalar (.int n)) := by
  have read := number_int n fits
  have other : ∀ w : List Char, number? w = none → (toString n).toList ≠ w := by
    intro w refused same
    rw [same, refused] at read
    cases read
  unfold word?
  rw [if_neg (other "true".toList (by rfl)), if_neg (other "false".toList (by rfl)),
    if_neg (other "null".toList (by rfl)), read]
  rfl

/-- Before `rest`, these characters are read as these tokens. -/
def Lexes (cs : List Char) (ts : List Token) (rest : List Char) : Prop :=
  lex .between (cs ++ rest) = (lex .between rest).map (ts ++ ·)

namespace Lexes

theorem nil (rest : List Char) : Lexes [] [] rest := by
  simp [Lexes]

theorem append {cs ds rest : List Char} {ts us : List Token} (first : Lexes cs ts (ds ++ rest))
    (second : Lexes ds us rest) : Lexes (cs ++ ds) (ts ++ us) rest := by
  unfold Lexes at *
  rw [List.append_assoc, first, second]
  cases lex .between rest with
  | none => rfl
  | some vs => simp

theorem mark {c : Char} {ts : List Token} (starts : start? c = some (.between, ts))
    (rest : List Char) : Lexes [c] ts rest :=
  lex_start starts rest

theorem text (content : String) (rest : List Char) :
    Lexes (quoted content) [.text (some content)] rest :=
  lex_quoted content rest

theorem word {w rest : List Char} {token : Token} (some : w ≠ [])
    (chars : ∀ c ∈ w, isWordChar c = true) (means : word? w = .some token)
    (delimited : Delimited rest) : Lexes w [token] rest := by
  rw [Lexes, lex_word some chars delimited, means]
  rfl

theorem blanks (n : Nat) (rest : List Char) : Lexes (List.replicate n ' ') [] rest := by
  induction n with
  | zero => exact nil rest
  | succ n ih => exact (mark (c := ' ') rfl _).append ih

theorem line_break (level : Nat) (rest : List Char) : Lexes (lineBreak level) [] rest :=
  (mark (c := '\n') rfl _).append (blanks (2 * level) rest)

end Lexes

theorem delimited_mark {c : Char} (mark : isWordChar c = false) (rest : List Char) :
    Delimited (c :: rest) := by
  intro d same
  cases same
  exact mark

mutual

def tokens : Json → List Token
  | .arr items => .openArray :: (itemTokens items ++ [.closeArray])
  | .obj members => .openObject :: (memberTokens members ++ [.closeObject])
  | .str text => [.text (some text)]
  | v => [.scalar v]

def itemTokens : List Json → List Token
  | [] => []
  | [v] => v.tokens
  | v :: w :: rest => v.tokens ++ .comma :: itemTokens (w :: rest)

def memberTokens : List (String × Json) → List Token
  | [] => []
  | [(k, v)] => .text (some k) :: .colon :: v.tokens
  | (k, v) :: m :: rest =>
    .text (some k) :: .colon :: (v.tokens ++ .comma :: memberTokens (m :: rest))

end

mutual

/-- The values that a text can give back: no number but an integer of at most 64 bits beside its
sign, and no part without a value. -/
def Plain : Json → Prop
  | .int n => n.natAbs < UInt64.size
  | .arr items => PlainItems items
  | .obj members => PlainMembers members
  | .real _ | .unreadable => False
  | .null | .bool _ | .str _ => True

def PlainItems : List Json → Prop
  | [] => True
  | v :: rest => v.Plain ∧ PlainItems rest

def PlainMembers : List (String × Json) → Prop
  | [] => True
  | (_, v) :: rest => v.Plain ∧ PlainMembers rest

end

theorem scalar_lexes {v : Json} (plain : v.Plain) (scalar : v.depth = 0) {rest : List Char}
    (delimited : Delimited rest) : Lexes v.scalarChars v.tokens rest := by
  cases v with
  | null => exact Lexes.word (by decide) (List.all_eq_true.mp (by decide)) rfl delimited
  | bool b =>
    cases b <;> exact Lexes.word (by decide) (List.all_eq_true.mp (by decide)) rfl delimited
  | int n => exact Lexes.word (int_word n).1 (int_word n).2 (word_int n plain) delimited
  | str text => exact Lexes.text text rest
  | arr | obj => simp [depth] at scalar
  | real | unreadable => cases plain

mutual

theorem compact_lexes : (v : Json) → v.Plain → (rest : List Char) → Delimited rest →
    Lexes v.compactChars v.tokens rest
  | .arr items, plain, rest, _ => by
    have inner := compact_items_lex items plain (']' :: rest) (delimited_mark (by decide) rest)
    exact (Lexes.mark (c := '[') rfl _).append (inner.append (Lexes.mark rfl rest))
  | .obj members, plain, rest, _ => by
    have inner := compact_members_lex members plain ('\x7d' :: rest)
      (delimited_mark (by decide) rest)
    exact (Lexes.mark (c := '\x7b') rfl _).append (inner.append (Lexes.mark rfl rest))
  | .null, plain, _, delimited | .bool _, plain, _, delimited | .int _, plain, _, delimited
  | .str _, plain, _, delimited => scalar_lexes plain rfl delimited

theorem compact_items_lex : (items : List Json) → PlainItems items → (rest : List Char) →
    Delimited rest → Lexes (compactItems items) (itemTokens items) rest
  | [], _, rest, _ => Lexes.nil rest
  | [v], plain, rest, delimited => compact_lexes v plain.1 rest delimited
  | v :: w :: more, plain, rest, delimited => by
    have first := compact_lexes v plain.1 (',' :: (compactItems (w :: more) ++ rest))
      (delimited_mark (by decide) _)
    have later := compact_items_lex (w :: more) plain.2 rest delimited
    exact first.append ((Lexes.mark (c := ',') rfl _).append later)

theorem compact_members_lex : (members : List (String × Json)) → PlainMembers members →
    (rest : List Char) → Delimited rest → Lexes (compactMembers members) (memberTokens members) rest
  | [], _, rest, _ => Lexes.nil rest
  | [(k, v)], plain, rest, delimited => by
    have value := compact_lexes v plain.1 rest delimited
    exact (Lexes.text k _).append ((Lexes.mark (c := ':') rfl _).append value)
  | (k, v) :: m :: more, plain, rest, delimited => by
    have value := compact_lexes v plain.1 (',' :: (compactMembers (m :: more) ++ rest))
      (delimited_mark (by decide) _)
    have later := compact_members_lex (m :: more) plain.2 rest delimited
    exact (Lexes.text k _).append ((Lexes.mark (c := ':') rfl _).append
      (value.append ((Lexes.mark (c := ',') rfl _).append later)))

end

theorem delimited_line_break (level : Nat) (rest : List Char) :
    Delimited (lineBreak level ++ rest) :=
  delimited_mark (by decide) _

mutual

theorem pretty_lexes : (v : Json) → v.Plain → (level : Nat) → (rest : List Char) →
    Delimited rest → Lexes (v.prettyChars level) v.tokens rest
  | .arr [], _, _, rest, _ => (Lexes.mark (c := '[') rfl _).append (Lexes.mark rfl rest)
  | .arr (v :: more), plain, level, rest, _ => by
    have inner := pretty_items_lex (v :: more) plain (level + 1) (lineBreak level ++ ']' :: rest)
      (delimited_line_break level _)
    have body := inner.append (Lexes.line_break level (']' :: rest))
    rw [List.append_nil] at body
    exact (Lexes.mark (c := '[') rfl _).append (body.append (Lexes.mark rfl rest))
  | .obj [], _, _, rest, _ => (Lexes.mark (c := '\x7b') rfl _).append (Lexes.mark rfl rest)
  | .obj (m :: more), plain, level, rest, _ => by
    have inner := pretty_members_lex (m :: more) plain (level + 1)
      (lineBreak level ++ '\x7d' :: rest) (delimited_line_break level _)
    have body := inner.append (Lexes.line_break level ('\x7d' :: rest))
    rw [List.append_nil] at body
    exact (Lexes.mark (c := '\x7b') rfl _).append (body.append (Lexes.mark rfl rest))
  | .null, plain, _, _, delimited | .bool _, plain, _, _, delimited
  | .int _, plain, _, _, delimited | .str _, plain, _, _, delimited =>
    scalar_lexes plain rfl delimited

theorem pretty_items_lex : (items : List Json) → PlainItems items → (level : Nat) →
    (rest : List Char) → Delimited rest → Lexes (prettyItems level items) (itemTokens items) rest
  | [], _, _, rest, _ => Lexes.nil rest
  | [v], plain, level, rest, delimited =>
    (Lexes.line_break level _).append (pretty_lexes v plain.1 level rest delimited)
  | v :: w :: more, plain, level, rest, delimited => by
    have first := pretty_lexes v plain.1 level (',' :: (prettyItems level (w :: more) ++ rest))
      (delimited_mark (by decide) _)
    have later := pretty_items_lex (w :: more) plain.2 level rest delimited
    have all := (Lexes.line_break level _).append
      (first.append ((Lexes.mark (c := ',') rfl _).append later))
    rw [← List.append_assoc] at all
    exact all

theorem pretty_members_lex : (members : List (String × Json)) → PlainMembers members →
    (level : Nat) → (rest : List Char) → Delimited rest →
    Lexes (prettyMembers level members) (memberTokens members) rest
  | [], _, _, rest, _ => Lexes.nil rest
  | [(k, v)], plain, level, rest, delimited => by
    have value := pretty_lexes v plain.1 level rest delimited
    have all := (Lexes.line_break level _).append ((Lexes.text k _).append
      ((Lexes.mark (c := ':') rfl _).append ((Lexes.mark (c := ' ') rfl _).append value)))
    rw [← List.append_assoc] at all
    exact all
  | (k, v) :: m :: more, plain, level, rest, delimited => by
    have value := pretty_lexes v plain.1 level (',' :: (prettyMembers level (m :: more) ++ rest))
      (delimited_mark (by decide) _)
    have later := pretty_members_lex (m :: more) plain.2 level rest delimited
    have all := (Lexes.line_break level _).append ((Lexes.text k _).append
      ((Lexes.mark (c := ':') rfl _).append ((Lexes.mark (c := ' ') rfl _).append
        (value.append ((Lexes.mark (c := ',') rfl _).append later)))))
    rw [← List.append_assoc] at all
    exact all

end

end Json

end ClosureLift
