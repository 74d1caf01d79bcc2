import ExprFront.Text.Basic
/-!
# Token kinds

Every token has one of forty-two kinds: thirteen single-character punctuation marks, eight
one- or two-character operators, identifiers, strings and numbers, sixteen keywords, comments
and the end of input. Each kind has a numeric code, its position in that order, used when trees
are written for tools, and an upper-case name used in dumps and messages.

The keywords are exactly `and class else false for fn if nil or print return super this true
var while`, matched by their whole spelling. `true`, `false` and `nil` also carry a literal.

## Main definitions

* `TokenKind` with `TokenKind.code`, `TokenKind.name`, `TokenKind.ofName?`.
* `TokenKind.symbol?`: the character of a punctuation kind.
* `TokenKind.keyword?`: the keyword kind a text spells, if any.
* `TokenKind.keywordFromText`: the same lookup as the scanner makes it, filtering by length and
  first unit before comparing; the two agree on every text (`keywordFromText_eq_keyword?`).
-/

namespace ExprFront

/-- The kind of a token. -/
inductive TokenKind where
  /-- `(` -/
  | leftParen
  /-- `)` -/
  | rightParen
  /-- `{` -/
  | leftBrace
  /-- `}` -/
  | rightBrace
  /-- `,` -/
  | comma
  /-- `.` -/
  | dot
  /-- `-` -/
  | minus
  /-- `+` -/
  | plus
  /-- `;` -/
  | semicolon
  /-- `*` -/
  | star
  /-- `/` -/
  | slash
  /-- `?` -/
  | question
  /-- `:` -/
  | colon
  /-- `!` -/
  | bang
  /-- `!=` -/
  | bangEqual
  /-- `=` -/
  | equal
  /-- `==` -/
  | equalEqual
  /-- `<` -/
  | less
  /-- `<=` -/
  | lessEqual
  /-- `>` -/
  | greater
  /-- `>=` -/
  | greaterEqual
  /-- A name that is not a keyword. -/
  | identifier
  /-- A string between double quotes. -/
  | string
  /-- A decimal number. -/
  | number
  | andKw
  | classKw
  | elseKw
  | falseKw
  | forKw
  | fnKw
  | ifKw
  | nilKw
  | orKw
  | printKw
  | returnKw
  | superKw
  | thisKw
  | trueKw
  | varKw
  | whileKw
  /-- A line or block comment. -/
  | comment
  /-- The end of input. -/
  | eof
  deriving DecidableEq, Repr, Inhabited

namespace TokenKind

/-- Every kind, in the order of their codes. -/
def all : List TokenKind :=
  [leftParen, rightParen, leftBrace, rightBrace, comma, dot, minus, plus, semicolon, star,
    slash, question, colon, bang, bangEqual, equal, equalEqual, less, lessEqual, greater,
    greaterEqual, identifier, string, number, andKw, classKw, elseKw, falseKw, forKw, fnKw,
    ifKw, nilKw, orKw, printKw, returnKw, superKw, thisKw, trueKw, varKw, whileKw, comment, eof]

/-- The numeric code of a kind. -/
def code : TokenKind → Nat
  | leftParen => 0
  | rightParen => 1
  | leftBrace => 2
  | rightBrace => 3
  | comma => 4
  | dot => 5
  | minus => 6
  | plus => 7
  | semicolon => 8
  | star => 9
  | slash => 10
  | question => 11
  | colon => 12
  | bang => 13
  | bangEqual => 14
  | equal => 15
  | equalEqual => 16
  | less => 17
  | lessEqual => 18
  | greater => 19
  | greaterEqual => 20
  | identifier => 21
  | string => 22
  | number => 23
  | andKw => 24
  | classKw => 25
  | elseKw => 26
  | falseKw => 27
  | forKw => 28
  | fnKw => 29
  | ifKw => 30
  | nilKw => 31
  | orKw => 32
  | printKw => 33
  | returnKw => 34
  | superKw => 35
  | thisKw => 36
  | trueKw => 37
  | varKw => 38
  | whileKw => 39
  | comment => 40
  | eof => 41

/-- The upper-case name of a kind. -/
def name : TokenKind → String
  | leftParen => "LEFT_PAREN"
  | rightParen => "RIGHT_PAREN"
  | leftBrace => "LEFT_BRACE"
  | rightBrace => "RIGHT_BRACE"
  | comma => "COMMA"
  | dot => "DOT"
  | minus => "MINUS"
  | plus => "PLUS"
  | semicolon => "SEMICOLON"
  | star => "STAR"
  | slash => "SLASH"
  | question => "QUESTION"
  | colon => "COLON"
  | bang => "BANG"
  | bangEqual => "BANG_EQUAL"
  | equal => "EQUAL"
  | equalEqual => "EQUAL_EQUAL"
  | less => "LESS"
  | lessEqual => "LESS_EQUAL"
  | greater => "GREATER"
  | greaterEqual => "GREATER_EQUAL"
  | identifier => "IDENT"
  | string => "STRING"
  | number => "NUMBER"
  | andKw => "AND"
  | classKw => "CLASS"
  | elseKw => "ELSE"
  | falseKw => "FALSE"
  | forKw => "FOR"
  | fnKw => "FN"
  | ifKw => "IF"
  | nilKw => "NIL"
  | orKw => "OR"
  | printKw => "PRINT"
  | returnKw => "RETURN"
  | superKw => "SUPER"
  | thisKw => "THIS"
  | trueKw => "TRUE"
  | varKw => "VAR"
  | whileKw => "WHILE"
  | comment => "COMMENT"
  | eof => "EOF"

/-- The kind with a given upper-case name. -/
def ofName? (s : String) : Option TokenKind := all.find? (fun k => k.name == s)

/-- The character of a single-character punctuation kind. -/
def symbol? : TokenKind → Option Char
  | leftParen => some '('
  | rightParen => some ')'
  | leftBrace => some '\x7b'
  | rightBrace => some '\x7d'
  | comma => some ','
  | dot => some '.'
  | minus => some '-'
  | plus => some '+'
  | semicolon => some ';'
  | star => some '*'
  | slash => some '/'
  | question => some '?'
  | colon => some ':'
  | _ => none

/-- The keywords with their spelling, in the order of their codes. -/
def keywords : List (String × TokenKind) :=
  [("and", andKw), ("class", classKw), ("else", elseKw), ("false", falseKw), ("for", forKw),
    ("fn", fnKw), ("if", ifKw), ("nil", nilKw), ("or", orKw), ("print", printKw),
    ("return", returnKw), ("super", superKw), ("this", thisKw), ("true", trueKw),
    ("var", varKw), ("while", whileKw)]

/-- The keyword kind whose spelling is exactly the text, if there is one. -/
def keyword? (t : Text) : Option TokenKind :=
  (keywords.find? (fun w => Text.ofString w.1 == t)).map (·.2)

/-- `k` when the text spells `w`. -/
def spelledAs (t : Text) (w : String) (k : TokenKind) : Option TokenKind :=
  if t = Text.ofString w then some k else none

/-- The keyword kind a text spells, looked up the way the scanner looks it up: a text shorter
than two units or longer than six spells none, and otherwise its first unit picks the one or
few spellings it is compared with. -/
def keywordFromText (t : Text) : Option TokenKind :=
  if t.length < 2 ∨ 6 < t.length then none
  else
    match t.units with
    | 0x61 :: _ => spelledAs t "and" andKw
    | 0x63 :: _ => spelledAs t "class" classKw
    | 0x65 :: _ => spelledAs t "else" elseKw
    | 0x66 :: _ =>
      (spelledAs t "false" falseKw).or ((spelledAs t "for" forKw).or (spelledAs t "fn" fnKw))
    | 0x69 :: _ => spelledAs t "if" ifKw
    | 0x6E :: _ => spelledAs t "nil" nilKw
    | 0x6F :: _ => spelledAs t "or" orKw
    | 0x70 :: _ => spelledAs t "print" printKw
    | 0x72 :: _ => spelledAs t "return" returnKw
    | 0x73 :: _ => spelledAs t "super" superKw
    | 0x74 :: _ => (spelledAs t "this" thisKw).or (spelledAs t "true" trueKw)
    | 0x76 :: _ => spelledAs t "var" varKw
    | 0x77 :: _ => spelledAs t "while" whileKw
    | _ => none

/-- The kinds that begin a statement; recovery after an error stops in front of them. -/
def startsStatement : TokenKind → Bool
  | classKw | forKw | fnKw | ifKw | printKw | returnKw | varKw | whileKw => true
  | _ => false

theorem code_lt (k : TokenKind) : k.code < 42 := by
  cases k <;> decide

theorem all_length : all.length = 42 := rfl

/-- Reading a kind's name gives the kind back, so names tell kinds apart. -/
theorem ofName?_name (k : TokenKind) : ofName? k.name = some k := by
  cases k <;> rfl

theorem name_injective {k k' : TokenKind} (h : k.name = k'.name) : k = k' := by
  have := ofName?_name k
  rw [h, ofName?_name] at this
  exact Option.some.inj this.symm

/-! ## The scanner's keyword lookup agrees with the table -/

theorem spelledAs_eq_some {t : Text} {w : String} {k k' : TokenKind} :
    spelledAs t w k = some k' ↔ t = Text.ofString w ∧ k = k' := by
  unfold spelledAs
  split <;> simp_all

theorem keyword?_ofString {w : String × TokenKind} (hw : w ∈ keywords) :
    keyword? (Text.ofString w.1) = some w.2 := by
  simp only [keywords, List.mem_cons, List.not_mem_nil, or_false] at hw
  rcases hw with rfl | rfl | rfl | rfl | rfl | rfl | rfl | rfl | rfl | rfl | rfl | rfl | rfl |
    rfl | rfl | rfl <;> rfl

theorem keyword?_eq_none_iff {t : Text} :
    keyword? t = none ↔ ∀ w ∈ keywords, Text.ofString w.1 ≠ t := by
  unfold keyword?
  rw [Option.map_eq_none_iff, List.find?_eq_none]
  simp

/-- A kind the table gives is that of an entry whose spelling is the text. -/
theorem keyword?_spelled {t : Text} {k : TokenKind} (h : keyword? t = some k) :
    ∃ w ∈ keywords, Text.ofString w.1 = t ∧ w.2 = k := by
  obtain ⟨w, hw, rfl⟩ := Option.map_eq_some_iff.1 h
  exact ⟨w, List.mem_of_find?_eq_some hw, by simpa using List.find?_some hw, rfl⟩

theorem keywordFromText_ofString {w : String × TokenKind} (hw : w ∈ keywords) :
    keywordFromText (Text.ofString w.1) = some w.2 := by
  simp only [keywords, List.mem_cons, List.not_mem_nil, or_false] at hw
  rcases hw with rfl | rfl | rfl | rfl | rfl | rfl | rfl | rfl | rfl | rfl | rfl | rfl | rfl |
    rfl | rfl | rfl <;> rfl

theorem exists_keyword_of_spelledAs {t : Text} {w : String} {k k' : TokenKind}
    (hw : (w, k) ∈ keywords) (h : spelledAs t w k = some k') :
    ∃ w ∈ keywords, Text.ofString w.1 = t ∧ w.2 = k' := by
  obtain ⟨rfl, rfl⟩ := spelledAs_eq_some.1 h
  exact ⟨(w, k), hw, rfl, rfl⟩

/-- Every kind the scanner's lookup gives is that of a table entry the text spells. -/
theorem keywordFromText_spelled {t : Text} {k : TokenKind} (h : keywordFromText t = some k) :
    ∃ w ∈ keywords, Text.ofString w.1 = t ∧ w.2 = k := by
  unfold keywordFromText at h
  split at h
  · cases h
  -- the first unit leaves one spelling to compare, two after `t` and three after `f`
  split at h
  case h_4 =>
    rcases Option.or_eq_some_iff.1 h with h | ⟨-, h⟩
    · exact exists_keyword_of_spelledAs (by simp [keywords]) h
    rcases Option.or_eq_some_iff.1 h with h | ⟨-, h⟩
    · exact exists_keyword_of_spelledAs (by simp [keywords]) h
    · exact exists_keyword_of_spelledAs (by simp [keywords]) h
  case h_11 =>
    rcases Option.or_eq_some_iff.1 h with h | ⟨-, h⟩
    · exact exists_keyword_of_spelledAs (by simp [keywords]) h
    · exact exists_keyword_of_spelledAs (by simp [keywords]) h
  case h_14 => cases h
  all_goals exact exists_keyword_of_spelledAs (by simp [keywords]) h

/-- The length filter and the switch on the first unit lose no keyword and find no other:
the scanner's lookup is the table's on every text. -/
@[simp] theorem keywordFromText_eq_keyword? (t : Text) : keywordFromText t = keyword? t := by
  by_cases h : ∃ w ∈ keywords, Text.ofString w.1 = t
  · obtain ⟨w, hw, rfl⟩ := h
    rw [keywordFromText_ofString hw, keyword?_ofString hw]
  · have hnone : ∀ w ∈ keywords, Text.ofString w.1 ≠ t := fun w hw ht => h ⟨w, hw, ht⟩
    rw [keyword?_eq_none_iff.2 hnone]
    cases hk : keywordFromText t with
    | none => rfl
    | some k =>
      obtain ⟨w, hw, ht, -⟩ := keywordFromText_spelled hk
      exact absurd ht (hnone w hw)

end TokenKind

end ExprFront
