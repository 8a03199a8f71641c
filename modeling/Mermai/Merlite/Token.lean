import Mermai.Core.Prims

/-!
# Merlite.Token — the tokenizer of the Merlite compiler

`merlite_compiler::tokenize`.  One round of its loop is `scan`: it skips a character or a comment, or
reads one token.  A semicolon starts a comment, like two slashes, so no token `TOKEN_SEMICOLON` is ever
read; characters the tokenizer does not know are skipped.  The classes of characters are those of the
C locale.
-/

namespace Mermai.Merlite

/-! ## Characters -/

/-- The bytes of a 7-bit text. -/
def ascii (s : String) : Bytes := s.toList.map fun c => UInt8.ofNat c.toNat

/-- The byte of a 7-bit character. -/
def chr (c : Char) : UInt8 := UInt8.ofNat c.toNat

/-- `std::isspace`. -/
def isSpace (c : UInt8) : Bool := c = 32 ∨ (9 ≤ c ∧ c ≤ 13)
/-- `std::isalpha`. -/
def isAlpha (c : UInt8) : Bool := (65 ≤ c ∧ c ≤ 90) ∨ (97 ≤ c ∧ c ≤ 122)
/-- `std::isdigit`. -/
def isDigit (c : UInt8) : Bool := 48 ≤ c ∧ c ≤ 57
/-- `std::isxdigit`. -/
def isXdigit (c : UInt8) : Bool := isDigit c ∨ (65 ≤ c ∧ c ≤ 70) ∨ (97 ≤ c ∧ c ≤ 102)
/-- The characters an identifier starts with. -/
def startsWord (c : UInt8) : Bool := isAlpha c ∨ c = chr '_'
/-- The characters of an identifier. -/
def inWord (c : UInt8) : Bool := isAlpha c ∨ isDigit c ∨ c = chr '_'

/-- The quote, the semicolon, the slash and the end of a line. -/
abbrev quote : UInt8 := 34
abbrev semicolon : UInt8 := 59
abbrev slash : UInt8 := 47
abbrev newline : UInt8 := 10

/-! ## Tokens -/

/-- `merlite_token_type`. -/
inductive TokenType
  | contract | state | pub | fn | require | revert | return | if | else
  | caller | timestamp | uint256 | address | bool | mapping
  | identifier | number | string
  | assign | plus | minus | star | slash
  | eq | neq | lt | gt | lte | gte
  | lbrace | rbrace | lparen | rparen | lbracket | rbracket
  | semicolon | comma | arrow | fatArrow | eof
deriving DecidableEq

/-- The type and the text of a token: what the compiler reads of it. -/
structure Lexeme where
  type : TokenType
  text : Bytes
deriving DecidableEq

/-- `merlite_token`. -/
structure Token extends Lexeme where
  line : UInt32
  column : UInt32
deriving DecidableEq

/-- The keywords, in the order of the comparisons. -/
def keywords : List (Bytes × TokenType) :=
  [(ascii "contract", .contract), (ascii "state", .state), (ascii "pub", .pub), (ascii "fn", .fn),
   (ascii "require", .require), (ascii "revert", .revert), (ascii "return", .return),
   (ascii "if", .if), (ascii "else", .else), (ascii "caller", .caller),
   (ascii "timestamp", .timestamp), (ascii "uint256", .uint256), (ascii "address", .address),
   (ascii "bool", .bool), (ascii "mapping", .mapping)]

/-- The type of a word. -/
def wordType (word : Bytes) : TokenType := (keywords.lookup word).getD .identifier

/-- The operators of two characters, in the order of the comparisons. -/
def doubleOperators : List ((UInt8 × UInt8) × TokenType) :=
  [((chr '=', chr '='), .eq), ((chr '!', chr '='), .neq), ((chr '<', chr '='), .lte),
   ((chr '>', chr '='), .gte), ((chr '-', chr '>'), .arrow), ((chr '=', chr '>'), .fatArrow)]

/-- The `switch` over the operators of one character; 123 and 125 are the braces. -/
def singleOperators : List (UInt8 × TokenType) :=
  [(chr '=', .assign), (chr '+', .plus), (chr '-', .minus), (chr '*', .star), (slash, .slash),
   (chr '<', .lt), (chr '>', .gt), (123, .lbrace), (125, .rbrace), (chr '(', .lparen),
   (chr ')', .rparen), (chr '[', .lbracket), (chr ']', .rbracket), (semicolon, .semicolon),
   (chr ',', .comma)]

/-! ## One round -/

/-- What one round of the loop leaves: the token it read, the position, and the rest of the source. -/
structure Scanned where
  token : Option Token
  line : UInt32
  column : UInt32
  rest : Bytes

/-- A character that belongs to no token. -/
def skipChar (line column : UInt32) (c : UInt8) (rest : Bytes) : Scanned :=
  if c = newline then ⟨none, line + 1, 1, rest⟩ else ⟨none, line, column + 1, rest⟩

/-- A token that starts here and whose text is the front of the source. -/
def takeToken (type : TokenType) (line column : UInt32) (text rest : Bytes) : Scanned :=
  ⟨some ⟨⟨type, text⟩, line, column⟩, line, column + UInt32.ofNat text.length, rest⟩

/-- The text of the number at the head of the source. -/
def numberText (source : Bytes) : Bytes :=
  match source with
  | c :: x :: rest =>
    if c = chr '0' ∧ (x = chr 'x' ∨ x = chr 'X') then c :: x :: rest.takeWhile isXdigit
    else source.takeWhile isDigit
  | _ => source.takeWhile isDigit

/-- A string literal; `body` is the source behind the opening quote.  The token gets the position
behind the literal, and a line break inside does not reset the column. -/
def scanString (line column : UInt32) (body : Bytes) : Scanned :=
  let text := body.takeWhile (· ≠ quote)
  let closed := body.drop text.length
  let line := line + UInt32.ofNat (text.count newline)
  let column := column + 1 + UInt32.ofNat text.length
  match closed with
  | [] => ⟨some ⟨⟨.string, text⟩, line, column⟩, line, column, []⟩
  | _ :: rest => ⟨some ⟨⟨.string, text⟩, line, column + 1⟩, line, column + 1, rest⟩

/-- The operators, and the characters the tokenizer does not know. -/
def scanOperator (line column : UInt32) (c : UInt8) (rest : Bytes) : Scanned :=
  match rest.head?.bind fun d => doubleOperators.lookup (c, d) with
  | some type => takeToken type line column (c :: rest.take 1) (rest.drop 1)
  | none =>
    match singleOperators.lookup c with
    | some type => takeToken type line column [c] rest
    | none => ⟨none, line, column + 1, rest⟩

/-- One round of the loop of `tokenize` at the character `c`. -/
def scan (line column : UInt32) (c : UInt8) (rest : Bytes) : Scanned :=
  if isSpace c then skipChar line column c rest
  else if (c = slash ∧ rest.head? = some slash) ∨ c = semicolon then
    ⟨none, line, column, rest.dropWhile (· ≠ newline)⟩
  else if startsWord c then
    let word := (c :: rest).takeWhile inWord
    takeToken (wordType word) line column word ((c :: rest).drop word.length)
  else if isDigit c then
    let number := numberText (c :: rest)
    takeToken .number line column number ((c :: rest).drop number.length)
  else if c = quote then scanString line column rest
  else scanOperator line column c rest

/-! ## The loop -/

/-- The loop of `tokenize`; every round reads a character at least, so the length of the source is
fuel enough (`tokenizeFrom_fuel`). -/
def tokenizeFrom : ℕ → UInt32 → UInt32 → Bytes → List Token
  | fuel + 1, line, column, c :: rest =>
    let s := scan line column c rest
    s.token.toList ++ tokenizeFrom fuel s.line s.column s.rest
  | _, line, column, _ => [⟨⟨.eof, []⟩, line, column⟩]

/-- `merlite_compiler::tokenize`. -/
def tokenize (source : Bytes) : List Token := tokenizeFrom source.length 1 1 source

/-! ## Character classes -/

/-- A fact about bytes, checked one by one. -/
theorem forall_byte {P : UInt8 → Prop} (h : ∀ n < 256, P (UInt8.ofNat n)) (c : UInt8) : P c := by
  have := h c.toNat c.toNat_lt
  rwa [UInt8.ofNat_toNat] at this

/-- The checks of `scan` that come before words. -/
theorem startsWord_class : ∀ c, startsWord c = true →
    isSpace c = false ∧ c ≠ slash ∧ c ≠ semicolon ∧ inWord c = true :=
  forall_byte (by decide +kernel)

/-- The checks of `scan` that come before numbers. -/
theorem isDigit_class : ∀ c, isDigit c = true →
    isSpace c = false ∧ c ≠ slash ∧ c ≠ semicolon ∧ startsWord c = false ∧ isXdigit c = true ∧
      c ≠ chr 'x' ∧ c ≠ chr 'X' :=
  forall_byte (by decide +kernel)

/-! ## Every round reads a character -/

theorem drop_length_le {c : UInt8} {rest text : Bytes} (h : text ≠ []) :
    ((c :: rest).drop text.length).length ≤ rest.length := by
  have := List.length_pos_iff.mpr h
  rw [List.length_drop, List.length_cons]
  omega

theorem numberText_ne_nil {c : UInt8} {rest : Bytes} (hc : isDigit c = true) :
    numberText (c :: rest) ≠ [] := by
  cases rest with
  | nil => simp [numberText, hc]
  | cons x rest =>
    simp only [numberText]
    split_ifs <;> simp [hc]

theorem scanString_rest_le (line column : UInt32) (body : Bytes) :
    (scanString line column body).rest.length ≤ body.length := by
  have hdrop : (body.drop (body.takeWhile (· ≠ quote)).length).length ≤ body.length := by
    rw [List.length_drop]
    omega
  unfold scanString
  cases hclosed : body.drop (body.takeWhile (· ≠ quote)).length with
  | nil => simp only [hclosed, List.length_nil, Nat.zero_le]
  | cons d rest =>
    rw [hclosed, List.length_cons] at hdrop
    simp only [hclosed]
    omega

theorem scan_rest_le (line column : UInt32) (c : UInt8) (rest : Bytes) :
    (scan line column c rest).rest.length ≤ rest.length := by
  unfold scan
  split_ifs with h1 h2 h3 h4 h5
  · unfold skipChar
    split_ifs <;> exact le_rfl
  · exact List.length_dropWhile_le _ _
  · exact drop_length_le (by simp [(startsWord_class c h3).2.2.2])
  · exact drop_length_le (numberText_ne_nil h4)
  · exact scanString_rest_le line column rest
  · unfold scanOperator
    split
    · show (rest.drop 1).length ≤ rest.length
      rw [List.length_drop]
      omega
    · split <;> exact le_rfl

/-- Fuel beyond the length of the source changes nothing. -/
theorem tokenizeFrom_fuel {f f' : ℕ} {line column : UInt32} {s : Bytes} (h : s.length ≤ f)
    (h' : s.length ≤ f') : tokenizeFrom f line column s = tokenizeFrom f' line column s := by
  induction f generalizing f' line column s with
  | zero =>
    rw [List.length_eq_zero_iff.mp (Nat.le_zero.mp h)]
    cases f' <;> rfl
  | succ f ih =>
    cases s with
    | nil => cases f' <;> rfl
    | cons c rest =>
      cases f' with
      | zero => cases h'
      | succ f' =>
        have hle := scan_rest_le line column c rest
        have hf := Nat.le_of_succ_le_succ h
        have hf' := Nat.le_of_succ_le_succ h'
        rw [tokenizeFrom, tokenizeFrom, ih (hle.trans hf) (hle.trans hf')]

end Mermai.Merlite
