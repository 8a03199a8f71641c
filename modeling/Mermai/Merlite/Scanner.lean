import Mermai.Lib.Machine
import Mermai.Merlite.Token

/-!
# Merlite.Scanner — the loops of `tokenize`

`tokenize` here is the code as it stands: an index into the source, and inside the loop over it the loops
that skip a comment or read a word, a number or a string.  A step is one round of whichever loop is running,
so nothing says beforehand that a loop ends, and `substr` throws for a start behind the end of the source.
`run_tokenize` says that fuel for three steps a character is enough, that nothing is thrown, and that the
result is that of `tokenize`.
-/

namespace Mermai.Merlite

/-! ## The loops -/

/-- The inner loops that read the text of a token. -/
inductive TextKind
  | word | hex | digits

/-- The condition of the loop on the character. -/
def TextKind.holds : TextKind → UInt8 → Bool
  | .word => inWord
  | .hex => isXdigit
  | .digits => isDigit

/-- The type of the token. -/
def TextKind.type : TextKind → Bytes → TokenType
  | .word, text => wordType text
  | _, _ => .number

/-- The loop that runs: the outer one, or an inner one with its variables `start` and `start_col`. -/
inductive Place
  | between
  | comment
  | text (kind : TextKind) (start : ℕ) (startCol : UInt32)
  | string (start : ℕ)

/-- The variables of `tokenize`. -/
structure Scanner where
  place : Place := .between
  i : ℕ := 0
  line : UInt32 := 1
  col : UInt32 := 1
  tokens : List Token := []

/-- `std::string::substr`. -/
def substr (source : Bytes) (start length : ℕ) : Except String Bytes :=
  if start ≤ source.length then .ok ((source.drop start).take length) else .error "basic_string::substr"

namespace Scanner

/-- `tokens.push_back`. -/
def push (s : Scanner) (type : TokenType) (text : Bytes) (col : UInt32) : Scanner :=
  { s with tokens := s.tokens ++ [⟨⟨type, text⟩, s.line, col⟩] }

/-- `i += n; col += n;`. -/
def advance (s : Scanner) (n : ℕ) : Scanner := { s with i := s.i + n, col := s.col + UInt32.ofNat n }

/-- A round of the outer loop at the character `c`; the inner loops begin here. -/
def round (source : Bytes) (s : Scanner) (c : UInt8) : Scanner :=
  let next := source[s.i + 1]?
  if isSpace c then
    if c = newline then { s with i := s.i + 1, line := s.line + 1, col := 1 } else s.advance 1
  else if (c = slash ∧ next = some slash) ∨ c = semicolon then { s with place := .comment }
  else if startsWord c then { s with place := .text .word s.i s.col }
  else if isDigit c then
    if c = chr '0' ∧ (next = some (chr 'x') ∨ next = some (chr 'X')) then
      { s.advance 2 with place := .text .hex s.i s.col }
    else { s with place := .text .digits s.i s.col }
  else if c = quote then { s.advance 1 with place := .string (s.i + 1) }
  else
    match next.bind fun d => doubleOperators.lookup (c, d) with
    | some type => (s.push type (c :: next.toList) s.col).advance 2
    | none =>
      match singleOperators.lookup c with
      | some type => (s.push type [c] s.col).advance 1
      | none => s.advance 1

/-- A round of the loop that runs, and of the code behind it when it is over. -/
def step (source : Bytes) (s : Scanner) : Machine.Step Scanner (Except String (List Token)) :=
  match s.place with
  | .between =>
    match source[s.i]? with
    | some c => .next (s.round source c)
    | none => .stop (.ok (s.push .eof [] s.col).tokens)
  | .comment =>
    match source[s.i]?.filter (· ≠ newline) with
    | some _ => .next { s with i := s.i + 1 }
    | none => .next { s with place := .between }
  | .text kind start startCol =>
    match source[s.i]?.filter kind.holds with
    | some _ => .next (s.advance 1)
    | none =>
      match substr source start (s.i - start) with
      | .error what => .stop (.error what)
      | .ok text => .next { s.push (kind.type text) text startCol with place := .between }
  | .string start =>
    match source[s.i]?.filter (· ≠ quote) with
    | some c => .next ({ s with line := if c = newline then s.line + 1 else s.line }.advance 1)
    | none =>
      match substr source start (s.i - start) with
      | .error what => .stop (.error what)
      | .ok text =>
        let s := if source[s.i]? = some quote then s.advance 1 else s
        .next { s.push .string text s.col with place := .between }

/-- `tokenize`, for a number of rounds; `none` when it is still running. -/
def runTokenize (fuel : ℕ) (source : Bytes) : Option (Except String (List Token)) :=
  Machine.run (step source) fuel {}

/-! ## What is still to come -/

/-- The tokens of a rest of the source. -/
def tokensFrom (line column : UInt32) (rest : Bytes) : List Token :=
  tokenizeFrom rest.length line column rest

/-- A string literal of which the front has been read. -/
def closeString (line column : UInt32) (front body : Bytes) : Scanned :=
  let text := body.takeWhile (· ≠ quote)
  let line := line + UInt32.ofNat (text.count newline)
  let column := column + UInt32.ofNat text.length
  match body.drop text.length with
  | [] => ⟨some ⟨⟨.string, front ++ text⟩, line, column⟩, line, column, []⟩
  | _ :: rest => ⟨some ⟨⟨.string, front ++ text⟩, line, column + 1⟩, line, column + 1, rest⟩

/-- A token and those behind it. -/
def follow (s : Scanned) : List Token := s.token.toList ++ tokensFrom s.line s.column s.rest

/-- The tokens that the run will have pushed. -/
def meaning (source : Bytes) (s : Scanner) : List Token :=
  let rest := source.drop s.i
  s.tokens ++
    match s.place with
    | .between => tokensFrom s.line s.col rest
    | .comment => tokensFrom s.line s.col (rest.dropWhile (· ≠ newline))
    | .text kind start startCol =>
      let run := rest.takeWhile kind.holds
      let text := (source.drop start).take (s.i - start) ++ run
      follow ⟨some ⟨⟨kind.type text, text⟩, s.line, startCol⟩, s.line, s.col + UInt32.ofNat run.length,
        rest.dropWhile kind.holds⟩
    | .string start => follow (closeString s.line s.col ((source.drop start).take (s.i - start)) rest)

theorem tokensFrom_cons (line column : UInt32) (c : UInt8) (rest : Bytes) :
    tokensFrom line column (c :: rest) = follow (scan line column c rest) := by
  have hle := scan_rest_le line column c rest
  rw [follow, tokensFrom, List.length_cons, tokenizeFrom, tokensFrom, tokenizeFrom_fuel hle le_rfl]

theorem add_ofNat_succ (n : UInt32) (k : ℕ) : n + UInt32.ofNat (k + 1) = n + 1 + UInt32.ofNat k := by
  rw [UInt32.ofNat_add, UInt32.add_assoc, UInt32.add_comm 1]
  rfl

theorem closeString_cons {c : UInt8} (hc : c ≠ quote) (line column : UInt32) (front rest : Bytes) :
    closeString line column front (c :: rest) =
      closeString (if c = newline then line + 1 else line) (column + 1) (front ++ [c]) rest := by
  have hrun : (c :: rest).takeWhile (· ≠ quote) = c :: rest.takeWhile (· ≠ quote) :=
    List.takeWhile_cons_of_pos (by simpa using hc)
  have hline : line + UInt32.ofNat ((c :: rest.takeWhile (· ≠ quote)).count newline) =
      (if c = newline then line + 1 else line) +
        UInt32.ofNat ((rest.takeWhile (· ≠ quote)).count newline) := by
    by_cases hnewline : c = newline
    · rw [if_pos hnewline, hnewline, List.count_cons_self, add_ofNat_succ]
    · rw [if_neg hnewline, List.count_cons_of_ne hnewline]
  simp only [closeString, hrun, hline, List.length_cons, add_ofNat_succ, List.drop_succ_cons,
    List.append_assoc, List.singleton_append]

theorem closeString_quote (line column : UInt32) (front rest : Bytes) :
    closeString line column front (quote :: rest) =
      ⟨some ⟨⟨.string, front⟩, line, column + 1⟩, line, column + 1, rest⟩ := by
  have hnone : (quote :: rest).takeWhile (· ≠ quote) = [] := by simp
  simp [closeString]

theorem closeString_nil (line column : UInt32) (front : Bytes) :
    closeString line column front [] = ⟨some ⟨⟨.string, front⟩, line, column⟩, line, column, []⟩ := by
  simp [closeString]

theorem scanString_eq (line column : UInt32) (body : Bytes) :
    scanString line column body = closeString line (column + 1) [] body := by
  rfl

/-! ## Positions -/

theorem drop_length_takeWhile (p : UInt8 → Bool) (s : Bytes) :
    s.drop (s.takeWhile p).length = s.dropWhile p := by
  have hsplit := congrArg (List.drop (s.takeWhile p).length) (@List.takeWhile_append_dropWhile _ p s)
  rw [List.drop_left] at hsplit
  exact hsplit.symm

/-- One more character of a text. -/
theorem slice_succ {source : Bytes} {start i : ℕ} {c : UInt8} (hstart : start ≤ i)
    (h : source[i]? = some c) :
    (source.drop start).take (i + 1 - start) = (source.drop start).take (i - start) ++ [c] := by
  have hc : (source.drop start)[i - start]? = some c := by
    rw [List.getElem?_drop, Nat.add_sub_cancel' hstart, h]
  have hlen : i + 1 - start = i - start + 1 := by omega
  rw [hlen, List.take_add_one, hc]
  rfl

/-! ## Every round gets closer -/

/-- The index is no further than the end of the source, and `start` no further than the index. -/
def Within (source : Bytes) (s : Scanner) : Prop :=
  s.i ≤ source.length ∧
    match s.place with
    | .between | .comment => True
    | .text _ start _ | .string start => start ≤ s.i

/-- An inner loop that goes on at the index comes before the outer loop, which comes before an inner loop
that is over. -/
def rank (source : Bytes) (s : Scanner) : ℕ :=
  match s.place with
  | .between => 1
  | .comment => if (source[s.i]?.filter (· ≠ newline)).isSome then 0 else 2
  | .text kind _ _ => if (source[s.i]?.filter kind.holds).isSome then 0 else 2
  | .string _ => 2

def measure (source : Bytes) (s : Scanner) : ℕ := 3 * (source.length - s.i) + s.rank source

theorem rank_le (source : Bytes) (s : Scanner) : s.rank source ≤ 2 := by
  unfold rank
  split <;> try split_ifs
  all_goals decide

/-- What a round does to a state. -/
structure Keeps (source : Bytes) (s s' : Scanner) : Prop where
  within : Within source s'
  lower : s'.measure source < s.measure source
  meaning : s'.meaning source = s.meaning source

/-- An index further on lowers the measure unless an inner loop was about to go on. -/
theorem measure_lt {source : Bytes} {s s' : Scanner} (hi : s.i < s'.i) (hlt : s.i < source.length) :
    s'.measure source < s.measure source := by
  have := rank_le source s'
  unfold measure
  omega

section Round

variable {source : Bytes} {i : ℕ} {line col : UInt32} {tokens : List Token} {c : UInt8}

theorem meaning_between (hc : source[i]? = some c) :
    meaning source ⟨.between, i, line, col, tokens⟩ =
      tokens ++ follow (scan line col c (source.drop (i + 1))) := by
  rw [← tokensFrom_cons, ← drop_of_getElem? hc]
  rfl

/-- The rounds of the outer loop without an inner one. -/
theorem keeps_scanned (hc : source[i]? = some c) {r : Scanned} {n : ℕ} (hn : 0 < n)
    (hi : i + n ≤ source.length) (hscan : scan line col c (source.drop (i + 1)) = r)
    (hrest : r.rest = source.drop (i + n)) :
    Keeps source ⟨.between, i, line, col, tokens⟩
      ⟨.between, i + n, r.line, r.column, tokens ++ r.token.toList⟩ where
  within := ⟨hi, trivial⟩
  lower := measure_lt (Nat.lt_add_of_pos_right hn) (by dsimp only; omega)
  meaning := by
    rw [meaning_between hc, hscan, follow, hrest, ← List.append_assoc]
    rfl

theorem keeps_space (hc : source[i]? = some c) (hspace : isSpace c = true) :
    Keeps source ⟨.between, i, line, col, tokens⟩
      (round source ⟨.between, i, line, col, tokens⟩ c) := by
  have hlt := (List.getElem?_eq_some_iff.mp hc).1
  have hkeeps := @keeps_scanned source i line col tokens c hc _ 1 Nat.one_pos hlt
    (if_pos hspace) (by unfold skipChar; split_ifs <;> rfl)
  rw [round, if_pos hspace]
  unfold skipChar at hkeeps
  split_ifs at hkeeps ⊢ with hnewline
  · simpa using hkeeps
  · simpa [advance] using hkeeps

theorem keeps_comment (hc : source[i]? = some c) (hspace : ¬ isSpace c = true)
    (hcomment : (c = slash ∧ source[i + 1]? = some slash) ∨ c = semicolon) :
    Keeps source ⟨.between, i, line, col, tokens⟩
      (round source ⟨.between, i, line, col, tokens⟩ c) := by
  have hlt := (List.getElem?_eq_some_iff.mp hc).1
  have hround : round source ⟨.between, i, line, col, tokens⟩ c = ⟨.comment, i, line, col, tokens⟩ := by
    rw [round, if_neg hspace, if_pos hcomment]
  have hscan : scan line col c (source.drop (i + 1)) =
      ⟨none, line, col, (source.drop (i + 1)).dropWhile (· ≠ newline)⟩ := by
    rw [scan, if_neg hspace, List.head?_drop, if_pos hcomment]
  -- the first character of a comment does not end it
  have hfirst : c ≠ newline := by
    rcases hcomment with ⟨rfl, -⟩ | rfl <;> decide
  rw [hround]
  refine ⟨⟨hlt.le, trivial⟩, ?_, ?_⟩
  · unfold measure rank
    simp [hc, Option.filter, hfirst]
  · rw [meaning_between hc, hscan]
    simp only [meaning, drop_of_getElem? hc]
    rw [List.dropWhile_cons_of_pos (by simpa using hfirst)]
    rfl

/-- The loop that reads a text begins at its first character. -/
theorem keeps_text (hc : source[i]? = some c) (kind : TextKind) (hholds : kind.holds c = true)
    (hscan : scan line col c (source.drop (i + 1)) =
      takeToken (kind.type ((source.drop i).takeWhile kind.holds)) line col
        ((source.drop i).takeWhile kind.holds)
        ((source.drop i).drop ((source.drop i).takeWhile kind.holds).length)) :
    Keeps source ⟨.between, i, line, col, tokens⟩ ⟨.text kind i col, i, line, col, tokens⟩ := by
  have hlt := (List.getElem?_eq_some_iff.mp hc).1
  refine ⟨⟨hlt.le, le_refl i⟩, ?_, ?_⟩
  · unfold measure rank
    simp [hc, Option.filter, hholds]
  · rw [meaning_between hc, hscan, takeToken, drop_length_takeWhile]
    simp only [meaning, Nat.sub_self, List.take_zero, List.nil_append]

theorem keeps_word (hc : source[i]? = some c) (hspace : ¬ isSpace c = true)
    (hcomment : ¬ ((c = slash ∧ source[i + 1]? = some slash) ∨ c = semicolon))
    (hword : startsWord c = true) :
    Keeps source ⟨.between, i, line, col, tokens⟩
      (round source ⟨.between, i, line, col, tokens⟩ c) := by
  have hround : round source ⟨.between, i, line, col, tokens⟩ c =
      ⟨.text .word i col, i, line, col, tokens⟩ := by
    rw [round, if_neg hspace, if_neg hcomment, if_pos hword]
  have hscan := drop_of_getElem? hc
  rw [hround]
  refine keeps_text hc .word (startsWord_class c hword).2.2.2 ?_
  rw [scan, if_neg hspace, List.head?_drop, if_neg hcomment, if_pos hword, ← hscan]
  rfl

/-- A number without the prefix of base 16 is read digit by digit. -/
theorem numberText_drop (hc : source[i]? = some c)
    (hhex : ¬ (c = chr '0' ∧ (source[i + 1]? = some (chr 'x') ∨ source[i + 1]? = some (chr 'X')))) :
    numberText (source.drop i) = (source.drop i).takeWhile isDigit := by
  rw [drop_of_getElem? hc]
  cases hnext : source[i + 1]? with
  | none =>
    have hend : source.drop (i + 1) = [] := drop_eq_nil_of_getElem? hnext
    rw [hend]
    rfl
  | some x =>
    rw [hnext] at hhex
    rw [drop_of_getElem? hnext, numberText, if_neg]
    rintro ⟨hzero, rfl | rfl⟩
    · exact hhex ⟨hzero, .inl rfl⟩
    · exact hhex ⟨hzero, .inr rfl⟩

/-- A number with the prefix of base 16 is read behind its two characters. -/
theorem numberText_drop_hex (hc : source[i]? = some c)
    (hhex : c = chr '0' ∧ (source[i + 1]? = some (chr 'x') ∨ source[i + 1]? = some (chr 'X'))) :
    ∃ x, source[i + 1]? = some x ∧
      numberText (source.drop i) = c :: x :: (source.drop (i + 2)).takeWhile isXdigit := by
  obtain ⟨x, hx, hxX⟩ : ∃ x, source[i + 1]? = some x ∧ (x = chr 'x' ∨ x = chr 'X') := by
    rcases hhex.2 with h | h
    · exact ⟨_, h, .inl rfl⟩
    · exact ⟨_, h, .inr rfl⟩
  refine ⟨x, hx, ?_⟩
  rw [drop_of_getElem? hc, drop_of_getElem? hx, numberText, if_pos ⟨hhex.1, hxX⟩]

/-- The loop that reads the digits of base 16 begins behind the prefix. -/
theorem keeps_hex {x : UInt8} (hc : source[i]? = some c) (hx : source[i + 1]? = some x)
    (htext : numberText (source.drop i) = c :: x :: (source.drop (i + 2)).takeWhile isXdigit)
    (hscan : scan line col c (source.drop (i + 1)) =
      takeToken .number line col (numberText (source.drop i))
        ((source.drop i).drop (numberText (source.drop i)).length)) :
    Keeps source ⟨.between, i, line, col, tokens⟩ ⟨.text .hex i col, i + 2, line, col + 2, tokens⟩ := by
  have hlt := (List.getElem?_eq_some_iff.mp hx).1
  have htwo : source.drop i = c :: x :: source.drop (i + 2) := by
    rw [drop_of_getElem? hc, drop_of_getElem? hx]
  have hread : (source.drop i).take (i + 2 - i) = [c, x] := by
    rw [htwo, Nat.add_sub_cancel_left]
    rfl
  have hcol : col + 2 = col + 1 + 1 := by
    rw [UInt32.add_assoc]
    rfl
  refine ⟨⟨hlt, Nat.le_add_right i 2⟩, measure_lt (by dsimp only; omega) (by dsimp only; omega), ?_⟩
  rw [meaning_between hc, hscan, htext, takeToken]
  simp only [meaning, hread, TextKind.type, TextKind.holds, List.length_cons, add_ofNat_succ,
    List.cons_append, List.nil_append]
  rw [htwo, List.drop_succ_cons, List.drop_succ_cons, drop_length_takeWhile, hcol]

theorem keeps_number (hc : source[i]? = some c) (hspace : ¬ isSpace c = true)
    (hcomment : ¬ ((c = slash ∧ source[i + 1]? = some slash) ∨ c = semicolon))
    (hword : ¬ startsWord c = true) (hdigit : isDigit c = true) :
    Keeps source ⟨.between, i, line, col, tokens⟩
      (round source ⟨.between, i, line, col, tokens⟩ c) := by
  have hscan : scan line col c (source.drop (i + 1)) =
      takeToken .number line col (numberText (source.drop i))
        ((source.drop i).drop (numberText (source.drop i)).length) := by
    rw [scan, if_neg hspace, List.head?_drop, if_neg hcomment, if_neg hword, if_pos hdigit,
      ← drop_of_getElem? hc]
  by_cases hhex : c = chr '0' ∧ (source[i + 1]? = some (chr 'x') ∨ source[i + 1]? = some (chr 'X'))
  · have hround : round source ⟨.between, i, line, col, tokens⟩ c =
        ⟨.text .hex i col, i + 2, line, col + 2, tokens⟩ := by
      rw [round, if_neg hspace, if_neg hcomment, if_neg hword, if_pos hdigit, if_pos hhex]
      rfl
    obtain ⟨x, hx, htext⟩ := numberText_drop_hex hc hhex
    rw [hround]
    exact keeps_hex hc hx htext hscan
  · have hround : round source ⟨.between, i, line, col, tokens⟩ c =
        ⟨.text .digits i col, i, line, col, tokens⟩ := by
      rw [round, if_neg hspace, if_neg hcomment, if_neg hword, if_pos hdigit, if_neg hhex]
    rw [hround]
    refine keeps_text hc .digits hdigit ?_
    rw [hscan, numberText_drop hc hhex]
    rfl

theorem keeps_string (hc : source[i]? = some c) (hspace : ¬ isSpace c = true)
    (hcomment : ¬ ((c = slash ∧ source[i + 1]? = some slash) ∨ c = semicolon))
    (hword : ¬ startsWord c = true) (hdigit : ¬ isDigit c = true) (hquote : c = quote) :
    Keeps source ⟨.between, i, line, col, tokens⟩
      (round source ⟨.between, i, line, col, tokens⟩ c) := by
  have hlt := (List.getElem?_eq_some_iff.mp hc).1
  have hround : round source ⟨.between, i, line, col, tokens⟩ c =
      ⟨.string (i + 1), i + 1, line, col + 1, tokens⟩ := by
    rw [round, if_neg hspace, if_neg hcomment, if_neg hword, if_neg hdigit, if_pos hquote]
    rfl
  have hscan : scan line col c (source.drop (i + 1)) =
      closeString line (col + 1) [] (source.drop (i + 1)) := by
    rw [scan, if_neg hspace, List.head?_drop, if_neg hcomment, if_neg hword, if_neg hdigit,
      if_pos hquote, scanString_eq]
  rw [hround]
  refine ⟨⟨hlt, le_refl (i + 1)⟩, measure_lt (by dsimp only; omega) hlt, ?_⟩
  rw [meaning_between hc, hscan]
  simp only [meaning, Nat.sub_self, List.take_zero]

theorem keeps_operator (hc : source[i]? = some c) (hspace : ¬ isSpace c = true)
    (hcomment : ¬ ((c = slash ∧ source[i + 1]? = some slash) ∨ c = semicolon))
    (hword : ¬ startsWord c = true) (hdigit : ¬ isDigit c = true) (hquote : ¬ c = quote) :
    Keeps source ⟨.between, i, line, col, tokens⟩
      (round source ⟨.between, i, line, col, tokens⟩ c) := by
  have hlt := (List.getElem?_eq_some_iff.mp hc).1
  have hscan : scan line col c (source.drop (i + 1)) =
      scanOperator line col c (source.drop (i + 1)) := by
    rw [scan, if_neg hspace, List.head?_drop, if_neg hcomment, if_neg hword, if_neg hdigit,
      if_neg hquote]
  rw [round, if_neg hspace, if_neg hcomment, if_neg hword, if_neg hdigit, if_neg hquote]
  rw [scanOperator, List.head?_drop] at hscan
  cases hdouble : source[i + 1]?.bind fun d => doubleOperators.lookup (c, d) with
  | some type =>
    obtain ⟨d, hd, -⟩ := Option.bind_eq_some_iff.mp hdouble
    have htwo := (List.getElem?_eq_some_iff.mp hd).1
    have htoken : scan line col c (source.drop (i + 1)) =
        takeToken type line col [c, d] (source.drop (i + 2)) := by
      rw [hscan, hdouble, drop_of_getElem? hd]
      rfl
    rw [hd]
    exact keeps_scanned hc Nat.two_pos htwo htoken rfl
  | none =>
    rw [hdouble] at hscan
    dsimp only at hscan ⊢
    cases hsingle : singleOperators.lookup c with
    | some type =>
      rw [hsingle] at hscan
      exact keeps_scanned hc Nat.one_pos hlt hscan rfl
    | none =>
      rw [hsingle] at hscan
      have hkeeps := @keeps_scanned source i line col tokens c hc _ 1 Nat.one_pos hlt hscan rfl
      rw [Option.toList_none, List.append_nil] at hkeeps
      exact hkeeps

/-- A round of the outer loop. -/
theorem keeps_round (hc : source[i]? = some c) :
    Keeps source ⟨.between, i, line, col, tokens⟩
      (round source ⟨.between, i, line, col, tokens⟩ c) := by
  by_cases hspace : isSpace c = true
  · exact keeps_space hc hspace
  by_cases hcomment : (c = slash ∧ source[i + 1]? = some slash) ∨ c = semicolon
  · exact keeps_comment hc hspace hcomment
  by_cases hword : startsWord c = true
  · exact keeps_word hc hspace hcomment hword
  by_cases hdigit : isDigit c = true
  · exact keeps_number hc hspace hcomment hword hdigit
  by_cases hquote : c = quote
  · exact keeps_string hc hspace hcomment hword hdigit hquote
  · exact keeps_operator hc hspace hcomment hword hdigit hquote

/-! ## The inner loops -/

variable {p : UInt8 → Bool}

theorem goes_on (h : source[i]?.filter p = some c) :
    i < source.length ∧ source.drop i = c :: source.drop (i + 1) ∧ p c = true ∧ source[i]? = some c := by
  obtain ⟨hc, hp⟩ := Option.filter_eq_some_iff.mp h
  exact ⟨(List.getElem?_eq_some_iff.mp hc).1, drop_of_getElem? hc, hp, hc⟩

theorem is_over (h : source[i]?.filter p = none) :
    (source.drop i).takeWhile p = [] ∧ (source.drop i).dropWhile p = source.drop i := by
  cases hc : source[i]? with
  | none =>
    have hend : source.drop i = [] := drop_eq_nil_of_getElem? hc
    rw [hend]
    exact ⟨rfl, rfl⟩
  | some c =>
    rw [hc] at h
    have hp : ¬ p c = true := by simpa [Option.filter] using h
    rw [drop_of_getElem? hc]
    exact ⟨List.takeWhile_cons_of_neg hp, List.dropWhile_cons_of_neg hp⟩

theorem substr_of_within {start : ℕ} (hi : i ≤ source.length) (hstart : start ≤ i) :
    substr source start (i - start) = .ok ((source.drop start).take (i - start)) :=
  if_pos (hstart.trans hi)

/-- What every round does: it gets closer to the end, and nothing is thrown. -/
abbrev Advances (source : Bytes) (s : Scanner) : Prop :=
  Machine.Descends (step source) (Within source) (measure source) (fun s => .ok (meaning source s)) s

theorem Keeps.advances {s s' : Scanner} (h : Keeps source s s') (hstep : step source s = .next s') :
    Advances source s :=
  .next hstep h.within h.lower (congrArg Except.ok h.meaning)

theorem advances_between : Advances source ⟨.between, i, line, col, tokens⟩ := by
  cases hc : source[i]? with
  | some c =>
    refine (keeps_round hc).advances ?_
    simp only [step, hc]
  | none =>
    refine .stop ?_
    have hend : source.drop i = [] := drop_eq_nil_of_getElem? hc
    simp only [step, hc, meaning, hend]
    rfl

theorem advances_comment (hi : i ≤ source.length) : Advances source ⟨.comment, i, line, col, tokens⟩ := by
  cases hgo : source[i]?.filter (· ≠ newline) with
  | some c =>
    obtain ⟨hlt, hdrop, hp, -⟩ := goes_on hgo
    have hkeeps : Keeps source ⟨.comment, i, line, col, tokens⟩ ⟨.comment, i + 1, line, col, tokens⟩ := by
      refine ⟨⟨hlt, trivial⟩, measure_lt (Nat.lt_succ_self i) hlt, ?_⟩
      simp only [meaning, hdrop]
      rw [List.dropWhile_cons_of_pos (p := fun x => decide (x ≠ newline)) hp]
    refine hkeeps.advances ?_
    simp only [step, hgo]
  | none =>
    obtain ⟨-, hrest⟩ := is_over hgo
    have hkeeps : Keeps source ⟨.comment, i, line, col, tokens⟩ ⟨.between, i, line, col, tokens⟩ := by
      refine ⟨⟨hi, trivial⟩, ?_, ?_⟩
      · simp only [measure, rank, hgo, Option.isSome_none, Bool.false_eq_true, if_false]
        omega
      · simp only [meaning, hrest]
    refine hkeeps.advances ?_
    simp only [step, hgo]

theorem advances_text {kind : TextKind} {start : ℕ} {startCol : UInt32} (hi : i ≤ source.length)
    (hstart : start ≤ i) : Advances source ⟨.text kind start startCol, i, line, col, tokens⟩ := by
  cases hgo : source[i]?.filter kind.holds with
  | some c =>
    obtain ⟨hlt, hdrop, hp, hc⟩ := goes_on hgo
    have hkeeps : Keeps source ⟨.text kind start startCol, i, line, col, tokens⟩
        ⟨.text kind start startCol, i + 1, line, col + 1, tokens⟩ := by
      refine ⟨⟨hlt, hstart.trans (Nat.le_succ i)⟩, measure_lt (Nat.lt_succ_self i) hlt, ?_⟩
      simp only [meaning, hdrop, slice_succ hstart hc, List.takeWhile_cons_of_pos hp,
        List.dropWhile_cons_of_pos hp, List.length_cons, add_ofNat_succ, List.append_assoc,
        List.singleton_append]
    refine hkeeps.advances ?_
    simp only [step, hgo]
    rfl
  | none =>
    obtain ⟨hrun, hrest⟩ := is_over hgo
    have hkeeps : Keeps source ⟨.text kind start startCol, i, line, col, tokens⟩
        ⟨.between, i, line, col, tokens ++ [⟨⟨kind.type ((source.drop start).take (i - start)),
          (source.drop start).take (i - start)⟩, line, startCol⟩]⟩ := by
      refine ⟨⟨hi, trivial⟩, ?_, ?_⟩
      · simp only [measure, rank, hgo, Option.isSome_none, Bool.false_eq_true, if_false]
        omega
      · simp only [meaning, hrun, hrest, List.append_nil, List.length_nil, List.append_assoc]
        rw [show UInt32.ofNat 0 = 0 from rfl, UInt32.add_zero]
        rfl
    refine hkeeps.advances ?_
    simp only [step, hgo, substr_of_within hi hstart]
    rfl

theorem advances_string {start : ℕ} (hi : i ≤ source.length) (hstart : start ≤ i) :
    Advances source ⟨.string start, i, line, col, tokens⟩ := by
  cases hgo : source[i]?.filter (· ≠ quote) with
  | some c =>
    obtain ⟨hlt, hdrop, hp, hc⟩ := goes_on hgo
    have hquote : c ≠ quote := by simpa using hp
    have hkeeps : Keeps source ⟨.string start, i, line, col, tokens⟩
        ⟨.string start, i + 1, if c = newline then line + 1 else line, col + 1, tokens⟩ := by
      refine ⟨⟨hlt, hstart.trans (Nat.le_succ i)⟩, measure_lt (Nat.lt_succ_self i) hlt, ?_⟩
      simp only [meaning, hdrop, slice_succ hstart hc, closeString_cons hquote]
    refine hkeeps.advances ?_
    simp only [step, hgo]
    rfl
  | none =>
    cases hc : source[i]? with
    | none =>
      have hend : source.drop i = [] := drop_eq_nil_of_getElem? hc
      have hkeeps : Keeps source ⟨.string start, i, line, col, tokens⟩
          ⟨.between, i, line, col, tokens ++ [⟨⟨.string, (source.drop start).take (i - start)⟩,
            line, col⟩]⟩ := by
        refine ⟨⟨hi, trivial⟩, by simp [measure, rank], ?_⟩
        simp only [meaning, hend, closeString_nil, List.append_assoc]
        rfl
      refine hkeeps.advances ?_
      simp only [step, hc, substr_of_within hi hstart]
      rfl
    | some c =>
      have hquote : c = quote := by
        rw [hc] at hgo
        simpa [Option.filter] using hgo
      subst hquote
      have hlt := (List.getElem?_eq_some_iff.mp hc).1
      have hkeeps : Keeps source ⟨.string start, i, line, col, tokens⟩
          ⟨.between, i + 1, line, col + 1,
            tokens ++ [⟨⟨.string, (source.drop start).take (i - start)⟩, line, col + 1⟩]⟩ := by
        refine ⟨⟨hlt, trivial⟩, measure_lt (Nat.lt_succ_self i) hlt, ?_⟩
        simp only [meaning, drop_of_getElem? hc, closeString_quote, List.append_assoc]
        rfl
      refine hkeeps.advances ?_
      simp only [step, hc, substr_of_within hi hstart]
      rfl

end Round

theorem advances {source : Bytes} {s : Scanner} (h : Within source s) : Advances source s := by
  obtain ⟨place, i, line, col, tokens⟩ := s
  cases place with
  | between => exact advances_between
  | comment => exact advances_comment h.1
  | text kind start startCol => exact advances_text h.1 h.2
  | string start => exact advances_string h.1 h.2

/-- **`tokenize` is total**: with fuel for three rounds a character it ends, throws nothing, and returns the
tokens. -/
theorem runTokenize_eq (source : Bytes) {fuel : ℕ} (hfuel : 3 * source.length + 1 < fuel) :
    runTokenize fuel source = some (.ok (tokenize source)) := by
  have hwithin : Within source {} := ⟨Nat.zero_le _, trivial⟩
  exact Machine.run_of_measure (fun s => advances) hwithin hfuel

end Scanner

end Mermai.Merlite
