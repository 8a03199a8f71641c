import Mermai.Merlite.Token

/-!
# Merlite.Layout — the texts of a list of tokens

A source is laid out from a list of tokens by writing them one after the other, with gaps: white space,
comments up to the end of the line, characters the tokenizer does not know.  `LaidOut ls s` says that `s`
is such a text of `ls`; a gap may be empty when the next character does not belong to the token before
it (`Delimited`).  The tokenizer reads the tokens back from every layout (`tokenize_laidOut`).

The plainest layout writes a list of tokens to a line, with a blank behind each (`printLine`).
-/

namespace Mermai.Merlite

/-! ## Layouts -/

/-- The ways to start a comment. -/
def commentStarts : List Bytes := [[semicolon], [slash, slash]]

/-- A character no token starts with. -/
def Unknown (c : UInt8) : Prop :=
  isSpace c = false ∧ startsWord c = false ∧ isDigit c = false ∧ c ≠ quote ∧ c ≠ semicolon ∧
    singleOperators.lookup c = none ∧ ∀ d, doubleOperators.lookup (c, d) = none

/-- What may stand between two tokens. -/
inductive Gap : Bytes → Prop
  | nil : Gap []
  | space {c : UInt8} {g : Bytes} : isSpace c = true → Gap g → Gap (c :: g)
  | unknown {c : UInt8} {g : Bytes} : Unknown c → Gap g → Gap (c :: g)
  | comment {start text g : Bytes} : start ∈ commentStarts → newline ∉ text → Gap g →
      Gap (start ++ text ++ newline :: g)

/-- A token that ends before the character `next`, or at the end of the source. -/
inductive Delimited (next : Option UInt8) : Lexeme → Prop
  | word {c : UInt8} {text : Bytes} : startsWord c = true → (∀ d ∈ text, inWord d = true) →
      (∀ d ∈ next, inWord d = false) → Delimited next ⟨wordType (c :: text), c :: text⟩
  | decimal {c : UInt8} {text : Bytes} : isDigit c = true → (∀ d ∈ text, isDigit d = true) →
      (∀ d ∈ next, isDigit d = false ∧ (text = [] → d ≠ chr 'x' ∧ d ≠ chr 'X')) →
      Delimited next ⟨.number, c :: text⟩
  | hex {x : UInt8} {text : Bytes} : x = chr 'x' ∨ x = chr 'X' → (∀ d ∈ text, isXdigit d = true) →
      (∀ d ∈ next, isXdigit d = false) → Delimited next ⟨.number, chr '0' :: x :: text⟩
  | string {text : Bytes} : quote ∉ text → Delimited next ⟨.string, text⟩
  | double {c d : UInt8} {type : TokenType} : ((c, d), type) ∈ doubleOperators →
      Delimited next ⟨type, [c, d]⟩
  | single {c : UInt8} {type : TokenType} : (c, type) ∈ singleOperators → c ≠ semicolon →
      (∀ d ∈ next, doubleOperators.lookup (c, d) = none ∧ ¬ (c = slash ∧ d = slash)) →
      Delimited next ⟨type, [c]⟩

/-- A token as it is written: strings in quotes. -/
def Lexeme.print (l : Lexeme) : Bytes :=
  if l.type = .string then quote :: (l.text ++ [quote]) else l.text

/-- `s` is a text of the tokens `ls`. -/
inductive LaidOut : List Lexeme → Bytes → Prop
  | done {g : Bytes} : Gap g → LaidOut [] g
  | comment {g start text : Bytes} : Gap g → start ∈ commentStarts → newline ∉ text →
      LaidOut [] (g ++ (start ++ text))
  | cons {l : Lexeme} {ls : List Lexeme} {g s : Bytes} : Gap g → Delimited s.head? l →
      LaidOut ls s → LaidOut (l :: ls) (g ++ (l.print ++ s))

/-! ## One token -/

/-- The checks of `scan` that come before operators, for the characters they start with. -/
def startsOperator (c : UInt8) : Bool :=
  isSpace c = false ∧ c ≠ semicolon ∧ startsWord c = false ∧ isDigit c = false ∧ c ≠ quote

theorem scan_operator {c : UInt8} (hc : startsOperator c = true) {rest : Bytes}
    (hcomment : ¬ (c = slash ∧ rest.head? = some slash)) (line column : UInt32) :
    scan line column c rest = scanOperator line column c rest := by
  simp only [startsOperator, decide_eq_true_eq] at hc
  obtain ⟨h1, h2, h3, h4, h5⟩ := hc
  simp [scan, h1, h2, h3, h4, h5, hcomment]

theorem takeWhile_append_stop {p : UInt8 → Bool} {t s : Bytes} (ht : ∀ c ∈ t, p c = true)
    (hs : ∀ d ∈ s.head?, p d = false) : (t ++ s).takeWhile p = t := by
  rw [List.takeWhile_append_of_pos ht]
  cases s with
  | nil => simp
  | cons d s => simp [hs d rfl]

theorem dropWhile_append_stop {p : UInt8 → Bool} {t s : Bytes} (ht : ∀ c ∈ t, p c = true)
    (hs : ∀ d ∈ s.head?, p d = false) : (t ++ s).dropWhile p = s := by
  rw [List.dropWhile_append_of_pos ht]
  cases s with
  | nil => rfl
  | cons d s => simp [hs d rfl]

/-- One round reads the token `l` at the head of a source and leaves `s`. -/
def Reads (source : Bytes) (l : Lexeme) (s : Bytes) : Prop :=
  ∃ c rest, source = c :: rest ∧ s.length ≤ rest.length ∧ ∀ line column,
    (scan line column c rest).token.map Token.toLexeme = some l ∧
      (scan line column c rest).rest = s

theorem reads_word {c : UInt8} {text s : Bytes} (hc : startsWord c = true)
    (ht : ∀ d ∈ text, inWord d = true) (hs : ∀ d ∈ s.head?, inWord d = false) :
    Reads (c :: text ++ s) ⟨wordType (c :: text), c :: text⟩ s := by
  obtain ⟨h1, h2, h3, h4⟩ := startsWord_class c hc
  have hall : ∀ d ∈ c :: text, inWord d = true := by
    intro d hd
    rcases List.mem_cons.mp hd with rfl | hd
    · exact h4
    · exact ht d hd
  have hword : (c :: (text ++ s)).takeWhile inWord = c :: text := takeWhile_append_stop hall hs
  refine ⟨c, text ++ s, rfl, by simp, ?_⟩
  intro line column
  simp [scan, h1, h2, h3, hc, hword, takeToken]

theorem reads_number {c : UInt8} {text s : Bytes} (hc : isDigit c = true)
    (hnum : numberText (c :: text ++ s) = c :: text) :
    Reads (c :: text ++ s) ⟨.number, c :: text⟩ s := by
  obtain ⟨h1, h2, h3, h4, -⟩ := isDigit_class c hc
  rw [List.cons_append] at hnum
  refine ⟨c, text ++ s, rfl, by simp, ?_⟩
  intro line column
  simp [scan, h1, h2, h3, h4, hc, hnum, takeToken]

theorem numberText_decimal {c : UInt8} {text s : Bytes} (hc : isDigit c = true)
    (ht : ∀ d ∈ text, isDigit d = true)
    (hs : ∀ d ∈ s.head?, isDigit d = false ∧ (text = [] → d ≠ chr 'x' ∧ d ≠ chr 'X')) :
    numberText (c :: text ++ s) = c :: text := by
  have hall : ∀ d ∈ c :: text, isDigit d = true := by
    intro d hd
    rcases List.mem_cons.mp hd with rfl | hd
    · exact hc
    · exact ht d hd
  have htake : (c :: text ++ s).takeWhile isDigit = c :: text :=
    takeWhile_append_stop hall fun d hd => (hs d hd).1
  -- the second character is no `x`: it is a digit, or the next character
  have hsecond : ∀ x r, text ++ s = x :: r → x ≠ chr 'x' ∧ x ≠ chr 'X' := by
    intro x r hx
    cases text with
    | nil =>
      rw [List.nil_append] at hx
      exact (hs x (by rw [hx]; rfl)).2 rfl
    | cons d text =>
      cases hx
      obtain ⟨-, -, -, -, -, h⟩ := isDigit_class x (ht x (by simp))
      exact h
  rw [List.cons_append] at htake ⊢
  cases hts : text ++ s with
  | nil =>
    rw [hts] at htake
    exact htake
  | cons x r =>
    rw [hts] at htake
    obtain ⟨h1, h2⟩ := hsecond x r hts
    simp only [numberText, h1, h2, or_false, and_false, if_false]
    exact htake

theorem numberText_hex {x : UInt8} {text s : Bytes} (hx : x = chr 'x' ∨ x = chr 'X')
    (ht : ∀ d ∈ text, isXdigit d = true) (hs : ∀ d ∈ s.head?, isXdigit d = false) :
    numberText (chr '0' :: x :: text ++ s) = chr '0' :: x :: text := by
  have htake := takeWhile_append_stop ht hs
  simp [numberText, hx, htake]

theorem reads_string {text s : Bytes} (h : quote ∉ text) :
    Reads (quote :: (text ++ [quote]) ++ s) ⟨.string, text⟩ s := by
  have htext : (text ++ quote :: s).takeWhile (· ≠ quote) = text := by
    refine takeWhile_append_stop (fun c hc => ?_) (fun d hd => ?_)
    · have : c ≠ quote := fun heq => h (heq ▸ hc)
      simpa using this
    · cases hd
      simp
  refine ⟨quote, text ++ quote :: s, by simp, by simp; omega, ?_⟩
  intro line column
  have hscan : scan line column quote (text ++ quote :: s) =
      scanString line column (text ++ quote :: s) := by
    unfold scan
    have hcomment : ¬ ((quote = slash ∧ (text ++ quote :: s).head? = some slash) ∨
        quote = semicolon) := by
      rintro (⟨h, -⟩ | h) <;> cases h
    rw [if_neg (by decide), if_neg hcomment, if_neg (by decide), if_neg (by decide), if_pos rfl]
  have hdrop : (text ++ quote :: s).drop text.length = quote :: s := List.drop_left
  rw [hscan]
  unfold scanString
  simp only [htext, hdrop, Option.map_some, and_self]

theorem reads_double {c d : UInt8} {type : TokenType} (h : ((c, d), type) ∈ doubleOperators)
    (s : Bytes) : Reads ([c, d] ++ s) ⟨type, [c, d]⟩ s := by
  have key : ∀ p ∈ doubleOperators, startsOperator p.1.1 = true ∧ p.1.1 ≠ slash ∧
      doubleOperators.lookup p.1 = some p.2 := by decide +kernel
  obtain ⟨hc, hslash, hlookup⟩ := key _ h
  refine ⟨c, d :: s, rfl, by simp, ?_⟩
  intro line column
  rw [scan_operator hc (fun hs => hslash hs.1)]
  simp [scanOperator, hlookup, takeToken]

theorem reads_single {c : UInt8} {type : TokenType} (h : (c, type) ∈ singleOperators)
    (hc : c ≠ semicolon) {s : Bytes}
    (hs : ∀ d ∈ s.head?, doubleOperators.lookup (c, d) = none ∧ ¬ (c = slash ∧ d = slash)) :
    Reads ([c] ++ s) ⟨type, [c]⟩ s := by
  have key : ∀ p ∈ singleOperators, p.1 ≠ semicolon → startsOperator p.1 = true ∧
      singleOperators.lookup p.1 = some p.2 := by decide +kernel
  obtain ⟨hstart, hlookup⟩ := key _ h hc
  have hdouble : (s.head?.bind fun d => doubleOperators.lookup (c, d)) = none := by
    cases hd : s.head? with
    | none => rfl
    | some d => exact (hs d hd).1
  refine ⟨c, s, rfl, le_rfl, ?_⟩
  intro line column
  rw [scan_operator hstart fun hslash => (hs slash hslash.2).2 ⟨hslash.1, rfl⟩]
  simp [scanOperator, hdouble, hlookup, takeToken]

/-- A delimited token is read. -/
theorem reads_of_delimited {l : Lexeme} {s : Bytes} (h : Delimited s.head? l) :
    Reads (l.print ++ s) l s := by
  have hprint : ∀ {type text}, type ≠ TokenType.string → Lexeme.print ⟨type, text⟩ = text :=
    fun hne => if_neg hne
  cases h with
  | word hc ht hs =>
    have hne : ∀ w, wordType w ≠ .string := by
      intro w
      unfold wordType
      cases hw : keywords.lookup w with
      | none => simp
      | some type =>
        have key : ∀ p ∈ keywords, p.2 ≠ .string := by decide +kernel
        obtain ⟨l₁, l₂, heq, -⟩ := List.lookup_eq_some_iff.mp hw
        exact key (w, type) (by rw [heq]; simp)
    rw [hprint (hne _)]
    exact reads_word hc ht hs
  | decimal hc ht hs =>
    rw [hprint (by simp)]
    exact reads_number hc (numberText_decimal hc ht hs)
  | hex hx ht hs =>
    rw [hprint (by simp)]
    exact reads_number rfl (numberText_hex hx ht hs)
  | string h => exact reads_string h
  | double h =>
    have key : ∀ p ∈ doubleOperators, p.2 ≠ .string := by decide +kernel
    rw [hprint (key _ h)]
    exact reads_double h s
  | single h hc hs =>
    have key : ∀ p ∈ singleOperators, p.2 ≠ .string := by decide +kernel
    rw [hprint (key _ h)]
    exact reads_single h hc hs

/-! ## The loop -/

/-- With fuel for the whole text, the loop reads the tokens `ls`, from any position. -/
def Tokenizes (s : Bytes) (ls : List Lexeme) : Prop :=
  ∀ fuel line column, s.length ≤ fuel →
    (tokenizeFrom fuel line column s).map Token.toLexeme = ls ++ [⟨.eof, []⟩]

theorem tokenizes_nil : Tokenizes [] [] := by
  intro fuel line column _
  cases fuel <;> rfl

/-- One round, and then the others. -/
theorem tokenizes_round {c : UInt8} {rest s : Bytes} {l : Option Lexeme} {ls : List Lexeme}
    (hlen : s.length ≤ rest.length)
    (hscan : ∀ line column, (scan line column c rest).token.map Token.toLexeme = l ∧
      (scan line column c rest).rest = s)
    (hs : Tokenizes s ls) : Tokenizes (c :: rest) (l.toList ++ ls) := by
  intro fuel line column hfuel
  obtain ⟨fuel, rfl⟩ : ∃ n, fuel = n + 1 := by
    cases fuel with
    | zero => cases hfuel
    | succ n => exact ⟨n, rfl⟩
  obtain ⟨htoken, hrest⟩ := hscan line column
  have hround := hs fuel (scan line column c rest).line (scan line column c rest).column
    (hlen.trans (Nat.le_of_succ_le_succ hfuel))
  rw [tokenizeFrom, List.map_append, hrest, hround, ← htoken, List.append_assoc]
  cases (scan line column c rest).token <;> rfl

theorem tokenizes_token {l : Lexeme} {s : Bytes} {ls : List Lexeme} (h : Delimited s.head? l)
    (hs : Tokenizes s ls) : Tokenizes (l.print ++ s) (l :: ls) := by
  obtain ⟨c, rest, heq, hlen, hscan⟩ := reads_of_delimited h
  rw [heq]
  exact tokenizes_round hlen hscan hs

theorem tokenizes_space {c : UInt8} {s : Bytes} {ls : List Lexeme} (hc : isSpace c = true)
    (hs : Tokenizes s ls) : Tokenizes (c :: s) ls := by
  refine tokenizes_round (l := none) le_rfl ?_ hs
  intro line column
  unfold scan skipChar
  rw [if_pos hc]
  split_ifs <;> exact ⟨rfl, rfl⟩

theorem tokenizes_unknown {c : UInt8} {s : Bytes} {ls : List Lexeme} (hc : Unknown c)
    (hs : Tokenizes s ls) : Tokenizes (c :: s) ls := by
  obtain ⟨h1, h2, h3, h4, h5, h6, h7⟩ := hc
  have hslash : c ≠ slash := by
    rintro rfl
    exact absurd h6 (by decide +kernel)
  have hdouble : (s.head?.bind fun d => doubleOperators.lookup (c, d)) = none := by
    cases s.head? with
    | none => rfl
    | some d => exact h7 d
  refine tokenizes_round (l := none) le_rfl ?_ hs
  intro line column
  rw [scan_operator (by simp [startsOperator, h1, h2, h3, h4, h5]) (fun h => hslash h.1)]
  simp [scanOperator, hdouble, h6]

/-- A comment up to the end of its line; `s` starts with the line break, or is the end. -/
theorem tokenizes_comment {start text s : Bytes} {ls : List Lexeme} (hstart : start ∈ commentStarts)
    (htext : newline ∉ text) (hs : ∀ d ∈ s.head?, d = newline) (hrest : Tokenizes s ls) :
    Tokenizes (start ++ text ++ s) ls := by
  have hdrop : ∀ t : Bytes, newline ∉ t → (t ++ s).dropWhile (· ≠ newline) = s := by
    intro t ht
    refine dropWhile_append_stop (fun c hc => ?_) (fun d hd => by simp [hs d hd])
    have : c ≠ newline := fun heq => ht (heq ▸ hc)
    simpa using this
  rcases List.mem_cons.mp hstart with rfl | hstart
  · have hlen : s.length ≤ (text ++ s).length := by simp
    refine tokenizes_round (l := none) (c := semicolon) hlen ?_ hrest
    intro line column
    unfold scan
    rw [if_neg (by decide), if_pos (.inr rfl)]
    exact ⟨rfl, hdrop text htext⟩
  · rw [List.mem_singleton.mp hstart]
    have hlen : s.length ≤ (slash :: text ++ s).length := by
      simp only [List.length_append]
      omega
    refine tokenizes_round (l := none) (c := slash) hlen ?_ hrest
    intro line column
    unfold scan
    rw [if_neg (by decide), if_pos (.inl ⟨rfl, rfl⟩)]
    refine ⟨rfl, hdrop (slash :: text) ?_⟩
    rw [List.mem_cons, not_or]
    exact ⟨by decide, htext⟩

theorem tokenizes_gap {g s : Bytes} {ls : List Lexeme} (hg : Gap g) (hs : Tokenizes s ls) :
    Tokenizes (g ++ s) ls := by
  induction hg with
  | nil => exact hs
  | space hc _ ih => exact tokenizes_space hc ih
  | unknown hc _ ih => exact tokenizes_unknown hc ih
  | @comment start text g hstart htext _ ih =>
    have hline : Tokenizes (newline :: (g ++ s)) ls := tokenizes_space (by decide) ih
    have hfirst : ∀ d ∈ (newline :: (g ++ s)).head?, d = newline := by
      intro d hd
      exact (Option.some.inj hd).symm
    have hcomment := tokenizes_comment hstart htext hfirst hline
    rwa [List.append_assoc]

theorem LaidOut.tokenizes {ls : List Lexeme} {s : Bytes} (h : LaidOut ls s) : Tokenizes s ls := by
  induction h with
  | @done g hg =>
    have hgap := tokenizes_gap hg tokenizes_nil
    rwa [List.append_nil] at hgap
  | @comment g start text hg hstart htext =>
    have hcomment := tokenizes_comment hstart htext (s := []) (by simp) tokenizes_nil
    rw [List.append_nil] at hcomment
    exact tokenizes_gap hg hcomment
  | cons hg hl _ ih => exact tokenizes_gap hg (tokenizes_token hl ih)

/-- **Tokens of a layout**: the tokenizer reads back the types and texts, whatever the gaps. -/
theorem tokenize_laidOut {ls : List Lexeme} {s : Bytes} (h : LaidOut ls s) :
    (tokenize s).map Token.toLexeme = ls ++ [⟨.eof, []⟩] :=
  h.tokenizes s.length 1 1 le_rfl

/-! ## Lines -/

abbrev blank : UInt8 := 32

/-- A word, a number or an operator, as it is written. -/
def Lexeme.plain (l : Lexeme) : Bool :=
  match l.text with
  | [] => false
  | c :: text =>
    (startsWord c && text.all inWord && wordType (c :: text) == l.type) ||
      (isDigit c && text.all isDigit && l.type == .number) ||
      (match text with
        | [] => (c, l.type) ∈ singleOperators ∧ c ≠ semicolon
        | x :: digits =>
          (c = chr '0' ∧ (x = chr 'x' ∨ x = chr 'X') ∧ digits.all isXdigit ∧ l.type = .number) ∨
            (((c, x), l.type) ∈ doubleOperators ∧ digits = []))

theorem Lexeme.delimited_of_plain {l : Lexeme} (h : l.plain = true) : Delimited (some blank) l := by
  obtain ⟨type, text⟩ := l
  have hblank : ∀ {p : UInt8 → Bool}, p blank = false → ∀ d ∈ some blank, p d = false := by
    rintro p hp d ⟨⟩
    exact hp
  match text with
  | [] => cases h
  | c :: text =>
    simp only [plain, Bool.or_eq_true, Bool.and_eq_true, beq_iff_eq] at h
    rcases h with (⟨⟨hc, ht⟩, rfl⟩ | ⟨⟨hc, ht⟩, rfl⟩) | h
    · exact .word hc (List.all_eq_true.mp ht) (hblank rfl)
    · refine .decimal hc (List.all_eq_true.mp ht) ?_
      rintro d ⟨⟩
      exact ⟨rfl, fun _ => by decide⟩
    · match text with
      | [] =>
        rw [decide_eq_true_eq] at h
        refine .single h.1 h.2 ?_
        rintro d ⟨⟩
        have key : ∀ p ∈ singleOperators, doubleOperators.lookup (p.1, blank) = none := by
          decide +kernel
        exact ⟨key _ h.1, fun hslash => absurd hslash.2 (by decide)⟩
      | x :: digits =>
        rw [decide_eq_true_eq] at h
        rcases h with ⟨rfl, hx, hall, rfl⟩ | ⟨h, rfl⟩
        · exact .hex hx (List.all_eq_true.mp hall) (hblank rfl)
        · exact .double h

/-- A line of tokens, with a semicolon behind a statement. -/
def printLine (line : List Lexeme × Bool) : Bytes :=
  line.1.flatMap (fun l => l.print ++ [blank]) ++ if line.2 then [semicolon, newline] else [newline]

theorem Gap.append {g g' : Bytes} (h : Gap g) (h' : Gap g') : Gap (g ++ g') := by
  induction h with
  | nil => exact h'
  | space hc _ ih => exact .space hc ih
  | unknown hc _ ih => exact .unknown hc ih
  | @comment start text g hstart htext _ ih =>
    rw [List.append_assoc]
    exact .comment hstart htext ih

theorem LaidOut.gap {ls : List Lexeme} {g s : Bytes} (hg : Gap g) (h : LaidOut ls s) :
    LaidOut ls (g ++ s) := by
  cases h with
  | done hg' => exact .done (hg.append hg')
  | comment hg' hstart htext =>
    rw [← List.append_assoc]
    exact .comment (hg.append hg') hstart htext
  | cons hg' hl hs =>
    rw [← List.append_assoc]
    exact .cons (hg.append hg') hl hs

theorem laidOut_line {line : List Lexeme × Bool} {ls : List Lexeme} {s : Bytes}
    (hline : ∀ l ∈ line.1, l.plain = true) (h : LaidOut ls s) :
    LaidOut (line.1 ++ ls) (printLine line ++ s) := by
  obtain ⟨line, semi⟩ := line
  have hcomment : Gap ([semicolon] ++ [] ++ newline :: []) :=
    .comment List.mem_cons_self List.not_mem_nil .nil
  have hend : Gap (if semi then [semicolon, newline] else [newline]) := by
    split_ifs
    · exact hcomment
    · exact .space rfl .nil
  rw [printLine, List.append_assoc]
  induction line with
  | nil =>
    show LaidOut ls ((if semi then [semicolon, newline] else [newline]) ++ s)
    exact h.gap hend
  | cons l line ih =>
    have htail := ih fun l' hl' => hline l' (List.mem_cons_of_mem _ hl')
    have hl := Lexeme.delimited_of_plain (hline l List.mem_cons_self)
    have hblank : Gap [blank] := .space rfl .nil
    simp only [List.flatMap_cons, List.append_assoc]
    exact .cons .nil hl (htail.gap hblank)

/-- Plain tokens written in lines are a layout. -/
theorem laidOut_lines {lines : List (List Lexeme × Bool)}
    (h : ∀ l ∈ lines.flatMap Prod.fst, l.plain = true) :
    LaidOut (lines.flatMap Prod.fst) (lines.flatMap printLine) := by
  induction lines with
  | nil => exact .done .nil
  | cons line lines ih =>
    rw [List.flatMap_cons] at h
    exact laidOut_line (fun l hl => h l (List.mem_append_left _ hl))
      (ih fun l hl => h l (List.mem_append_right _ hl))

end Mermai.Merlite
