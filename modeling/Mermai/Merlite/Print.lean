import Mermai.Merlite.Layout

/-!
# Merlite.Print — printing tokens and reading them back

`Proper` tokens have a text that belongs to their type, and `printTokens` joins the texts with single
blanks.  The tokenizer reads back all of them but the semicolon, which it takes for the start of a comment:
it never returns a token of that type (`tokenize_ne_semicolon`), so the printed list comes back exactly
when it holds none (`tokenize_printTokens_iff`).
-/

namespace Mermai.Merlite

/-- A token whose text belongs to its type. -/
inductive Proper : Lexeme → Prop
  | keyword {type : TokenType} {text : Bytes} : (text, type) ∈ keywords → Proper ⟨type, text⟩
  | identifier {c : UInt8} {text : Bytes} : startsWord c = true → (∀ d ∈ text, inWord d = true) →
      c :: text ∉ keywords.map Prod.fst → Proper ⟨.identifier, c :: text⟩
  | decimal {text : Bytes} : text ≠ [] → (∀ d ∈ text, isDigit d = true) → Proper ⟨.number, text⟩
  | hex {x : UInt8} {text : Bytes} : x = chr 'x' ∨ x = chr 'X' → (∀ d ∈ text, isXdigit d = true) →
      Proper ⟨.number, chr '0' :: x :: text⟩
  | string {text : Bytes} : quote ∉ text → Proper ⟨.string, text⟩
  | double {c d : UInt8} {type : TokenType} : ((c, d), type) ∈ doubleOperators →
      Proper ⟨type, [c, d]⟩
  | single {c : UInt8} {type : TokenType} : (c, type) ∈ singleOperators → Proper ⟨type, [c]⟩

/-- The texts of the tokens, joined by single blanks. -/
def printTokens (ls : List Lexeme) : Bytes := [blank].intercalate (ls.map Lexeme.print)

/-! ## Tokens that come back -/

theorem wordType_of_keyword {text : Bytes} {type : TokenType} (h : (text, type) ∈ keywords) :
    wordType text = type ∧ ∃ c rest, text = c :: rest ∧ startsWord c = true ∧
      ∀ d ∈ rest, inWord d = true := by
  have key : ∀ p ∈ keywords, wordType p.1 = p.2 ∧ (∃ c, p.1.head? = some c ∧ startsWord c = true) ∧
      ∀ d ∈ p.1.tail, inWord d = true := by decide +kernel
  obtain ⟨htype, ⟨c, hc, hstart⟩, hrest⟩ := key _ h
  refine ⟨htype, ?_⟩
  cases text with
  | nil => cases hc
  | cons c' rest =>
    cases hc
    exact ⟨_, rest, rfl, hstart, hrest⟩

theorem wordType_of_notMem {text : Bytes} (h : text ∉ keywords.map Prod.fst) :
    wordType text = .identifier := by
  rw [wordType]
  cases hw : keywords.lookup text with
  | none => rfl
  | some type =>
    obtain ⟨l₁, l₂, heq, -⟩ := List.lookup_eq_some_iff.mp hw
    have hmem : (text, type) ∈ keywords := by
      rw [heq]
      simp
    exact absurd (List.mem_map_of_mem hmem) h

/-- A proper token other than a semicolon ends before a blank, and at the end of the source. -/
theorem Proper.delimited {l : Lexeme} (h : Proper l) (hsemi : l.type ≠ .semicolon)
    {next : Option UInt8} (hnext : ∀ d ∈ next, d = blank) : Delimited next l := by
  have hstop : ∀ {p : UInt8 → Bool}, p blank = false → ∀ d ∈ next, p d = false := by
    intro p hp d hd
    rw [hnext d hd]
    exact hp
  cases h with
  | keyword hkey =>
    obtain ⟨rfl, c, rest, rfl, hc, hrest⟩ := wordType_of_keyword hkey
    exact .word hc hrest (hstop rfl)
  | identifier hc hrest hkey =>
    rw [← wordType_of_notMem hkey]
    exact .word hc hrest (hstop rfl)
  | @decimal text hne hall =>
    cases text with
    | nil => exact absurd rfl hne
    | cons c text =>
      refine .decimal (hall c List.mem_cons_self) (fun d hd => hall d (List.mem_cons_of_mem _ hd)) ?_
      intro d hd
      rw [hnext d hd]
      exact ⟨rfl, fun _ => by decide⟩
  | hex hx hall => exact .hex hx hall (hstop rfl)
  | string hquote => exact .string hquote
  | double hop => exact .double hop
  | @single c type hop =>
    have hc : c ≠ semicolon := by
      have key : ∀ p ∈ singleOperators, p.1 = semicolon → p.2 = .semicolon := by decide +kernel
      exact fun heq => hsemi (key _ hop heq)
    have key : ∀ p ∈ singleOperators, doubleOperators.lookup (p.1, blank) = none := by
      decide +kernel
    refine .single hop hc ?_
    intro d hd
    rw [hnext d hd]
    exact ⟨key _ hop, fun hslash => absurd hslash.2 (by decide)⟩

/-- Printed tokens without a semicolon are a layout. -/
theorem laidOut_printTokens {ls : List Lexeme} (h : ∀ l ∈ ls, Proper l)
    (hsemi : ∀ l ∈ ls, l.type ≠ .semicolon) : LaidOut ls (printTokens ls) := by
  induction ls with
  | nil => exact .done .nil
  | cons l ls ih =>
    have hl := h l List.mem_cons_self
    have hlsemi := hsemi l List.mem_cons_self
    have htail := ih (fun l' hl' => h l' (List.mem_cons_of_mem _ hl'))
      (fun l' hl' => hsemi l' (List.mem_cons_of_mem _ hl'))
    cases ls with
    | nil =>
      have hlast : printTokens [l] = [] ++ (l.print ++ []) := by simp [printTokens]
      rw [hlast]
      exact .cons .nil (hl.delimited hlsemi (fun d hd => by cases hd)) (.done .nil)
    | cons l' ls =>
      have hblank : Gap [blank] := .space rfl .nil
      have hsplit : printTokens (l :: l' :: ls) =
          [] ++ (l.print ++ ([blank] ++ printTokens (l' :: ls))) := by
        simp [printTokens, List.intercalate]
      rw [hsplit]
      refine .cons .nil (hl.delimited hlsemi ?_) (htail.gap hblank)
      intro d hd
      exact (Option.some.inj hd).symm

/-! ## The semicolon -/

theorem wordType_ne_semicolon (word : Bytes) : wordType word ≠ .semicolon := by
  unfold wordType
  cases hw : keywords.lookup word with
  | none => simp
  | some type =>
    have key : ∀ p ∈ keywords, p.2 ≠ .semicolon := by decide +kernel
    obtain ⟨l₁, l₂, heq, -⟩ := List.lookup_eq_some_iff.mp hw
    exact key (word, type) (by rw [heq]; simp)

/-- No round reads a semicolon: the rule for comments comes first. -/
theorem scan_ne_semicolon {line column : UInt32} {c : UInt8} {rest : Bytes} {t : Token}
    (h : t ∈ (scan line column c rest).token) : t.type ≠ .semicolon := by
  unfold scan at h
  split_ifs at h with hspace hcomment hword hdigit hquote
  · unfold skipChar at h
    split_ifs at h <;> cases h
  · cases h
  · cases h
    exact wordType_ne_semicolon _
  · cases h
    simp
  · unfold scanString at h
    dsimp only at h
    split at h <;> cases h <;> simp
  · have hc : c ≠ semicolon := fun heq => hcomment (.inr heq)
    unfold scanOperator at h
    split at h
    · rename_i type hdouble
      cases h
      obtain ⟨d, -, hlookup⟩ := Option.bind_eq_some_iff.mp hdouble
      have key : ∀ p ∈ doubleOperators, p.2 ≠ .semicolon := by decide +kernel
      obtain ⟨l₁, l₂, heq, -⟩ := List.lookup_eq_some_iff.mp hlookup
      exact key ((c, d), type) (by rw [heq]; simp)
    · split at h
      · rename_i type hsingle
        cases h
        have key : ∀ p ∈ singleOperators, p.1 ≠ semicolon → p.2 ≠ .semicolon := by decide +kernel
        obtain ⟨l₁, l₂, heq, -⟩ := List.lookup_eq_some_iff.mp hsingle
        exact key (c, type) (by rw [heq]; simp) hc
      · cases h

theorem tokenizeFrom_ne_semicolon (fuel : ℕ) (line column : UInt32) (s : Bytes) :
    ∀ t ∈ tokenizeFrom fuel line column s, t.type ≠ .semicolon := by
  induction fuel generalizing line column s with
  | zero =>
    intro t ht
    rw [List.mem_singleton.mp ht]
    simp
  | succ fuel ih =>
    cases s with
    | nil =>
      intro t ht
      rw [List.mem_singleton.mp ht]
      simp
    | cons c rest =>
      intro t ht
      rcases List.mem_append.mp ht with hround | hlater
      · exact scan_ne_semicolon (Option.mem_toList.mp hround)
      · exact ih _ _ _ t hlater

/-- **No semicolons**: the tokenizer returns no token of that type, whatever the source. -/
theorem tokenize_ne_semicolon (s : Bytes) : ∀ t ∈ tokenize s, t.type ≠ .semicolon :=
  tokenizeFrom_ne_semicolon _ _ _ s

/-- **The tokenizer inverts printing exactly on the lists without a semicolon.** -/
theorem tokenize_printTokens_iff (ls : List Lexeme) (h : ∀ l ∈ ls, Proper l) :
    (tokenize (printTokens ls)).map Token.toLexeme = ls ++ [⟨.eof, []⟩] ↔
      ∀ l ∈ ls, l.type ≠ .semicolon := by
  constructor
  · intro hread l hl
    have hmem : l ∈ (tokenize (printTokens ls)).map Token.toLexeme := by
      rw [hread]
      exact List.mem_append_left _ hl
    obtain ⟨t, ht, rfl⟩ := List.mem_map.mp hmem
    exact tokenize_ne_semicolon _ t ht
  · exact fun hsemi => tokenize_laidOut (laidOut_printTokens h hsemi)

/-- `x = "a b" , 0x1F`. -/
def plainTokens : List Lexeme :=
  [⟨.identifier, ascii "x"⟩, ⟨.assign, ascii "="⟩, ⟨.string, ascii "a b"⟩, ⟨.comma, ascii ","⟩,
    ⟨.number, ascii "0x1F"⟩]

theorem tokenize_printTokens_plain :
    (tokenize (printTokens plainTokens)).map Token.toLexeme = plainTokens ++ [⟨.eof, []⟩] := by
  refine (tokenize_printTokens_iff plainTokens ?_).mpr (by decide +kernel)
  intro l hl
  simp only [plainTokens, List.mem_cons, List.not_mem_nil, or_false] at hl
  rcases hl with rfl | rfl | rfl | rfl | rfl
  · exact .identifier (by decide +kernel) (by decide +kernel) (by decide +kernel)
  · exact .single (by decide +kernel)
  · exact .string (by decide +kernel)
  · exact .single (by decide +kernel)
  · exact .hex (.inl rfl) (by decide +kernel)

/-- `x ; y`: the semicolon and what follows are lost. -/
theorem semicolon_lost : Proper ⟨.identifier, ascii "x"⟩ ∧ Proper ⟨.semicolon, ascii ";"⟩ ∧
    Proper ⟨.identifier, ascii "y"⟩ ∧
    (tokenize (printTokens [⟨.identifier, ascii "x"⟩, ⟨.semicolon, ascii ";"⟩,
      ⟨.identifier, ascii "y"⟩])).map Token.toLexeme =
        [⟨.identifier, ascii "x"⟩, ⟨.eof, []⟩] := by
  refine ⟨?_, .single (by decide +kernel), ?_, by decide +kernel⟩
  · exact .identifier (by decide +kernel) (by decide +kernel) (by decide +kernel)
  · exact .identifier (by decide +kernel) (by decide +kernel) (by decide +kernel)

end Mermai.Merlite
