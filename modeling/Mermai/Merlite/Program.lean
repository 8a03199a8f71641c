import Mermai.Merlite.Compiler
import Mermai.Merlite.Layout
import Mathlib.Data.List.Nodup

/-!
# Merlite.Program — contracts that only assign, and their code

The sources of this module are contracts with state declarations and one function whose body assigns
number literals to the declared variables.  `Program` is their syntax; the text is any layout of its
tokens.  `compile_eq` gives the whole result of the compiler on such a text: it succeeds, a variable has
the slot of its position, and the code is one store an assignment.
-/

namespace Mermai.Merlite

open Vm (Opcode)

/-! ## Number literals -/

/-- The text of a number: decimal digits, or `0x` and hexadecimal digits. -/
def IsNumber (text : Bytes) : Prop :=
  (text ≠ [] ∧ ∀ c ∈ text, isDigit c = true) ∨
    ∃ x digits, (x = chr 'x' ∨ x = chr 'X') ∧ text = chr '0' :: x :: digits ∧
      ∀ c ∈ digits, isXdigit c = true

/-- The number a literal denotes. -/
def literalValue (text : Bytes) : ℕ :=
  match text with
  | c :: x :: digits =>
    if c = chr '0' ∧ (x = chr 'x' ∨ x = chr 'X') then digitsValue 16 digits
    else digitsValue 10 text
  | _ => digitsValue 10 text

/-- A number literal below 2⁶⁴. -/
structure Literal where
  text : Bytes
  number : IsNumber text
  small : literalValue text < 2 ^ 64

/-- The number a literal denotes. -/
def Literal.value (l : Literal) : ℕ := literalValue l.text

/-- The number the compiler takes for it: a leading zero makes it octal. -/
def Literal.read (l : Literal) : UInt64 := (stoull l.text).getD 0

/-- One step of reading a number. -/
def pushDigit (base n : ℕ) (c : UInt8) : ℕ := n * base + digitValue c

theorem le_foldl_pushDigit {base : ℕ} (hb : 0 < base) (digits : Bytes) (n : ℕ) :
    n ≤ digits.foldl (pushDigit base) n := by
  induction digits generalizing n with
  | nil => exact le_rfl
  | cons c digits ih =>
    have hstep : n ≤ pushDigit base n c := (Nat.le_mul_of_pos_right n hb).trans (Nat.le_add_right _ _)
    exact hstep.trans (ih _)

/-- Fewer digits in a smaller base give no larger number. -/
theorem foldl_pushDigit_le {base base' : ℕ} (hb : 0 < base') (hle : base ≤ base')
    (p : UInt8 → Bool) (digits : Bytes) {n n' : ℕ} (hn : n ≤ n') :
    (digits.takeWhile p).foldl (pushDigit base) n ≤ digits.foldl (pushDigit base') n' := by
  induction digits generalizing n n' with
  | nil => exact hn
  | cons c digits ih =>
    rw [List.takeWhile_cons]
    split_ifs with hp
    · exact ih (Nat.add_le_add_right (Nat.mul_le_mul hn hle) _)
    · exact hn.trans (le_foldl_pushDigit hb (c :: digits) n')

theorem stoull_eq_some {text : Bytes} (h : (stoullDigits text).2 ≠ [])
    (hlt : digitsValue (stoullDigits text).1 (stoullDigits text).2 < 2 ^ 64) :
    ∃ v, stoull text = some v := by
  refine ⟨_, if_neg ?_⟩
  rw [not_or, not_le]
  exact ⟨h, hlt⟩

theorem stoull_decimal {text : Bytes} (hne : text ≠ []) (hall : ∀ c ∈ text, isDigit c = true)
    (hlt : digitsValue 10 text < 2 ^ 64) : ∃ v, stoull text = some v := by
  have htake : text.takeWhile isDigit = text := List.takeWhile_eq_self_iff.mpr hall
  match text with
  | [] => exact absurd rfl hne
  | [c] =>
    have hd : stoullDigits [c] = (10, [c]) := by
      rw [stoullDigits, htake]
      simp
    exact stoull_eq_some (by rw [hd]; simp) (by rw [hd]; exact hlt)
  | c :: y :: rest =>
    obtain ⟨-, -, -, -, -, hy, hY⟩ := isDigit_class y (hall y (by simp))
    by_cases hc : c = chr '0'
    · have hd : stoullDigits (c :: y :: rest) = (8, (c :: y :: rest).takeWhile isOctal) := by
        simp [stoullDigits, hc, hy, hY]
      have hoct : isOctal c = true := by
        rw [hc]
        decide
      have hle : digitsValue 8 ((c :: y :: rest).takeWhile isOctal) ≤
          digitsValue 10 (c :: y :: rest) :=
        foldl_pushDigit_le (by decide) (by decide) isOctal _ le_rfl
      exact stoull_eq_some (by rw [hd]; simp [hoct]) (by rw [hd]; exact hle.trans_lt hlt)
    · have hd : stoullDigits (c :: y :: rest) = (10, c :: y :: rest) := by
        simp only [stoullDigits, hc, false_and, if_false]
        rw [htake]
      exact stoull_eq_some (by rw [hd]; simp) (by rw [hd]; exact hlt)

theorem stoull_hex {x : UInt8} {digits : Bytes} (hx : x = chr 'x' ∨ x = chr 'X')
    (hall : ∀ c ∈ digits, isXdigit c = true) (hlt : digitsValue 16 digits < 2 ^ 64) :
    ∃ v, stoull (chr '0' :: x :: digits) = some v := by
  have htake : digits.takeWhile isXdigit = digits := List.takeWhile_eq_self_iff.mpr hall
  by_cases hnil : digits = []
  · -- `0x` without digits is read as the octal number 0
    subst hnil
    have hzero : stoull [chr '0', chr 'x'] = some 0 ∧ stoull [chr '0', chr 'X'] = some 0 := by
      decide +kernel
    rcases hx with rfl | rfl
    · exact ⟨0, hzero.1⟩
    · exact ⟨0, hzero.2⟩
  · have hd : stoullDigits (chr '0' :: x :: digits) = (16, digits) := by
      simp [stoullDigits, hx, htake, hnil]
    exact stoull_eq_some (by rw [hd]; exact hnil) (by rw [hd]; exact hlt)

theorem literalValue_decimal {text : Bytes} (hall : ∀ c ∈ text, isDigit c = true) :
    literalValue text = digitsValue 10 text := by
  match text with
  | [] => rfl
  | [c] => rfl
  | c :: y :: rest =>
    obtain ⟨-, -, -, -, -, hy, hY⟩ := isDigit_class y (hall y (by simp))
    simp [literalValue, hy, hY]

/-- The compiler reads every literal. -/
theorem Literal.stoull_eq (l : Literal) : stoull l.text = some l.read := by
  have hread : ∃ v, stoull l.text = some v := by
    have hsmall := l.small
    rcases l.number with ⟨hne, hall⟩ | ⟨x, digits, hx, htext, hall⟩
    · exact stoull_decimal hne hall (literalValue_decimal hall ▸ hsmall)
    · rw [htext] at hsmall ⊢
      exact stoull_hex hx hall (by simpa [literalValue, hx] using hsmall)
  obtain ⟨v, hv⟩ := hread
  rw [Literal.read, hv]
  rfl

/-! ## Programs -/

/-- The types a value can have. -/
inductive ScalarType
  | uint256 | address | bool
deriving DecidableEq

def ScalarType.lexeme : ScalarType → Lexeme
  | .uint256 => ⟨.uint256, ascii "uint256"⟩
  | .address => ⟨.address, ascii "address"⟩
  | .bool => ⟨.bool, ascii "bool"⟩

/-- The type of a state variable; the inside of a mapping is any tokens but a closing parenthesis. -/
inductive VariableType
  | scalar (type : ScalarType)
  | mapping (inside : List Lexeme) (closed : ∀ l ∈ inside, l.type ≠ .rparen)

def lparen : Lexeme := ⟨.lparen, [chr '(']⟩
def rparen : Lexeme := ⟨.rparen, [chr ')']⟩
def lbrace : Lexeme := ⟨.lbrace, [123]⟩
def rbrace : Lexeme := ⟨.rbrace, [125]⟩
def eof : Lexeme := ⟨.eof, []⟩

def VariableType.lexemes : VariableType → List Lexeme
  | .scalar type => [type.lexeme]
  | .mapping inside _ => ⟨.mapping, ascii "mapping"⟩ :: lparen :: (inside ++ [rparen])

/-- `state type name`. -/
structure Declaration where
  type : VariableType
  name : Bytes

def Declaration.lexemes (d : Declaration) : List Lexeme :=
  ⟨.state, ascii "state"⟩ :: (d.type.lexemes ++ [⟨.identifier, d.name⟩])

/-- `target = literal`. -/
structure Assignment where
  target : Bytes
  literal : Literal

def Assignment.lexemes (a : Assignment) : List Lexeme :=
  [⟨.identifier, a.target⟩, ⟨.assign, [chr '=']⟩, ⟨.number, a.literal.text⟩]

/-- A contract with state declarations and one function of assignments. -/
structure Program where
  name : Bytes
  declarations : List Declaration
  isPublic : Bool
  function : Bytes
  parameters : List Lexeme
  returns : Option ScalarType
  assignments : List Assignment
  distinct : (declarations.map Declaration.name).Nodup
  declared : ∀ a ∈ assignments, a.target ∈ declarations.map Declaration.name
  closed : ∀ l ∈ parameters, l.type ≠ .rparen

namespace Program

/-- `pub fn name(parameters) -> type`. -/
def headerLexemes (p : Program) : List Lexeme :=
  (if p.isPublic then [⟨.pub, ascii "pub"⟩] else []) ++
    ⟨.fn, ascii "fn"⟩ :: ⟨.identifier, p.function⟩ :: lparen :: (p.parameters ++ rparen ::
      (match p.returns with
        | none => []
        | some type => [⟨.arrow, [chr '-', chr '>']⟩, type.lexeme]))

/-- The tokens of the contract. -/
def lexemes (p : Program) : List Lexeme :=
  ⟨.contract, ascii "contract"⟩ :: ⟨.identifier, p.name⟩ :: lbrace ::
    (p.declarations.flatMap Declaration.lexemes ++ (p.headerLexemes ++ lbrace ::
      (p.assignments.flatMap Assignment.lexemes ++ [rbrace, rbrace])))

/-- The contract with one statement a line. -/
def lines (p : Program) : List (List Lexeme × Bool) :=
  ([⟨.contract, ascii "contract"⟩, ⟨.identifier, p.name⟩, lbrace], false) ::
    (p.declarations.map (fun d => (d.lexemes, true)) ++ (p.headerLexemes ++ [lbrace], false) ::
      (p.assignments.map (fun a => (a.lexemes, true)) ++ [([rbrace], false), ([rbrace], false)]))

/-- The text of these lines. -/
def print (p : Program) : Bytes := p.lines.flatMap printLine

theorem lines_flatMap (p : Program) : p.lines.flatMap Prod.fst = p.lexemes := by
  simp [lines, lexemes, List.flatMap_map]

/-- Every program of plain tokens has a text with one statement a line. -/
theorem laidOut_print {p : Program} (h : ∀ l ∈ p.lexemes, l.plain = true) :
    LaidOut p.lexemes p.print := by
  rw [← lines_flatMap] at h ⊢
  exact laidOut_lines h

/-- The slot of a variable: its position among the declarations, in 32 bits. -/
def slot (p : Program) (x : Bytes) : UInt32 :=
  UInt32.ofNat ((p.declarations.map Declaration.name).idxOf x)

end Program

/-! ## The pass over a program -/

namespace Pass

variable (p : Pass)

/-- The pass with other tokens left. -/
def withRest (ls : List Lexeme) : Pass := { p with rest := ls }

/-- The pass after the declaration of a variable. -/
def declareOne (name : Bytes) : Pass :=
  { p with storageMap := Function.update p.storageMap name (some p.nextSlot)
           nextSlot := p.nextSlot + 1 }

/-- The pass after the store of a literal. -/
def storeOne (a : Assignment) : Pass :=
  { p with bytecode := p.bytecode ++ storeCode (p.slotOf a.target) a.literal.read
           estGas := p.estGas + 20000 }

@[simp] theorem peek_withRest (l : Lexeme) (ls : List Lexeme) : (p.withRest (l :: ls)).peek = l := rfl

@[simp] theorem rest_withRest (ls : List Lexeme) : (p.withRest ls).rest = ls := rfl

@[simp] theorem consume_withRest (l : Lexeme) (ls : List Lexeme) :
    (p.withRest (l :: ls)).consume = p.withRest ls := rfl

theorem eat_withRest {l : Lexeme} {type : TokenType} (h : l.type = type) (ls : List Lexeme) :
    (p.withRest (l :: ls)).eat type = p.withRest ls := if_pos h

theorem eat_of_ne {p : Pass} {type : TokenType} (h : p.peek.type ≠ type) : p.eat type = p := if_neg h

/-- Nothing inside the parentheses is read. -/
theorem skipParens_eq {inside : List Lexeme} (h : ∀ l ∈ inside, l.type ≠ .rparen)
    (ls : List Lexeme) :
    (p.withRest (lparen :: (inside ++ rparen :: ls))).skipParens = p.withRest ls := by
  have hdrop : (inside ++ rparen :: ls).dropWhile (fun l => l.type ≠ .rparen) = rparen :: ls := by
    rw [List.dropWhile_append_of_pos (fun l hl => decide_eq_true (h l hl))]
    rfl
  unfold skipParens
  have hopen : (p.withRest (lparen :: (inside ++ rparen :: ls))).eat .lparen =
      p.withRest (inside ++ rparen :: ls) := eat_withRest p rfl _
  rw [hopen, skipTo, rest_withRest, hdrop]
  exact eat_withRest p rfl ls

/-! ### Declarations -/

/-- A declaration takes the next slot. -/
theorem stateDeclaration_eq (d : Declaration) {ls : List Lexeme}
    (h : (p.withRest ls).peek.type ≠ .semicolon) :
    (p.withRest (d.lexemes ++ ls)).stateDeclaration = (p.declareOne d.name).withRest ls := by
  obtain ⟨type, name⟩ := d
  have hname : ∀ q : Pass, q = p.withRest (⟨.identifier, name⟩ :: ls) →
      (if q.peek.type = .identifier then
        { q.consume with
          storageMap := Function.update q.storageMap q.peek.text (some q.nextSlot)
          nextSlot := q.nextSlot + 1 }
      else q).eat .semicolon = (p.declareOne name).withRest ls := by
    rintro q rfl
    exact eat_of_ne h
  unfold stateDeclaration
  refine hname _ ?_
  cases type with
  | scalar type => cases type <;> rfl
  | mapping inside closed =>
    have hskip := skipParens_eq p closed (⟨.identifier, name⟩ :: ls)
    simpa [Declaration.lexemes, VariableType.lexemes, List.append_assoc] using hskip

/-- The pass after a list of declarations. -/
def declare (ds : List Declaration) : Pass := ds.foldl (fun p d => p.declareOne d.name) p

/-- A declared variable has the slot of its position. -/
theorem declare_storageMap {ds : List Declaration} (h : (ds.map Declaration.name).Nodup)
    (x : Bytes) :
    (p.declare ds).storageMap x = if x ∈ ds.map Declaration.name then
      some (p.nextSlot + UInt32.ofNat ((ds.map Declaration.name).idxOf x)) else p.storageMap x := by
  induction ds generalizing p with
  | nil => rfl
  | cons d ds ih =>
    rw [List.map_cons, List.nodup_cons] at h
    show ((p.declareOne d.name).declare ds).storageMap x = _
    rw [ih (p.declareOne d.name) h.2]
    by_cases hx : x = d.name
    · subst hx
      simp [h.1, declareOne]
    · have hidx : (d.name :: ds.map Declaration.name).idxOf x =
          (ds.map Declaration.name).idxOf x + 1 := List.idxOf_cons_ne _ (Ne.symm hx)
      simp only [declareOne, List.map_cons, List.mem_cons, hx, false_or, hidx,
        Function.update_of_ne hx]
      split_ifs
      · rw [UInt32.ofNat_add, UInt32.add_comm (UInt32.ofNat _), ← UInt32.add_assoc]
        rfl
      · rfl

/-- The declarations touch nothing but the slots. -/
theorem declare_frame (ds : List Declaration) :
    (p.declare ds).bytecode = p.bytecode ∧ (p.declare ds).estGas = p.estGas ∧
      (p.declare ds).functions = p.functions := by
  induction ds generalizing p with
  | nil => exact ⟨rfl, rfl, rfl⟩
  | cons d ds ih => exact ih (p.declareOne d.name)

/-- The outer loop over the declarations. -/
theorem declarations_declare {f : ℕ} (ds : List Declaration) {ls : List Lexeme}
    (h : ∀ q : Pass, (q.withRest ls).peek.type ≠ .semicolon)
    (hf : (p.withRest (ds.flatMap Declaration.lexemes ++ ls)).left ≤ f) :
    declarations f (p.withRest (ds.flatMap Declaration.lexemes ++ ls)) =
      declarations f ((p.declare ds).withRest ls) := by
  induction ds generalizing p with
  | nil => rfl
  | cons d ds ih =>
    rw [List.flatMap_cons, List.append_assoc] at hf ⊢
    set tail := ds.flatMap Declaration.lexemes ++ ls with htail
    have hnext : (p.withRest tail).peek.type ≠ .semicolon := by
      cases ds with
      | nil => exact h p
      | cons e ds => simp [htail, Declaration.lexemes]
    have hlt := stateDeclaration_left_lt (p := p.withRest (d.lexemes ++ tail))
      (by simp [Declaration.lexemes])
    have hstep := stateDeclaration_eq p d hnext
    rw [hstep] at hlt
    obtain ⟨f, rfl⟩ : ∃ n, f = n + 1 := ⟨f - 1, by omega⟩
    rw [declarations, if_neg (by simp [Declaration.lexemes]), if_pos (by simp [Declaration.lexemes]),
      hstep, declarations_fuel (Nat.le_of_lt_succ (hlt.trans_le hf)) (hlt.le.trans hf)]
    exact ih (p.declareOne d.name) (hlt.le.trans hf)

/-! ### The body -/

/-- An assignment of a literal emits a store. -/
theorem assignment_eq (a : Assignment) {ls : List Lexeme}
    (h : (p.withRest ls).peek.type ≠ .semicolon) :
    (p.withRest (a.lexemes ++ ls)).assignment = some ((p.storeOne a).withRest ls) := by
  have hvalue : (p.withRest (⟨.number, a.literal.text⟩ :: ls)).assignedValue =
      some (p.withRest ls, a.literal.read) := by
    unfold assignedValue
    simp only [peek_withRest, if_true, consume_withRest, a.literal.stoull_eq, Option.map_some]
  unfold assignment
  show Option.bind ((p.withRest (⟨.number, a.literal.text⟩ :: ls)).assignedValue) _ = _
  rw [hvalue, Option.bind_some]
  dsimp only
  rw [eat_of_ne h]
  rfl

/-- The pass after a list of assignments. -/
def store (as : List Assignment) : Pass := as.foldl storeOne p

/-- The loop over a body of assignments stops at the closing brace. -/
theorem body_store {f : ℕ} (as : List Assignment) (ls : List Lexeme)
    (hf : (p.withRest (as.flatMap Assignment.lexemes ++ rbrace :: ls)).left ≤ f) :
    body f 1 (p.withRest (as.flatMap Assignment.lexemes ++ rbrace :: ls)) =
      some ((p.store as).withRest (rbrace :: ls)) := by
  induction as generalizing p with
  | nil =>
    obtain ⟨f, rfl⟩ : ∃ n, f = n + 1 := ⟨f - 1, by simp [left] at hf; omega⟩
    have hdepth : (p.withRest (rbrace :: ls)).depthAfter 1 = 0 := by
      simp [depthAfter, rbrace]
    rw [List.flatMap_nil, List.nil_append, body, if_neg (by simp), hdepth]
    simp only [Nat.zero_ne_one, false_and, if_false, lt_irrefl, body_zero]
    rfl
  | cons a as ih =>
    rw [List.flatMap_cons, List.append_assoc] at hf ⊢
    set tail := as.flatMap Assignment.lexemes ++ rbrace :: ls with htail
    have hnext : (p.withRest tail).peek.type ≠ .semicolon := by
      cases as with
      | nil => simp [htail, rbrace]
      | cons b as => simp [htail, Assignment.lexemes]
    have hstep := assignment_eq p a hnext
    have hlt := assignment_left_lt (p := p.withRest (a.lexemes ++ tail))
      (by simp [Assignment.lexemes]) hstep
    obtain ⟨f, rfl⟩ : ∃ n, f = n + 1 := ⟨f - 1, by omega⟩
    have hdepth : (p.withRest (a.lexemes ++ tail)).depthAfter 1 = 1 := by
      simp [depthAfter, Assignment.lexemes]
    have hassign : (p.withRest (a.lexemes ++ tail)).peek.type = .identifier ∧
        ((p.withRest (a.lexemes ++ tail)).peekAt 1).type = .assign := ⟨rfl, rfl⟩
    rw [body, if_neg (by simp [Assignment.lexemes]), hdepth]
    dsimp only
    rw [if_neg (by simp [hassign.1]), if_pos ⟨rfl, hassign⟩, hstep, Option.bind_eq_bind,
      Option.bind_some, body_fuel (Nat.le_of_lt_succ (hlt.trans_le hf)) (hlt.le.trans hf)]
    exact ih (p.storeOne a) (hlt.le.trans hf)

/-- The stores append their code and leave the slots and the names alone. -/
theorem store_frame (as : List Assignment) :
    (p.store as).bytecode =
        p.bytecode ++ as.flatMap (fun a => storeCode (p.slotOf a.target) a.literal.read) ∧
      (p.store as).storageMap = p.storageMap ∧ (p.store as).functions = p.functions := by
  induction as generalizing p with
  | nil => exact ⟨(List.append_nil _).symm, rfl, rfl⟩
  | cons a as ih =>
    obtain ⟨hcode, hmap, hfn⟩ := ih (p.storeOne a)
    refine ⟨?_, hmap, hfn⟩
    rw [List.flatMap_cons, ← List.append_assoc]
    exact hcode

/-! ### The function -/

/-- The header of a function leaves its name. -/
theorem functionHeader_eq (prog : Program) (ls : List Lexeme) :
    (p.withRest (prog.headerLexemes ++ lbrace :: ls)).functionHeader =
      { p with functions := p.functions ++ [prog.function] }.withRest (lbrace :: ls) := by
  set named : Pass := { p with functions := p.functions ++ [prog.function] } with hnamed
  -- from the parameters on
  have hparams : ∀ tail : List Lexeme,
      (named.withRest (lparen :: (prog.parameters ++ rparen :: tail))).skipParens =
        named.withRest tail := skipParens_eq named prog.closed
  have hfn : ∀ tail : List Lexeme,
      (p.withRest (⟨.fn, ascii "fn"⟩ :: ⟨.identifier, prog.function⟩ :: lparen ::
        (prog.parameters ++ rparen :: tail))).functionHeader =
      (if (named.withRest tail).peek.type = .arrow then (named.withRest tail).consume.consume
        else named.withRest tail) := by
    intro tail
    rw [← hparams tail]
    rfl
  have hpub : ∀ tail : List Lexeme, (p.withRest (⟨.pub, ascii "pub"⟩ :: tail)).functionHeader =
      (p.withRest (⟨.fn, ascii "fn"⟩ :: tail.tail)).functionHeader := fun _ => rfl
  unfold Program.headerLexemes
  cases hp : prog.isPublic <;> cases hr : prog.returns with
  | none =>
    simp only [if_true, if_false, Bool.false_eq_true, List.nil_append, List.cons_append,
      List.append_assoc, hpub, List.tail_cons, hfn]
    rfl
  | some type =>
    simp only [if_true, if_false, Bool.false_eq_true, List.nil_append, List.cons_append,
      List.append_assoc, hpub, List.tail_cons, hfn]
    rfl

end Pass

/-! ## The result -/

namespace Program

variable (prog : Program)

/-- The pass at the end of the contract. -/
def finalPass : Pass :=
  let declared := Pass.declare { rest := [] } prog.declarations
  { declared with functions := declared.functions ++ [prog.function] }.store prog.assignments

/-- The code of the contract: one store an assignment. -/
def code : Bytes :=
  prog.assignments.flatMap (fun a => Pass.storeCode (prog.slot a.target) a.literal.read) ++
    [Opcode.stop.byte]

/-- The tokens of the function, behind the declarations. -/
def functionLexemes : List Lexeme :=
  prog.headerLexemes ++ lbrace ::
    (prog.assignments.flatMap Assignment.lexemes ++ rbrace :: [rbrace, eof])

theorem lexemes_eq : prog.lexemes ++ [eof] =
    ⟨.contract, ascii "contract"⟩ :: ⟨.identifier, prog.name⟩ :: lbrace ::
      (prog.declarations.flatMap Declaration.lexemes ++ prog.functionLexemes) := by
  simp [lexemes, functionLexemes]

theorem peek_functionLexemes (p : Pass) :
    (p.withRest prog.functionLexemes).peek.type = .pub ∨
      (p.withRest prog.functionLexemes).peek.type = .fn := by
  unfold functionLexemes headerLexemes
  cases prog.isPublic with
  | true => exact .inl rfl
  | false => exact .inr rfl

/-- The function is compiled, and its closing brace ends the outer loop. -/
theorem declarations_function {f : ℕ} {p : Pass} (hf : 0 < f) :
    Pass.declarations f (p.withRest prog.functionLexemes) =
      .ok (({ p with functions := p.functions ++ [prog.function] }.store
        prog.assignments).withRest (rbrace :: [rbrace, eof])) := by
  set named : Pass := { p with functions := p.functions ++ [prog.function] } with hnamed
  obtain ⟨f, rfl⟩ : ∃ n, f = n + 1 := ⟨f - 1, by omega⟩
  have hbody : (p.withRest prog.functionLexemes).functionHeader.functionBody =
      some ((named.store prog.assignments).withRest (rbrace :: [rbrace, eof])) := by
    have hbrace : ∀ ls : List Lexeme, (named.withRest (lbrace :: ls)).functionBody =
        Pass.body (lbrace :: ls).length 1 (named.withRest ls) := fun _ => rfl
    rw [functionLexemes, Pass.functionHeader_eq, hbrace]
    exact Pass.body_store named _ _ (Nat.le_succ _)
  have hend : ∀ q : Pass, Pass.declarations f (q.withRest (rbrace :: [rbrace, eof])) =
      .ok (q.withRest (rbrace :: [rbrace, eof])) := by
    intro q
    cases f with
    | zero => rfl
    | succ f => exact if_pos (.inr (.inr rfl))
  have hpeek := prog.peek_functionLexemes p
  have hgo : ¬ ((p.withRest prog.functionLexemes).rest = [] ∨
      (p.withRest prog.functionLexemes).peek.type = .eof ∨
      (p.withRest prog.functionLexemes).peek.type = .rbrace) := by
    rintro (h | h | h)
    · simp [functionLexemes] at h
    · rcases hpeek with hp | hp <;> simp [hp] at h
    · rcases hpeek with hp | hp <;> simp [hp] at h
  have hstate : (p.withRest prog.functionLexemes).peek.type ≠ .state := by
    rcases hpeek with hp | hp <;> simp [hp]
  rw [Pass.declarations, if_neg hgo, if_neg hstate, if_pos hpeek, hbody]
  exact hend _

/-- The whole pass over the contract. -/
theorem declarations_eq :
    Pass.declarations (prog.lexemes ++ [eof]).length
      (Pass.contractHeader { rest := prog.lexemes ++ [eof] }) =
      .ok (prog.finalPass.withRest (rbrace :: [rbrace, eof])) := by
  have hheader : Pass.contractHeader { rest := prog.lexemes ++ [eof] } =
      Pass.withRest { rest := [] }
        (prog.declarations.flatMap Declaration.lexemes ++ prog.functionLexemes) := by
    rw [lexemes_eq]
    rfl
  have hsemi : ∀ q : Pass, (q.withRest prog.functionLexemes).peek.type ≠ .semicolon := by
    intro q
    rcases prog.peek_functionLexemes q with h | h <;> simp [h]
  have hlen : (prog.lexemes ++ [eof]).length = 3 +
      (prog.declarations.flatMap Declaration.lexemes ++ prog.functionLexemes).length := by
    rw [lexemes_eq]
    simp only [List.length_cons]
    omega
  rw [hheader, Pass.declarations_declare _ _ hsemi (by rw [hlen]; exact Nat.le_add_left _ _),
    prog.declarations_function (by omega)]
  rfl

theorem finalPass_storageMap (x : Bytes) :
    prog.finalPass.storageMap x =
      if x ∈ prog.declarations.map Declaration.name then some (prog.slot x) else none := by
  unfold finalPass
  rw [(Pass.store_frame _ _).2.1]
  show (Pass.declare { rest := [] } prog.declarations).storageMap x = _
  rw [Pass.declare_storageMap _ prog.distinct]
  show (if _ then some (0 + prog.slot x) else none) = _
  rw [UInt32.zero_add]

theorem finalPass_bytecode : prog.finalPass.bytecode ++ [Opcode.stop.byte] = prog.code := by
  unfold finalPass code
  rw [(Pass.store_frame _ _).1]
  congr 1
  show (Pass.declare { rest := [] } prog.declarations).bytecode ++ _ = _
  rw [(Pass.declare_frame _ _).1, List.nil_append]
  refine List.flatMap_congr ?_
  intro a ha
  congr 1
  show ((Pass.declare { rest := [] } prog.declarations).storageMap a.target).getD 0 = _
  rw [Pass.declare_storageMap _ prog.distinct, if_pos (prog.declared a ha), Option.getD_some]
  exact UInt32.zero_add _

end Program

/-- **The compiler on a program**: whatever the layout, it succeeds, emits one store an assignment, and
gives every variable the slot of its position. -/
theorem compile_eq {prog : Program} {s : Bytes} (h : LaidOut prog.lexemes s) :
    (compile s).success = true ∧ (compile s).errors = [] ∧ (compile s).bytecode = prog.code ∧
      ∀ x, (compile s).storageLayout x =
        if x ∈ prog.declarations.map Declaration.name then some (prog.slot x) else none := by
  have htokens : compile s = compileTokens (prog.lexemes ++ [eof]) := by
    rw [compile, tokenize_laidOut h]
    rfl
  have hlen : ¬ (prog.lexemes ++ [eof]).length ≤ 1 := by
    rw [Program.lexemes_eq]
    simp
  rw [htokens, compileTokens, if_neg hlen, prog.declarations_eq]
  exact ⟨rfl, rfl, prog.finalPass_bytecode, prog.finalPass_storageMap⟩

end Mermai.Merlite
