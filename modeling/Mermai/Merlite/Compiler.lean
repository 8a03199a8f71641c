import Mermai.Merlite.Token
import Mermai.Vm.Machine
import Mathlib.Logic.Function.Basic

/-!
# Merlite.Compiler — `merlite_compiler::compile`

The compiler walks a cursor over the tokens; here the cursor is the list of the tokens that are left,
and behind the last one `peek` gives the end of the file for ever.  Parsing and code generation are one
pass: a state declaration takes the next slot, an assignment emits a store, a `require` emits a guard,
and everything else is skipped.  A number that does not fit 64 bits throws.

Two details matter for what the code means.  The loop over a function body leaves the closing brace to
the outer loop, which takes it for the end of the contract.  And the operands of a store are pushed in
the order slot, value.
-/

namespace Mermai.Merlite

open Vm (Opcode)

/-! ## Numbers -/

/-- The value of a digit; letters count from 10. -/
def digitValue (c : UInt8) : ℕ :=
  if isDigit c then c.toNat - 48 else if c ≤ 90 then c.toNat - 55 else c.toNat - 87

/-- The number a string of digits denotes in a base. -/
def digitsValue (base : ℕ) (digits : Bytes) : ℕ :=
  digits.foldl (fun n c => n * base + digitValue c) 0

/-- An octal digit. -/
def isOctal (c : UInt8) : Bool := 48 ≤ c ∧ c ≤ 55

/-- The base that `strtoull` takes for base 0, and the digits it reads. -/
def stoullDigits (text : Bytes) : ℕ × Bytes :=
  match text with
  | c :: x :: rest =>
    if c = chr '0' ∧ (x = chr 'x' ∨ x = chr 'X') ∧ (rest.takeWhile isXdigit) ≠ [] then
      (16, rest.takeWhile isXdigit)
    else if c = chr '0' then (8, text.takeWhile isOctal)
    else (10, text.takeWhile isDigit)
  | _ => (10, text.takeWhile isDigit)

/-- `std::stoull(text, nullptr, 0)`; `none` is an exception, whose `what()` is `stoull`. -/
def stoull (text : Bytes) : Option UInt64 :=
  let d := stoullDigits text
  if d.2 = [] ∨ 2 ^ 64 ≤ digitsValue d.1 d.2 then none
  else some (UInt64.ofNat (digitsValue d.1 d.2))

/-! ## The cursor -/

/-- The state of the pass: the tokens left, and what has been built so far. -/
structure Pass where
  rest : List Lexeme
  nextSlot : UInt32 := 0
  storageMap : Bytes → Option UInt32 := fun _ => none
  bytecode : Bytes := []
  estGas : UInt64 := 21000
  functions : List Bytes := []

namespace Pass

/-- `peek(offset)`. -/
def peekAt (p : Pass) (offset : ℕ) : Lexeme := p.rest[offset]?.getD ⟨.eof, []⟩

/-- `peek()`. -/
def peek (p : Pass) : Lexeme := p.peekAt 0

/-- `consume`, for its effect. -/
def consume (p : Pass) : Pass := { p with rest := p.rest.tail }

/-- `if (peek().type == type) consume();`. -/
def eat (p : Pass) (type : TokenType) : Pass := if p.peek.type = type then p.consume else p

/-- `while (cursor < tokens.size() && peek().type != type) consume();`. -/
def skipTo (p : Pass) (type : TokenType) : Pass :=
  { p with rest := p.rest.dropWhile fun l => l.type ≠ type }

/-- A parenthesized list, of which nothing is read. -/
def skipParens (p : Pass) : Pass := ((p.eat .lparen).skipTo .rparen).eat .rparen

/-- `bytecode.push_back`. -/
def emit (p : Pass) (bytes : Bytes) : Pass := { p with bytecode := p.bytecode ++ bytes }

/-- `est_gas += gas`. -/
def addGas (p : Pass) (gas : UInt64) : Pass := { p with estGas := p.estGas + gas }

/-! ## Declarations -/

/-- `contract Name`, up to the brace; every part is optional. -/
def contractHeader (p : Pass) : Pass :=
  if p.peek.type = .contract then (p.consume.eat .identifier).eat .lbrace else p

/-- `state type name`. -/
def stateDeclaration (p : Pass) : Pass :=
  let p := p.consume
  let p := if p.peek.type = .mapping then p.consume.skipParens else p.consume
  let p :=
    if p.peek.type = .identifier then
      { p.consume with
        storageMap := Function.update p.storageMap p.peek.text (some p.nextSlot)
        nextSlot := p.nextSlot + 1 }
    else p
  p.eat .semicolon

/-! ## Statements -/

/-- `require(...)`: the condition is not compiled. -/
def requireStatement (p : Pass) : Pass :=
  let p := p.consume.skipParens.eat .semicolon
  let target := UInt8.ofNat (p.bytecode.length + 3 + 2)
  (p.emit [Opcode.push1.byte, 0x01, Opcode.jmpi.byte, target, Opcode.revert.byte]).addGas 20

/-- The slot of a variable, 0 for one that is not declared. -/
def slotOf (p : Pass) (target : Bytes) : UInt32 := (p.storageMap target).getD 0

/-- The value of an assignment: the pass behind it, with the opcode of `caller` emitted, and the
number.  `none` is the exception of `stoull`. -/
def assignedValue (p : Pass) : Option (Pass × UInt64) :=
  if p.peek.type = .number then (stoull p.peek.text).map fun val => (p.consume, val)
  else if p.peek.type = .caller then some (p.consume.emit [Opcode.caller.byte], 1)
  else some (p.consume, 100)

/-- The code of a store: `PUSH1 slot`, `PUSH1 val`, `SSTORE`, with the operands cut to a byte. -/
def storeCode (slot : UInt32) (val : UInt64) : Bytes :=
  [Opcode.push1.byte, slot.toUInt8, Opcode.push1.byte, (val &&& 0xFF).toUInt8, Opcode.sstore.byte]

/-- `target = value`; `none` is an exception. -/
def assignment (p : Pass) : Option Pass := do
  let target := p.peek.text
  let (p, val) ← p.consume.consume.assignedValue
  let p := p.eat .semicolon
  pure ((p.emit (storeCode (p.slotOf target) val)).addGas 20000)

/-- The depth after the token at the cursor. -/
def depthAfter (p : Pass) (depth : ℕ) : ℕ :=
  if p.peek.type = .lbrace then depth + 1 else if p.peek.type = .rbrace then depth - 1 else depth

/-- The loop over a function body, `fuel` rounds at most.  Every round but the last reads a token. -/
def body : ℕ → ℕ → Pass → Option Pass
  | 0, _, p => some p
  | fuel + 1, depth, p =>
    if p.rest = [] ∨ depth = 0 then some p
    else
      let depth := p.depthAfter depth
      if depth = 1 ∧ p.peek.type = .require then body fuel depth p.requireStatement
      else if depth = 1 ∧ p.peek.type = .identifier ∧ (p.peekAt 1).type = .assign then do
        let p ← p.assignment
        body fuel depth p
      else if 0 < depth then body fuel depth p.consume
      else body fuel depth p

/-! ## Functions -/

/-- `pub fn name(...) -> type`, up to the body. -/
def functionHeader (p : Pass) : Pass :=
  let p := (p.eat .pub).consume
  let p :=
    if p.peek.type = .identifier then
      { p.consume with functions := p.functions ++ [p.peek.text] }
    else p
  let p := if p.peek.type = .lparen then p.skipParens else p
  if p.peek.type = .arrow then p.consume.consume else p

/-- The body of a function, when there is one. -/
def functionBody (p : Pass) : Option Pass :=
  if p.peek.type = .lbrace then body p.rest.length 1 p.consume else some p

/-- The outer loop, `fuel` rounds at most; an exception leaves the names of the functions. -/
def declarations : ℕ → Pass → Except (List Bytes) Pass
  | 0, p => .ok p
  | fuel + 1, p =>
    if p.rest = [] ∨ p.peek.type = .eof ∨ p.peek.type = .rbrace then .ok p
    else if p.peek.type = .state then declarations fuel p.stateDeclaration
    else if p.peek.type = .pub ∨ p.peek.type = .fn then
      match p.functionHeader.functionBody with
      | none => .error p.functionHeader.functions
      | some p => declarations fuel p
    else declarations fuel p.consume

/-! ## Every round reads a token -/

/-- The number of tokens left. -/
def left (p : Pass) : ℕ := p.rest.length

theorem consume_left_le (p : Pass) : p.consume.left ≤ p.left := by
  show p.rest.tail.length ≤ p.rest.length
  rw [List.length_tail]
  omega

theorem consume_left_lt {p : Pass} (h : p.rest ≠ []) : p.consume.left < p.left := by
  have := List.length_pos_iff.mpr h
  show p.rest.tail.length < p.rest.length
  rw [List.length_tail]
  omega

theorem eat_left_le (p : Pass) (type : TokenType) : (p.eat type).left ≤ p.left := by
  unfold eat
  split_ifs
  · exact consume_left_le p
  · exact le_rfl

theorem skipTo_left_le (p : Pass) (type : TokenType) : (p.skipTo type).left ≤ p.left :=
  List.length_dropWhile_le _ _

theorem skipParens_left_le (p : Pass) : p.skipParens.left ≤ p.left :=
  (eat_left_le _ _).trans ((skipTo_left_le _ _).trans (eat_left_le _ _))

theorem stateDeclaration_left_lt {p : Pass} (h : p.rest ≠ []) :
    p.stateDeclaration.left < p.left := by
  have htype : ∀ q : Pass, (if q.peek.type = .mapping then q.consume.skipParens
      else q.consume).left ≤ q.left := by
    intro q
    split_ifs
    · exact (skipParens_left_le _).trans (consume_left_le q)
    · exact consume_left_le q
  have hname : ∀ q : Pass, (if q.peek.type = .identifier then
      { q.consume with
        storageMap := Function.update q.storageMap q.peek.text (some q.nextSlot)
        nextSlot := q.nextSlot + 1 }
      else q).left ≤ q.left := by
    intro q
    split_ifs
    · exact consume_left_le q
    · exact le_rfl
  exact ((eat_left_le _ _).trans ((hname _).trans (htype _))).trans_lt (consume_left_lt h)

theorem requireStatement_left_lt {p : Pass} (h : p.rest ≠ []) :
    p.requireStatement.left < p.left := by
  have heq : p.requireStatement.left = (p.consume.skipParens.eat .semicolon).left := by
    simp only [requireStatement, left, emit, addGas]
  rw [heq]
  exact ((eat_left_le _ _).trans (skipParens_left_le _)).trans_lt (consume_left_lt h)

theorem assignedValue_left_le {p q : Pass} {val : UInt64} (h : p.assignedValue = some (q, val)) :
    q.left ≤ p.left := by
  unfold assignedValue at h
  split_ifs at h
  · obtain ⟨_, -, heq⟩ := Option.map_eq_some_iff.mp h
    rw [← (Prod.mk.inj heq).1]
    exact consume_left_le p
  · rw [← (Prod.mk.inj (Option.some.inj h)).1]
    exact consume_left_le p
  · rw [← (Prod.mk.inj (Option.some.inj h)).1]
    exact consume_left_le p

theorem assignment_left_lt {p q : Pass} (h : p.rest ≠ []) (hq : p.assignment = some q) :
    q.left < p.left := by
  obtain ⟨⟨r, val⟩, hr, hq⟩ := Option.bind_eq_some_iff.mp hq
  rw [← Option.some.inj hq]
  have hvalue := (assignedValue_left_le hr).trans (consume_left_le _)
  exact ((eat_left_le r .semicolon).trans hvalue).trans_lt (consume_left_lt h)

/-- Outside a body nothing is read any more. -/
theorem body_zero (fuel : ℕ) (p : Pass) : body fuel 0 p = some p := by
  cases fuel with
  | zero => rfl
  | succ fuel => rw [body, if_pos (.inr rfl)]

theorem body_nil {p : Pass} (h : p.rest = []) (fuel depth : ℕ) : body fuel depth p = some p := by
  cases fuel with
  | zero => rfl
  | succ fuel => rw [body, if_pos (.inl h)]

/-- Fuel for a token that is left. -/
theorem exists_fuel {p : Pass} {f : ℕ} (hne : p.rest ≠ []) (h : p.left ≤ f) : ∃ n, f = n + 1 :=
  Nat.exists_eq_add_one.mpr ((List.length_pos_iff.mpr hne).trans_le h)

/-- Fuel beyond the number of tokens changes nothing. -/
theorem body_fuel {f f' depth : ℕ} {p : Pass} (h : p.left ≤ f) (h' : p.left ≤ f') :
    body f depth p = body f' depth p := by
  induction f generalizing f' depth p with
  | zero =>
    have hnil : p.rest = [] := List.length_eq_zero_iff.mp (Nat.le_zero.mp h)
    rw [body_nil hnil, body_nil hnil]
  | succ f ih =>
    rcases eq_or_ne p.rest [] with hnil | hne
    · rw [body_nil hnil, body_nil hnil]
    · obtain ⟨f', rfl⟩ := exists_fuel hne h'
      have hstep : ∀ {q : Pass} {d : ℕ}, q.left < p.left → body f d q = body f' d q :=
        fun hlt => ih (by omega) (by omega)
      rw [body, body]
      congr 1
      dsimp only
      rw [hstep (requireStatement_left_lt hne), hstep (consume_left_lt hne)]
      congr 1
      congr 1
      · cases hq : p.assignment with
        | none => rfl
        | some q => exact hstep (assignment_left_lt hne hq)
      · split_ifs with hdepth
        · rfl
        · rw [Nat.le_zero.mp (not_lt.mp hdepth), body_zero, body_zero]

theorem body_left_le {f depth : ℕ} {p q : Pass} (h : body f depth p = some q) : q.left ≤ p.left := by
  induction f generalizing depth p with
  | zero =>
    cases h
    exact le_rfl
  | succ f ih =>
    rw [body] at h
    split_ifs at h with hend
    · cases h
      exact le_rfl
    · have hne : p.rest ≠ [] := fun hnil => hend (.inl hnil)
      dsimp only at h
      split_ifs at h
      · exact (ih h).trans (requireStatement_left_lt hne).le
      · obtain ⟨r, hr, h⟩ := Option.bind_eq_some_iff.mp h
        exact (ih h).trans (assignment_left_lt hne hr).le
      · exact (ih h).trans (consume_left_le p)
      · exact ih h

theorem functionHeader_left_le (p : Pass) :
    p.functionHeader.left ≤ (p.eat .pub).consume.left := by
  have hname : ∀ q : Pass, (if q.peek.type = .identifier then
      { q.consume with functions := q.functions ++ [q.peek.text] } else q).left ≤ q.left := by
    intro q
    split_ifs
    · exact consume_left_le q
    · exact le_rfl
  have hparams : ∀ q : Pass, (if q.peek.type = .lparen then q.skipParens else q).left ≤ q.left := by
    intro q
    split_ifs
    · exact skipParens_left_le q
    · exact le_rfl
  have hreturn : ∀ q : Pass,
      (if q.peek.type = .arrow then q.consume.consume else q).left ≤ q.left := by
    intro q
    split_ifs
    · exact (consume_left_le _).trans (consume_left_le q)
    · exact le_rfl
  unfold functionHeader
  exact (hreturn _).trans ((hparams _).trans (hname _))

theorem functionBody_left_le {p q : Pass} (h : p.functionBody = some q) : q.left ≤ p.left := by
  unfold functionBody at h
  split_ifs at h
  · exact (body_left_le h).trans (consume_left_le p)
  · rw [← Option.some.inj h]

theorem function_left_lt {p q : Pass} (h : p.rest ≠ [])
    (hq : p.functionHeader.functionBody = some q) : q.left < p.left := by
  have hfn : (p.eat .pub).consume.left < p.left := by
    unfold eat
    split_ifs
    · exact (consume_left_le _).trans_lt (consume_left_lt h)
    · exact consume_left_lt h
  exact ((functionBody_left_le hq).trans (functionHeader_left_le p)).trans_lt hfn

theorem declarations_nil {p : Pass} (h : p.rest = []) (fuel : ℕ) : declarations fuel p = .ok p := by
  cases fuel with
  | zero => rfl
  | succ fuel => rw [declarations, if_pos (.inl h)]

/-- The same for the outer loop. -/
theorem declarations_fuel {f f' : ℕ} {p : Pass} (h : p.left ≤ f) (h' : p.left ≤ f') :
    declarations f p = declarations f' p := by
  induction f generalizing f' p with
  | zero =>
    have hnil : p.rest = [] := List.length_eq_zero_iff.mp (Nat.le_zero.mp h)
    rw [declarations_nil hnil, declarations_nil hnil]
  | succ f ih =>
    rcases eq_or_ne p.rest [] with hnil | hne
    · rw [declarations_nil hnil, declarations_nil hnil]
    · obtain ⟨f', rfl⟩ := exists_fuel hne h'
      have hstep : ∀ {q : Pass}, q.left < p.left → declarations f q = declarations f' q :=
        fun hlt => ih (by omega) (by omega)
      rw [declarations, declarations]
      rw [hstep (stateDeclaration_left_lt hne), hstep (consume_left_lt hne)]
      cases hq : p.functionHeader.functionBody with
      | none => rfl
      | some q => simp only [hstep (function_left_lt hne hq)]

end Pass

/-! ## The compiler -/

/-- `merlite_compilation_result`. -/
structure CompilationResult where
  success : Bool := false
  bytecode : Bytes := []
  hexBytecode : Bytes := []
  errors : List String := []
  storageLayout : Bytes → Option UInt32 := fun _ => none
  functions : List Bytes := []
  estimatedDeploymentGas : UInt64 := 0

/-- `compile` on the tokens: its body never looks at lines and columns. -/
def compileTokens (tokens : List Lexeme) : CompilationResult :=
  if tokens.length ≤ 1 then { errors := ["Empty Merlite source file."] }
  else
    match Pass.declarations tokens.length (Pass.contractHeader { rest := tokens }) with
    | .error functions => { errors := ["Compilation error: stoull"], functions }
    | .ok p =>
      let bytecode := p.bytecode ++ [Opcode.stop.byte]
      { success := true, bytecode, hexBytecode := ascii "0x" ++ hashToHex bytecode
        storageLayout := p.storageMap, functions := p.functions, estimatedDeploymentGas := p.estGas }

/-- `merlite_compiler::compile`. -/
def compile (source : Bytes) : CompilationResult :=
  compileTokens ((tokenize source).map Token.toLexeme)

end Mermai.Merlite
