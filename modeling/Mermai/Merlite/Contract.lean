import Mermai.Merlite.Program

/-!
# Merlite.Contract — contracts with any number of functions

`Contract` is the syntax of a contract with state declarations and functions, whose bodies are made of
assignments, nested blocks and `require` statements.  The loop over a body does a statement after the
other and skips what is nested (`bodyRun_statements`); it stops in front of the closing brace, which the
outer loop takes for the end of the contract.  So the first function is compiled and no other
(`compile_contract`), and `functions_compiled_iff` says when that is all there is.
-/

namespace Mermai.Merlite

open Vm (Opcode)

/-! ## Statements -/

/-- A token without a meaning of its own inside a body. -/
def Calm (l : Lexeme) : Prop :=
  l.type ≠ .lbrace ∧ l.type ≠ .rbrace ∧ l.type ≠ .assign ∧ l.type ≠ .require ∧ l.type ≠ .semicolon

instance (l : Lexeme) : Decidable (Calm l) := inferInstanceAs (Decidable (_ ∧ _ ∧ _ ∧ _ ∧ _))

/-- Tokens with their braces in pairs. -/
inductive Balanced : List Lexeme → Prop
  | nil : Balanced []
  | token {l : Lexeme} {ls : List Lexeme} : l.type ≠ .lbrace → l.type ≠ .rbrace → Balanced ls →
      Balanced (l :: ls)
  | block {inner ls : List Lexeme} : Balanced inner → Balanced ls →
      Balanced (lbrace :: (inner ++ rbrace :: ls))

/-- A statement at the top level of a body.  What stands behind the first token of a value, the head of
a nested block and a condition are any calm tokens. -/
inductive Statement
  | assign (target : Bytes) (value : Lexeme) (more : List Lexeme) (calm : ∀ l ∈ value :: more, Calm l)
  | block (head inside : List Lexeme) (calm : ∀ l ∈ head, Calm l) (balanced : Balanced inside)
  | require (condition : List Lexeme) (calm : ∀ l ∈ condition, Calm l)

namespace Statement

def lexemes : Statement → List Lexeme
  | assign target value more _ => ⟨.identifier, target⟩ :: ⟨.assign, [chr '=']⟩ :: value :: more
  | block head inside _ _ => head ++ lbrace :: (inside ++ [rbrace])
  | require condition _ => ⟨.require, ascii "require"⟩ :: lparen :: (condition ++ [rparen])

def isRequire : Statement → Bool
  | require .. => true
  | _ => false

/-- A number that is assigned does not throw. -/
def readable : Statement → Bool
  | assign _ value _ _ => value.type ≠ .number ∨ (stoull value.text).isSome
  | _ => true

/-- The code that is emitted in front of a store, and the number that is stored. -/
def assigned (value : Lexeme) : Bytes × UInt64 :=
  if value.type = .number then ([], (stoull value.text).getD 0)
  else if value.type = .caller then ([Opcode.caller.byte], 1)
  else ([], 100)

/-- The store sequence of an assignment. -/
def stores (slot : Bytes → UInt32) : Statement → Bytes
  | assign target value _ _ =>
    (assigned value).1 ++ Pass.storeCode (slot target) (assigned value).2
  | _ => []

/-- The code of a statement at a position. -/
def code (slot : Bytes → UInt32) (position : ℕ) : Statement → Bytes
  | require .. =>
    [Opcode.push1.byte, 0x01, Opcode.jmpi.byte, UInt8.ofNat (position + 3 + 2), Opcode.revert.byte]
  | s => s.stores slot

/-- The gas that is added for a statement. -/
def gas : Statement → UInt64
  | assign .. => 20000
  | block .. => 0
  | require .. => 20

end Statement

namespace Pass

variable (p : Pass)

/-- The pass after a readable statement. -/
def perform (s : Statement) : Pass :=
  { p with bytecode := p.bytecode ++ s.code p.slotOf p.bytecode.length, estGas := p.estGas + s.gas }

/-- The pass after the statements of a body. -/
def performAll (ss : List Statement) : Pass := ss.foldl perform p

/-! ## The loop over a body -/

/-- The loop with fuel for all tokens. -/
def bodyRun (depth : ℕ) (p : Pass) : Option Pass := body p.left depth p

theorem body_eq_bodyRun {f depth : ℕ} {q : Pass} (h : q.left ≤ f) : body f depth q = bodyRun depth q :=
  body_fuel h le_rfl

/-- Tokens behind a statement: neither an assignment nor a semicolon comes next. -/
def Follow (ls : List Lexeme) : Prop := ∀ l ∈ ls.head?, l.type ≠ .assign ∧ l.type ≠ .semicolon

theorem depthAfter_withRest (l : Lexeme) (ls : List Lexeme) (depth : ℕ) :
    (p.withRest (l :: ls)).depthAfter depth =
      if l.type = .lbrace then depth + 1 else if l.type = .rbrace then depth - 1 else depth := rfl

/-- A round that only counts braces. -/
theorem bodyRun_count {l : Lexeme} {ls : List Lexeme} {depth depth' : ℕ} (hdepth : depth ≠ 0)
    (hafter : (p.withRest (l :: ls)).depthAfter depth = depth') (hinside : depth' ≠ 0)
    (hplain : depth' = 1 → l.type ≠ .require ∧ ¬ (l.type = .identifier ∧
      ((p.withRest (l :: ls)).peekAt 1).type = .assign)) :
    bodyRun depth (p.withRest (l :: ls)) = bodyRun depth' (p.withRest ls) := by
  have hgo : ¬ ((p.withRest (l :: ls)).rest = [] ∨ depth = 0) := by simp [hdepth]
  have hrequire : ¬ (depth' = 1 ∧ (p.withRest (l :: ls)).peek.type = .require) :=
    fun h => (hplain h.1).1 h.2
  have hassign : ¬ (depth' = 1 ∧ (p.withRest (l :: ls)).peek.type = .identifier ∧
      ((p.withRest (l :: ls)).peekAt 1).type = .assign) := fun h => (hplain h.1).2 h.2
  show body (ls.length + 1) depth (p.withRest (l :: ls)) = _
  rw [body, if_neg hgo, hafter]
  dsimp only
  rw [if_neg hrequire, if_neg hassign, if_pos (Nat.pos_of_ne_zero hinside)]
  rfl

/-- The closing brace ends the loop and is not read. -/
theorem bodyRun_end (ls : List Lexeme) :
    bodyRun 1 (p.withRest (rbrace :: ls)) = some (p.withRest (rbrace :: ls)) := by
  show body (ls.length + 1) 1 (p.withRest (rbrace :: ls)) = _
  have hdepth : (p.withRest (rbrace :: ls)).depthAfter 1 = 0 := rfl
  rw [body, if_neg (by simp), hdepth]
  simp only [Nat.zero_ne_one, false_and, if_false, lt_irrefl, body_zero]

/-- Calm tokens are skipped. -/
theorem bodyRun_calm {cs ls : List Lexeme} (hcalm : ∀ l ∈ cs, Calm l) (hfollow : Follow ls) :
    bodyRun 1 (p.withRest (cs ++ ls)) = bodyRun 1 (p.withRest ls) := by
  induction cs with
  | nil => rfl
  | cons l cs ih =>
    obtain ⟨hlbrace, hrbrace, -, hrequire, -⟩ := hcalm l List.mem_cons_self
    have hrest := fun l' hl' => hcalm l' (List.mem_cons_of_mem _ hl')
    rw [← ih hrest, List.cons_append]
    refine bodyRun_count p one_ne_zero ?_ one_ne_zero fun _ => ⟨hrequire, fun h => ?_⟩
    · rw [depthAfter_withRest, if_neg hlbrace, if_neg hrbrace]
    · -- the token behind it is calm, or follows
      have hnext : ((p.withRest (l :: (cs ++ ls))).peekAt 1).type = .assign := h.2
      cases cs with
      | cons l' cs => exact (hrest l' List.mem_cons_self).2.2.1 hnext
      | nil =>
        cases ls with
        | nil => cases hnext
        | cons l' ls => exact (hfollow l' rfl).1 hnext

/-- What is nested deeper is skipped, as its braces are paired. -/
theorem bodyRun_balanced {inside : List Lexeme} (h : Balanced inside) {depth : ℕ} (hdepth : 2 ≤ depth)
    (ls : List Lexeme) :
    bodyRun depth (p.withRest (inside ++ ls)) = bodyRun depth (p.withRest ls) := by
  induction h generalizing depth ls with
  | nil => rfl
  | @token l inside hlbrace hrbrace _ ih =>
    rw [← ih hdepth ls, List.cons_append]
    refine bodyRun_count p (by omega) ?_ (by omega) (by omega)
    rw [depthAfter_withRest, if_neg hlbrace, if_neg hrbrace]
  | @block inner rest _ _ ihinner ihrest =>
    have hopen : bodyRun depth (p.withRest (lbrace :: (inner ++ rbrace :: (rest ++ ls)))) =
        bodyRun (depth + 1) (p.withRest (inner ++ rbrace :: (rest ++ ls))) :=
      bodyRun_count p (by omega) rfl (by omega) (by omega)
    have hclose : bodyRun (depth + 1) (p.withRest (rbrace :: (rest ++ ls))) =
        bodyRun depth (p.withRest (rest ++ ls)) :=
      bodyRun_count p (by omega) rfl (by omega) (by omega)
    rw [List.cons_append, List.append_assoc, List.cons_append, hopen, ihinner (by omega), hclose,
      ihrest hdepth]

/-! ## One statement -/

theorem Follow.calm {cs ls : List Lexeme} (hcalm : ∀ l ∈ cs, Calm l) (h : Follow ls) :
    Follow (cs ++ ls) := by
  cases cs with
  | nil => exact h
  | cons l cs =>
    intro l' hl'
    rw [← Option.some.inj hl']
    obtain ⟨-, -, hassign, -, hsemicolon⟩ := hcalm l List.mem_cons_self
    exact ⟨hassign, hsemicolon⟩

theorem Follow.eat_semicolon {ls : List Lexeme} (h : Follow ls) :
    (p.withRest ls).eat .semicolon = p.withRest ls := by
  refine eat_of_ne ?_
  cases ls with
  | nil => simp [peek, peekAt, withRest]
  | cons l ls => exact (h l rfl).2

theorem assignedValue_eq (value : Lexeme) (ls : List Lexeme) :
    (p.withRest (value :: ls)).assignedValue =
      if value.type ≠ .number ∨ (stoull value.text).isSome then
        some ((p.emit (Statement.assigned value).1).withRest ls, (Statement.assigned value).2)
      else none := by
  have hnone : p.emit [] = p := by
    unfold emit
    rw [List.append_nil]
  unfold assignedValue Statement.assigned
  rw [peek_withRest]
  by_cases hnumber : value.type = .number
  · cases hread : stoull value.text with
    | none => simp [hnumber]
    | some val => simp [hnumber, hnone]
  · by_cases hcaller : value.type = .caller
    · simp only [hcaller, reduceCtorEq, if_false, if_true, ne_eq, not_false_eq_true, true_or]
      rfl
    · simp [hnumber, hcaller, hnone]

/-- An assignment of a readable value. -/
theorem assignment_statement {target : Bytes} {value : Lexeme} {more ls : List Lexeme}
    (calm : ∀ l ∈ value :: more, Calm l) (hfollow : Follow ls) :
    (p.withRest ((Statement.assign target value more calm).lexemes ++ ls)).assignment =
      if (Statement.assign target value more calm).readable then
        some ((p.perform (.assign target value more calm)).withRest (more ++ ls)) else none := by
  have hfollow' : Follow (more ++ ls) :=
    hfollow.calm fun l hl => calm l (List.mem_cons_of_mem _ hl)
  show Option.bind ((p.withRest (value :: (more ++ ls))).assignedValue) _ = _
  rw [assignedValue_eq]
  simp only [Statement.readable, decide_eq_true_eq]
  split_ifs
  · rw [Option.bind_some]
    dsimp only
    rw [hfollow'.eat_semicolon]
    simp only [perform, Statement.code, Statement.stores, ← List.append_assoc]
    rfl
  · rfl

/-- What `skipParens` leaves of a condition is calm. -/
theorem skipParens_calm {condition : List Lexeme} (hcalm : ∀ l ∈ condition, Calm l)
    (ls : List Lexeme) :
    ∃ left, (∀ l ∈ left, Calm l) ∧
      (p.withRest (lparen :: (condition ++ rparen :: ls))).skipParens = p.withRest (left ++ ls) := by
  have hskip : ∀ rest, ((p.withRest (lparen :: rest)).eat .lparen).skipTo .rparen =
      p.withRest (rest.dropWhile fun l => l.type ≠ .rparen) := fun rest => rfl
  have hclose : Calm rparen := by decide
  unfold skipParens
  rw [hskip]
  induction condition with
  | nil => exact ⟨[], fun l hl => absurd hl List.not_mem_nil, rfl⟩
  | cons l condition ih =>
    have hrest := fun l' hl' => hcalm l' (List.mem_cons_of_mem l hl')
    by_cases hl : l.type = .rparen
    · refine ⟨condition ++ [rparen], fun l' hl' => ?_, ?_⟩
      · rcases List.mem_append.mp hl' with h | h
        · exact hrest l' h
        · exact List.mem_singleton.mp h ▸ hclose
      · rw [List.cons_append, List.dropWhile_cons_of_neg (by simp [hl]),
          eat_withRest p hl, List.append_assoc]
        rfl
    · rw [List.cons_append, List.dropWhile_cons_of_pos (by simp [hl])]
      exact ih hrest

theorem requireStatement_eq {condition ls : List Lexeme} (calm : ∀ l ∈ condition, Calm l)
    (hfollow : Follow ls) :
    ∃ left, (∀ l ∈ left, Calm l) ∧
      (p.withRest ((Statement.require condition calm).lexemes ++ ls)).requireStatement =
        (p.perform (.require condition calm)).withRest (left ++ ls) := by
  obtain ⟨left, hleft, hskip⟩ := skipParens_calm p calm ls
  refine ⟨left, hleft, ?_⟩
  have hlexemes : (Statement.require condition calm).lexemes ++ ls =
      ⟨.require, ascii "require"⟩ :: lparen :: (condition ++ rparen :: ls) := by
    simp [Statement.lexemes]
  rw [hlexemes]
  unfold requireStatement
  rw [consume_withRest, hskip, (hfollow.calm hleft).eat_semicolon]
  rfl

/-- **One statement** in a round or more. -/
theorem bodyRun_statement (s : Statement) {ls : List Lexeme} (hfollow : Follow ls) :
    bodyRun 1 (p.withRest (s.lexemes ++ ls)) =
      if s.readable then bodyRun 1 ((p.perform s).withRest ls) else none := by
  cases s with
  | assign target value more calm =>
    set P := p.withRest ((Statement.assign target value more calm).lexemes ++ ls) with hP
    have hgo : ¬ (P.rest = [] ∨ 1 = 0) := by simp [hP, Statement.lexemes]
    have hrequire : ¬ (P.depthAfter 1 = 1 ∧ P.peek.type = .require) := by
      simp [hP, Statement.lexemes]
    have hassign : P.depthAfter 1 = 1 ∧ P.peek.type = .identifier ∧
        (P.peekAt 1).type = .assign := ⟨rfl, rfl, rfl⟩
    have hround : bodyRun 1 P = P.assignment.bind (body (more.length + 2 + ls.length) 1) := by
      have hleft : P.left = more.length + 2 + ls.length + 1 := by
        simp [hP, Statement.lexemes, left]
        omega
      rw [bodyRun, hleft, body, if_neg hgo]
      dsimp only
      rw [if_neg hrequire, if_pos hassign]
      rfl
    rw [hround, assignment_statement p calm hfollow]
    split_ifs
    · rw [Option.bind_some, body_eq_bodyRun (by simp [left])]
      exact bodyRun_calm _ (fun l hl => calm l (List.mem_cons_of_mem _ hl)) hfollow
    · rfl
  | block head inside calm balanced =>
    have hopen : Follow (lbrace :: (inside ++ rbrace :: ls)) := by
      intro l hl
      rw [← Option.some.inj hl]
      exact ⟨by decide, by decide⟩
    have hlexemes : (Statement.block head inside calm balanced).lexemes ++ ls =
        head ++ lbrace :: (inside ++ rbrace :: ls) := by
      simp [Statement.lexemes]
    have hnothing : p.perform (.block head inside calm balanced) = p := by
      simp [perform, Statement.code, Statement.stores, Statement.gas]
    have hlbrace : bodyRun 1 (p.withRest (lbrace :: (inside ++ rbrace :: ls))) =
        bodyRun 2 (p.withRest (inside ++ rbrace :: ls)) :=
      bodyRun_count p one_ne_zero rfl (by omega) (by omega)
    have hrbrace : bodyRun 2 (p.withRest (rbrace :: ls)) = bodyRun 1 (p.withRest ls) :=
      bodyRun_count p (by omega) rfl one_ne_zero
        fun _ => ⟨by decide, fun h => absurd h.1 (by decide)⟩
    rw [hlexemes, bodyRun_calm p calm hopen, hlbrace, bodyRun_balanced p balanced le_rfl, hrbrace,
      hnothing]
    rfl
  | require condition calm =>
    obtain ⟨left, hleft, hstatement⟩ := requireStatement_eq p calm hfollow
    set P := p.withRest ((Statement.require condition calm).lexemes ++ ls) with hP
    have hne : P.rest ≠ [] := by simp [hP, Statement.lexemes]
    have hrequire : P.depthAfter 1 = 1 ∧ P.peek.type = .require := ⟨rfl, rfl⟩
    obtain ⟨n, hn⟩ := exists_fuel hne le_rfl
    have hlt := requireStatement_left_lt hne
    have hround : bodyRun 1 P = body n 1 P.requireStatement := by
      rw [bodyRun, hn, body, if_neg (by simp [hne])]
      dsimp only
      rw [if_pos hrequire, hrequire.1]
    rw [hround, body_eq_bodyRun (by omega), hstatement]
    exact bodyRun_calm _ hleft hfollow

/-! ## A body -/

theorem Follow.statement (s : Statement) (ls : List Lexeme) : Follow (s.lexemes ++ ls) := by
  intro l hl
  cases s with
  | assign target value more calm =>
    rw [← Option.some.inj hl]
    exact ⟨by simp, by simp⟩
  | block head inside calm balanced =>
    cases head with
    | nil =>
      rw [← Option.some.inj hl]
      exact ⟨by decide, by decide⟩
    | cons l' head =>
      rw [← Option.some.inj hl]
      obtain ⟨-, -, hassign, -, hsemicolon⟩ := calm l' List.mem_cons_self
      exact ⟨hassign, hsemicolon⟩
  | require condition calm =>
    rw [← Option.some.inj hl]
    exact ⟨by decide, by decide⟩

theorem Follow.statements (ss : List Statement) (ls : List Lexeme) :
    Follow (ss.flatMap Statement.lexemes ++ rbrace :: ls) := by
  cases ss with
  | nil =>
    intro l hl
    rw [← Option.some.inj hl]
    exact ⟨by decide, by decide⟩
  | cons s ss =>
    rw [List.flatMap_cons, List.append_assoc]
    exact .statement s _

/-- **A body**, up to its closing brace. -/
theorem bodyRun_statements (ss : List Statement) (ls : List Lexeme) :
    bodyRun 1 (p.withRest (ss.flatMap Statement.lexemes ++ rbrace :: ls)) =
      if ∀ s ∈ ss, s.readable = true then some ((p.performAll ss).withRest (rbrace :: ls))
      else none := by
  induction ss generalizing p with
  | nil =>
    rw [if_pos fun s hs => absurd hs List.not_mem_nil]
    exact bodyRun_end p ls
  | cons s ss ih =>
    rw [List.flatMap_cons, List.append_assoc, bodyRun_statement p s (.statements ss ls), ih]
    by_cases hs : s.readable = true
    · simp only [hs, if_true, List.forall_mem_cons, true_and]
      rfl
    · rw [if_neg hs, if_neg fun h => hs (h s List.mem_cons_self)]

/-- The code of a body, from a position on. -/
def bodyCode (slot : Bytes → UInt32) : ℕ → List Statement → Bytes
  | _, [] => []
  | position, s :: ss =>
    s.code slot position ++ bodyCode slot (position + (s.code slot position).length) ss

/-- The statements append their code and leave the slots and the names alone. -/
theorem performAll_frame (ss : List Statement) :
    (p.performAll ss).bytecode = p.bytecode ++ bodyCode p.slotOf p.bytecode.length ss ∧
      (p.performAll ss).storageMap = p.storageMap ∧ (p.performAll ss).functions = p.functions := by
  induction ss generalizing p with
  | nil => exact ⟨(List.append_nil _).symm, rfl, rfl⟩
  | cons s ss ih =>
    obtain ⟨hcode, hmap, hfn⟩ := ih (p.perform s)
    refine ⟨?_, hmap, hfn⟩
    have hlength : (p.perform s).bytecode.length =
        p.bytecode.length + (s.code p.slotOf p.bytecode.length).length := List.length_append
    have hslot : (p.perform s).slotOf = p.slotOf := rfl
    rw [hlength, hslot] at hcode
    show ((p.perform s).performAll ss).bytecode = _
    rw [hcode, bodyCode, ← List.append_assoc]
    rfl

/-- Without `require` the code is the store sequences. -/
theorem bodyCode_quiet (slot : Bytes → UInt32) {ss : List Statement}
    (hquiet : ∀ s ∈ ss, s.isRequire = false) (position : ℕ) :
    bodyCode slot position ss = ss.flatMap (Statement.stores slot) := by
  induction ss generalizing position with
  | nil => rfl
  | cons s ss ih =>
    have hcode : s.code slot position = s.stores slot := by
      cases s with
      | assign | block => rfl
      | require => exact absurd (hquiet _ List.mem_cons_self) (by simp [Statement.isRequire])
    rw [bodyCode, hcode, ih fun t ht => hquiet t (List.mem_cons_of_mem _ ht)]
    rfl

end Pass

/-! ## Functions and contracts -/

/-- `pub fn name(parameters) -> type { body }`. -/
structure FunctionDecl where
  isPublic : Bool
  name : Bytes
  parameters : List Lexeme
  returns : Option ScalarType
  body : List Statement
  closed : ∀ l ∈ parameters, l.type ≠ .rparen

namespace FunctionDecl

/-- The function as a program without statements, which has the same header. -/
def signature (fn : FunctionDecl) : Program where
  name := []
  declarations := []
  isPublic := fn.isPublic
  function := fn.name
  parameters := fn.parameters
  returns := fn.returns
  assignments := []
  distinct := List.nodup_nil
  declared := fun _ h => absurd h List.not_mem_nil
  closed := fn.closed

def lexemes (fn : FunctionDecl) : List Lexeme :=
  fn.signature.headerLexemes ++ lbrace :: (fn.body.flatMap Statement.lexemes ++ [rbrace])

/-- The function with one statement a line. -/
def lines (fn : FunctionDecl) : List (List Lexeme × Bool) :=
  (fn.signature.headerLexemes ++ [lbrace], false) ::
    (fn.body.map (fun s => (s.lexemes, true)) ++ [([rbrace], false)])

theorem lines_flatMap (fn : FunctionDecl) : fn.lines.flatMap Prod.fst = fn.lexemes := by
  simp [lines, lexemes, List.flatMap_map]

end FunctionDecl

/-- A contract with state declarations and functions behind them. -/
structure Contract where
  name : Bytes
  declarations : List Declaration
  functions : List FunctionDecl
  distinct : (declarations.map Declaration.name).Nodup

namespace Contract

/-- The tokens of the contract. -/
def lexemes (c : Contract) : List Lexeme :=
  ⟨.contract, ascii "contract"⟩ :: ⟨.identifier, c.name⟩ :: lbrace ::
    (c.declarations.flatMap Declaration.lexemes ++
      (c.functions.flatMap FunctionDecl.lexemes ++ [rbrace]))

/-- The contract with one statement a line. -/
def lines (c : Contract) : List (List Lexeme × Bool) :=
  ([⟨.contract, ascii "contract"⟩, ⟨.identifier, c.name⟩, lbrace], false) ::
    (c.declarations.map (fun d => (d.lexemes, true)) ++
      (c.functions.flatMap FunctionDecl.lines ++ [([rbrace], false)]))

/-- The text of these lines. -/
def print (c : Contract) : Bytes := c.lines.flatMap printLine

theorem lines_flatMap (c : Contract) : c.lines.flatMap Prod.fst = c.lexemes := by
  simp only [lines, lexemes, List.flatMap_cons, List.flatMap_append, List.flatMap_assoc,
    FunctionDecl.lines_flatMap, List.flatMap_map, List.flatMap_nil, List.append_nil]
  rfl

/-- Every contract of plain tokens has a text with one statement a line. -/
theorem laidOut_print {c : Contract} (h : ∀ l ∈ c.lexemes, l.plain = true) :
    LaidOut c.lexemes c.print := by
  rw [← lines_flatMap] at h ⊢
  exact laidOut_lines h

/-- The slot of a variable: its position among the declarations; 0 for one that is not declared. -/
def slot (c : Contract) (x : Bytes) : UInt32 :=
  let names := c.declarations.map Declaration.name
  if names.idxOf x < names.length then UInt32.ofNat (names.idxOf x) else 0

/-- The store sequences of all functions, in their order. -/
def stores (c : Contract) : Bytes :=
  c.functions.flatMap fun fn => fn.body.flatMap (Statement.stores c.slot)

/-- The pass behind the declarations. -/
def declared (c : Contract) : Pass := Pass.declare { rest := [] } c.declarations

theorem declared_slotOf (c : Contract) : c.declared.slotOf = c.slot := by
  funext x
  rw [Pass.slotOf, declared, Pass.declare_storageMap _ c.distinct, slot]
  dsimp only
  by_cases hx : x ∈ c.declarations.map Declaration.name
  · rw [if_pos hx, if_pos (List.idxOf_lt_length_iff.mpr hx), Option.getD_some]
    exact UInt32.zero_add _
  · rw [if_neg hx, if_neg (mt List.idxOf_lt_length_iff.mp hx)]
    rfl

/-- The tokens behind the declarations. -/
def functionLexemes (c : Contract) : List Lexeme :=
  c.functions.flatMap FunctionDecl.lexemes ++ [rbrace, eof]

theorem lexemes_eq (c : Contract) : c.lexemes ++ [eof] =
    ⟨.contract, ascii "contract"⟩ :: ⟨.identifier, c.name⟩ :: lbrace ::
      (c.declarations.flatMap Declaration.lexemes ++ c.functionLexemes) := by
  simp [lexemes, functionLexemes]

theorem headerLexemes_peek (prog : Program) (p : Pass) (ls : List Lexeme) :
    (p.withRest (prog.headerLexemes ++ ls)).peek.type = .pub ∨
      (p.withRest (prog.headerLexemes ++ ls)).peek.type = .fn := by
  unfold Program.headerLexemes
  cases prog.isPublic with
  | true => exact .inl rfl
  | false => exact .inr rfl

/-- **The outer loop on a function**: it compiles the body, or throws, and stops at the closing brace. -/
theorem declarations_function (fn : FunctionDecl) {f : ℕ} {p : Pass} (hf : 0 < f) (ls : List Lexeme) :
    Pass.declarations f (p.withRest (fn.lexemes ++ ls)) =
      if ∀ s ∈ fn.body, s.readable = true then
        .ok (({ p with functions := p.functions ++ [fn.name] }.performAll fn.body).withRest
          (rbrace :: ls))
      else .error (p.functions ++ [fn.name]) := by
  set named : Pass := { p with functions := p.functions ++ [fn.name] } with hnamed
  obtain ⟨f, rfl⟩ : ∃ n, f = n + 1 := ⟨f - 1, by omega⟩
  set body := fn.body.flatMap Statement.lexemes ++ rbrace :: ls with hbodyLexemes
  have hlexemes : fn.lexemes ++ ls = fn.signature.headerLexemes ++ lbrace :: body := by
    simp [FunctionDecl.lexemes, hbodyLexemes]
  have hheader : (p.withRest (fn.lexemes ++ ls)).functionHeader = named.withRest (lbrace :: body) := by
    rw [hlexemes]
    exact Pass.functionHeader_eq p fn.signature body
  have hbody : (named.withRest (lbrace :: body)).functionBody =
      if ∀ s ∈ fn.body, s.readable = true then
        some ((named.performAll fn.body).withRest (rbrace :: ls)) else none := by
    have hbrace : (named.withRest (lbrace :: body)).functionBody =
        Pass.body (lbrace :: body).length 1 (named.withRest body) := rfl
    have hfuel : (named.withRest body).left ≤ (lbrace :: body).length := Nat.le_succ _
    rw [hbrace, Pass.body_eq_bodyRun hfuel]
    exact Pass.bodyRun_statements named fn.body ls
  have hpeek := headerLexemes_peek fn.signature p (lbrace :: body)
  rw [← hlexemes] at hpeek
  have hgo : ¬ ((p.withRest (fn.lexemes ++ ls)).rest = [] ∨
      (p.withRest (fn.lexemes ++ ls)).peek.type = .eof ∨
      (p.withRest (fn.lexemes ++ ls)).peek.type = .rbrace) := by
    rintro (h | h | h)
    · simp [FunctionDecl.lexemes] at h
    · rcases hpeek with hp | hp <;> simp [hp] at h
    · rcases hpeek with hp | hp <;> simp [hp] at h
  have hstate : (p.withRest (fn.lexemes ++ ls)).peek.type ≠ .state := by
    rcases hpeek with hp | hp <;> simp [hp]
  have hend : ∀ q : Pass, Pass.declarations f (q.withRest (rbrace :: ls)) =
      .ok (q.withRest (rbrace :: ls)) := by
    intro q
    cases f with
    | zero => rfl
    | succ f => exact if_pos (.inr (.inr rfl))
  rw [Pass.declarations, if_neg hgo, if_neg hstate, if_pos hpeek, hheader, hbody]
  split_ifs
  · exact hend _
  · rfl

/-- The outer loop over the functions does the first one and no other. -/
theorem declarations_functions (c : Contract) {f : ℕ} (hf : 0 < f) :
    Pass.declarations f (c.declared.withRest c.functionLexemes) =
      match c.functions with
      | [] => .ok (c.declared.withRest [rbrace, eof])
      | fn :: rest =>
        if ∀ s ∈ fn.body, s.readable = true then
          .ok (({ c.declared with functions := [fn.name] }.performAll fn.body).withRest
            (rbrace :: (rest.flatMap FunctionDecl.lexemes ++ [rbrace, eof])))
        else .error [fn.name] := by
  have hnames : c.declared.functions = [] := (Pass.declare_frame _ c.declarations).2.2
  obtain ⟨f, rfl⟩ : ∃ n, f = n + 1 := ⟨f - 1, by omega⟩
  rw [functionLexemes]
  cases hfunctions : c.functions with
  | nil => exact if_pos (.inr (.inr rfl))
  | cons fn rest =>
    have hlexemes : ∀ ls, (fn :: rest).flatMap FunctionDecl.lexemes ++ ls =
        fn.lexemes ++ (rest.flatMap FunctionDecl.lexemes ++ ls) := by
      intro ls
      rw [List.flatMap_cons, List.append_assoc]
    rw [hlexemes, declarations_function fn (Nat.succ_pos f), hnames, List.nil_append]

theorem functionLexemes_peek (c : Contract) (p : Pass) :
    (p.withRest c.functionLexemes).peek.type ≠ .semicolon := by
  unfold functionLexemes
  cases c.functions with
  | nil => simp [rbrace]
  | cons fn rest =>
    have hpeek := headerLexemes_peek fn.signature p
      (lbrace :: (fn.body.flatMap Statement.lexemes ++ [rbrace]) ++
        (rest.flatMap FunctionDecl.lexemes ++ [rbrace, eof]))
    rw [List.flatMap_cons, FunctionDecl.lexemes, List.append_assoc, List.append_assoc]
    intro hsemicolon
    rw [hsemicolon] at hpeek
    rcases hpeek with h | h <;> cases h

/-- The body that is compiled. -/
def compiledBody (c : Contract) : List Statement := (c.functions.head?.map FunctionDecl.body).getD []

/-- **The compiler on a contract**: whatever the layout, it knows the first function and no other; it
succeeds when the numbers of its body can be read, and then the code is that of this body. -/
theorem compile_contract {c : Contract} {s : Bytes} (h : LaidOut c.lexemes s) :
    (compile s).functions = (c.functions.head?.map FunctionDecl.name).toList ∧
    ((compile s).success = true ↔ ∀ st ∈ c.compiledBody, st.readable = true) ∧
    ((compile s).success = true →
      (compile s).bytecode = Pass.bodyCode c.slot 0 c.compiledBody ++ [Opcode.stop.byte]) := by
  have htokens : compile s = compileTokens (c.lexemes ++ [eof]) := by
    rw [compile, tokenize_laidOut h]
    rfl
  have hlen : (c.lexemes ++ [eof]).length = 3 +
      (c.declarations.flatMap Declaration.lexemes ++ c.functionLexemes).length := by
    rw [lexemes_eq]
    simp only [List.length_cons]
    omega
  have hheader : Pass.contractHeader { rest := c.lexemes ++ [eof] } =
      Pass.withRest { rest := [] }
        (c.declarations.flatMap Declaration.lexemes ++ c.functionLexemes) := by
    rw [lexemes_eq]
    rfl
  have hdeclarations : Pass.declarations (c.lexemes ++ [eof]).length
      (Pass.contractHeader { rest := c.lexemes ++ [eof] }) =
        Pass.declarations (c.lexemes ++ [eof]).length (c.declared.withRest c.functionLexemes) := by
    rw [hheader]
    exact Pass.declarations_declare _ _ c.functionLexemes_peek (by rw [hlen]; exact Nat.le_add_left _ _)
  have hcode : c.declared.bytecode = [] := (Pass.declare_frame _ c.declarations).1
  have hnames : c.declared.functions = [] := (Pass.declare_frame _ c.declarations).2.2
  have hrun := c.declarations_functions (f := (c.lexemes ++ [eof]).length) (by omega)
  rw [htokens, compileTokens, if_neg (by omega), hdeclarations, compiledBody]
  cases hfunctions : c.functions with
  | nil =>
    simp only [hfunctions] at hrun
    rw [hrun]
    refine ⟨hnames, iff_of_true rfl fun st hst => absurd hst List.not_mem_nil, fun _ => ?_⟩
    show c.declared.bytecode ++ _ = _
    rw [hcode]
    rfl
  | cons fn rest =>
    simp only [hfunctions] at hrun
    obtain ⟨hbytecode, -, hfn⟩ :=
      Pass.performAll_frame { c.declared with functions := [fn.name] } fn.body
    by_cases hread : ∀ st ∈ fn.body, st.readable = true
    · rw [if_pos hread] at hrun
      rw [hrun]
      refine ⟨hfn, iff_of_true rfl hread, fun _ => ?_⟩
      show (Pass.performAll _ fn.body).bytecode ++ _ = _
      have hslot : Pass.slotOf { c.declared with functions := [fn.name] } = c.slot :=
        c.declared_slotOf
      rw [hbytecode, hslot]
      show (c.declared.bytecode ++ Pass.bodyCode c.slot c.declared.bytecode.length fn.body) ++ _ = _
      rw [hcode]
      rfl
    · rw [if_neg hread] at hrun
      rw [hrun]
      exact ⟨rfl, iff_of_false Bool.false_ne_true hread, fun h => absurd h Bool.false_ne_true⟩

/-- **All functions are compiled exactly when there is at most one**, and its numbers can be read. -/
theorem functions_compiled_iff {c : Contract}
    (hquiet : ∀ fn ∈ c.functions, ∀ st ∈ fn.body, st.isRequire = false) {s : Bytes}
    (hs : LaidOut c.lexemes s) :
    ((compile s).success = true ∧ (compile s).functions = c.functions.map FunctionDecl.name ∧
        c.stores <:+: (compile s).bytecode) ↔
      c.functions.length ≤ 1 ∧ ∀ fn ∈ c.functions, ∀ st ∈ fn.body, st.readable = true := by
  obtain ⟨hfunctions, hsuccess, hcode⟩ := compile_contract hs
  rw [hfunctions, hsuccess]
  unfold compiledBody stores at *
  match hlist : c.functions with
  | [] =>
    refine iff_of_true ⟨fun st hst => absurd hst List.not_mem_nil, rfl, List.nil_infix⟩
      ⟨Nat.zero_le 1, fun fn hfn => absurd hfn List.not_mem_nil⟩
  | [fn] =>
    rw [hlist] at hquiet hsuccess hcode
    have hbody := hquiet fn List.mem_cons_self
    constructor
    · rintro ⟨hread, -, -⟩
      refine ⟨le_rfl, fun fn' hfn' => ?_⟩
      rw [List.mem_singleton.mp hfn']
      exact hread
    · rintro ⟨-, hread⟩
      have hread' := hread fn List.mem_cons_self
      refine ⟨hread', rfl, ?_⟩
      rw [hcode (hsuccess.mpr hread')]
      show _ <:+: Pass.bodyCode c.slot 0 fn.body ++ _
      rw [Pass.bodyCode_quiet c.slot hbody, List.flatMap_singleton]
      exact (List.prefix_append _ _).isInfix
  | fn :: fn' :: rest =>
    refine iff_of_false ?_ fun h => absurd h.1 (by simp)
    rintro ⟨-, hnames, -⟩
    simp at hnames

/-- One variable. -/
def oneVariable : List Declaration := [⟨.scalar .uint256, ascii "x"⟩]

theorem oneVariable_distinct : (oneVariable.map Declaration.name).Nodup := List.nodup_singleton _

theorem nil_closed : ∀ l ∈ ([] : List Lexeme), l.type ≠ .rparen := fun _ h => absurd h List.not_mem_nil

/-- `pub fn name() { x = digit; }`. -/
def setter (name : Bytes) (digit : Fin 10) : FunctionDecl where
  isPublic := true
  name := name
  parameters := []
  returns := none
  body := [.assign (ascii "x") ⟨.number, [chr '0' + digit.val.toUInt8]⟩ [] (by simp [Calm])]
  closed := nil_closed

/-- A contract with one variable and a setter for each of some names. -/
def setters (names : List Bytes) : Contract where
  name := ascii "C"
  declarations := oneVariable
  functions := names.map fun name => setter name 7
  distinct := oneVariable_distinct

theorem setters_quiet (names : List Bytes) :
    ∀ fn ∈ (setters names).functions, ∀ st ∈ fn.body, st.isRequire = false := by
  intro fn hfn st hst
  obtain ⟨name, -, rfl⟩ := List.mem_map.mp hfn
  rw [List.mem_singleton.mp hst]
  rfl

example : (setters [ascii "f", ascii "g"]).print =
    ascii "contract C \x7b \nstate uint256 x ;\n" ++
      ascii "pub fn f ( ) \x7b \nx = 7 ;\n\x7d \n" ++
      ascii "pub fn g ( ) \x7b \nx = 7 ;\n\x7d \n\x7d \n" := by
  decide +kernel

theorem functions_compiled_one :
    (compile (setters [ascii "f"]).print).success = true ∧
      (compile (setters [ascii "f"]).print).functions = [ascii "f"] ∧
      (setters [ascii "f"]).stores <:+: (compile (setters [ascii "f"]).print).bytecode := by
  have hs := laidOut_print (c := setters [ascii "f"]) (by decide +kernel)
  refine (functions_compiled_iff (setters_quiet [ascii "f"]) hs).mpr ⟨le_rfl, ?_⟩
  decide +kernel

/-- `f` and `g`: the contract ends with the body of `f`. -/
theorem second_function_dropped :
    LaidOut (setters [ascii "f", ascii "g"]).lexemes (setters [ascii "f", ascii "g"]).print ∧
      (∀ fn ∈ (setters [ascii "f", ascii "g"]).functions, ∀ st ∈ fn.body, st.isRequire = false) ∧
      (compile (setters [ascii "f", ascii "g"]).print).functions = [ascii "f"] ∧
      (compile (setters [ascii "f", ascii "g"]).print).functions ≠
        (setters [ascii "f", ascii "g"]).functions.map FunctionDecl.name := by
  have hs := laidOut_print (c := setters [ascii "f", ascii "g"]) (by decide +kernel)
  have hfirst := (compile_contract hs).1
  refine ⟨hs, setters_quiet _, hfirst, ?_⟩
  rw [hfirst]
  decide

end Contract

end Mermai.Merlite
