import Mermai.Merlite.Compiler
import Mermai.Merlite.Scanner

/-!
# Merlite.Total — the loops of `compile`

`compile` as the code stands: one cursor, and five loops that move it, nested up to three deep.  A step is
one round of whichever loop is running.  Parentheses and braces need not be balanced: every loop stops at the
end of the tokens, and the loop over a function body may also leave a brace where it is.  What is left of the
tokens, and then the loop that runs, falls with every step (`Compiling.measure`), so the compiler ends on
every source (`compile_total`).
-/

namespace Mermai.Merlite

open Vm (Opcode)

/-! ## The code between the loops -/

namespace Pass

/-- The name of a state variable, behind its type. -/
def variableName (p : Pass) : Pass :=
  let p :=
    if p.peek.type = .identifier then
      { p.consume with
        storageMap := Function.update p.storageMap p.peek.text (some p.nextSlot)
        nextSlot := p.nextSlot + 1 }
    else p
  p.eat .semicolon

/-- `pub fn name`. -/
def functionName (p : Pass) : Pass :=
  let p := (p.eat .pub).consume
  if p.peek.type = .identifier then { p.consume with functions := p.functions ++ [p.peek.text] } else p

/-- `-> type`. -/
def returnType (p : Pass) : Pass := if p.peek.type = .arrow then p.consume.consume else p

/-- The guard of a `require`, behind its parentheses. -/
def guard (p : Pass) : Pass :=
  let p := p.eat .semicolon
  let target := UInt8.ofNat (p.bytecode.length + 3 + 2)
  (p.emit [Opcode.push1.byte, 0x01, Opcode.jmpi.byte, target, Opcode.revert.byte]).addGas 20

/-- `cursor < tokens.size() && peek().type != TOKEN_RPAREN`. -/
def inParens (p : Pass) : Prop := p.rest ≠ [] ∧ p.peek.type ≠ .rparen

instance (p : Pass) : Decidable p.inParens := inferInstanceAs (Decidable (_ ∧ _))

theorem stateDeclaration_split (p : Pass) :
    p.stateDeclaration =
      (if p.consume.peek.type = .mapping then p.consume.consume.skipParens
        else p.consume.consume).variableName := rfl

theorem functionHeader_split (p : Pass) :
    p.functionHeader =
      (if p.functionName.peek.type = .lparen then p.functionName.skipParens
        else p.functionName).returnType := rfl

theorem requireStatement_split (p : Pass) : p.requireStatement = p.consume.skipParens.guard := rfl

/-! The names of the functions do not change inside a body. -/

theorem eat_functions (p : Pass) (type : TokenType) : (p.eat type).functions = p.functions := by
  unfold eat
  split_ifs <;> rfl

theorem requireStatement_functions (p : Pass) : p.requireStatement.functions = p.functions := by
  have hguard : p.requireStatement.functions = (p.consume.skipParens.eat .semicolon).functions := by
    simp only [requireStatement, emit, addGas]
  have hskip : ∀ q : Pass, (q.skipTo .rparen).functions = q.functions := fun _ => rfl
  rw [hguard, eat_functions, skipParens, eat_functions, hskip, eat_functions]
  rfl

theorem assignedValue_functions {p q : Pass} {val : UInt64} (h : p.assignedValue = some (q, val)) :
    q.functions = p.functions := by
  unfold assignedValue at h
  split_ifs at h
  · obtain ⟨_, -, heq⟩ := Option.map_eq_some_iff.mp h
    rw [← (Prod.mk.inj heq).1]
    rfl
  · rw [← (Prod.mk.inj (Option.some.inj h)).1]
    rfl
  · rw [← (Prod.mk.inj (Option.some.inj h)).1]
    rfl

theorem assignment_functions {p q : Pass} (h : p.assignment = some q) : q.functions = p.functions := by
  obtain ⟨⟨r, val⟩, hr, hq⟩ := Option.bind_eq_some_iff.mp h
  have hvalue := assignedValue_functions hr
  rw [← Option.some.inj hq]
  exact (eat_functions r .semicolon).trans hvalue

end Pass

/-! ## The loops -/

/-- The loop that runs: over the declarations, over the parentheses of a mapping, over those of a function,
over a function body at a depth, or over the parentheses of a `require` in one. -/
inductive Loop
  | declarations
  | mapping
  | parameters
  | body (depth : ℕ)
  | condition (depth : ℕ)

/-- The loop that runs, and the variables of `compile`. -/
structure Compiling where
  loop : Loop
  pass : Pass

namespace Compiling

/-- The head of a function behind its parameters, up to the loop over its body. -/
def enterBody (p : Pass) : Compiling :=
  let p := p.returnType
  if p.peek.type = .lbrace then ⟨.body 1, p.consume⟩ else ⟨.declarations, p⟩

/-- A round of the loop that runs, and of the code behind it when it is over. -/
def step (s : Compiling) : Machine.Step Compiling (Except (List Bytes) Pass) :=
  let p := s.pass
  match s.loop with
  | .declarations =>
    if p.rest = [] ∨ p.peek.type = .eof ∨ p.peek.type = .rbrace then .stop (.ok p)
    else if p.peek.type = .state then
      let p := p.consume
      if p.peek.type = .mapping then .next ⟨.mapping, p.consume.eat .lparen⟩
      else .next ⟨.declarations, p.consume.variableName⟩
    else if p.peek.type = .pub ∨ p.peek.type = .fn then
      let p := p.functionName
      if p.peek.type = .lparen then .next ⟨.parameters, p.consume⟩ else .next (enterBody p)
    else .next ⟨.declarations, p.consume⟩
  | .mapping =>
    if p.inParens then .next ⟨.mapping, p.consume⟩
    else .next ⟨.declarations, (p.eat .rparen).variableName⟩
  | .parameters =>
    if p.inParens then .next ⟨.parameters, p.consume⟩ else .next (enterBody (p.eat .rparen))
  | .body depth =>
    if p.rest = [] ∨ depth = 0 then .next ⟨.declarations, p⟩
    else
      let depth := p.depthAfter depth
      if depth = 1 ∧ p.peek.type = .require then .next ⟨.condition depth, p.consume.eat .lparen⟩
      else if depth = 1 ∧ p.peek.type = .identifier ∧ (p.peekAt 1).type = .assign then
        match p.assignment with
        | none => .stop (.error p.functions)
        | some p => .next ⟨.body depth, p⟩
      else if 0 < depth then .next ⟨.body depth, p.consume⟩
      else .next ⟨.body depth, p⟩
  | .condition depth =>
    if p.inParens then .next ⟨.condition depth, p.consume⟩
    else .next ⟨.body depth, (p.eat .rparen).guard⟩

/-! ## What is still to come -/

/-- What the outer loop makes of the tokens that are left. -/
def outer (p : Pass) : Except (List Bytes) Pass := p.declarations p.left

/-- The same behind a body; an exception leaves the names of the functions. -/
def behindBody (functions : List Bytes) : Option Pass → Except (List Bytes) Pass
  | none => .error functions
  | some q => outer q

/-- The same from inside a body. -/
def inBody (depth : ℕ) (p : Pass) : Except (List Bytes) Pass :=
  behindBody p.functions (p.body p.left depth)

/-- Behind the parentheses that a loop is in. -/
def behindParens (p : Pass) : Pass := (p.skipTo .rparen).eat .rparen

/-- The result that the run will have. -/
def meaning (s : Compiling) : Except (List Bytes) Pass :=
  match s.loop with
  | .declarations => outer s.pass
  | .mapping => outer (behindParens s.pass).variableName
  | .parameters =>
    let p := (behindParens s.pass).returnType
    if p.peek.type = .lbrace then inBody 1 p.consume else outer p
  | .body depth => inBody depth s.pass
  | .condition depth => inBody depth (behindParens s.pass).guard

theorem meaning_enterBody (p : Pass) :
    meaning (enterBody p) =
      if p.returnType.peek.type = .lbrace then inBody 1 p.returnType.consume else outer p.returnType := by
  unfold enterBody
  dsimp only
  split_ifs <;> rfl

theorem skipTo_of_inParens {p : Pass} (h : p.inParens) : p.consume.skipTo .rparen = p.skipTo .rparen := by
  obtain ⟨hne, htype⟩ := h
  obtain ⟨l, rest, hrest⟩ := List.exists_cons_of_ne_nil hne
  have hl : l.type ≠ .rparen := by
    rw [Pass.peek, Pass.peekAt, hrest] at htype
    exact htype
  rw [Pass.skipTo, Pass.skipTo, Pass.consume, hrest, List.dropWhile_cons_of_pos (by simpa using hl)]
  rfl

theorem skipTo_of_not_inParens {p : Pass} (h : ¬ p.inParens) : p.skipTo .rparen = p := by
  cases hrest : p.rest with
  | nil =>
    rw [Pass.skipTo, hrest, List.dropWhile_nil, ← hrest]
  | cons l rest =>
    have hl : l.type = .rparen := by
      by_contra hne
      refine h ⟨by rw [hrest]; exact List.cons_ne_nil _ _, ?_⟩
      rw [Pass.peek, Pass.peekAt, hrest]
      exact hne
    rw [Pass.skipTo, hrest, List.dropWhile_cons_of_neg (by simp [hl]), ← hrest]

theorem behindParens_of_inParens {p : Pass} (h : p.inParens) : behindParens p.consume = behindParens p := by
  rw [behindParens, behindParens, skipTo_of_inParens h]

theorem behindParens_of_not_inParens {p : Pass} (h : ¬ p.inParens) : behindParens p = p.eat .rparen := by
  rw [behindParens, skipTo_of_not_inParens h]

theorem skipParens_eq (p : Pass) : p.skipParens = behindParens (p.eat .lparen) := rfl

/-! ## The rounds of the existing loops -/

theorem outer_eq {p : Pass} (h : ¬ (p.rest = [] ∨ p.peek.type = .eof ∨ p.peek.type = .rbrace)) :
    outer p =
      if p.peek.type = .state then outer p.stateDeclaration
      else if p.peek.type = .pub ∨ p.peek.type = .fn then
        behindBody p.functionHeader.functions p.functionHeader.functionBody
      else outer p.consume := by
  have hne : p.rest ≠ [] := fun hnil => h (.inl hnil)
  obtain ⟨n, hn⟩ := Pass.exists_fuel hne le_rfl
  have hfuel : ∀ {q : Pass}, q.left < p.left → Pass.declarations n q = outer q :=
    fun hlt => Pass.declarations_fuel (by omega) le_rfl
  rw [outer, hn, Pass.declarations, if_neg h, hfuel (Pass.stateDeclaration_left_lt hne),
    hfuel (Pass.consume_left_lt hne)]
  cases hq : p.functionHeader.functionBody with
  | none => rfl
  | some q => simp only [hfuel (Pass.function_left_lt hne hq), behindBody]

theorem functionBody_eq (p : Pass) :
    behindBody p.functions p.functionBody =
      if p.peek.type = .lbrace then inBody 1 p.consume else outer p := by
  unfold Pass.functionBody
  split_ifs
  · have hbody : Pass.body p.rest.length 1 p.consume = Pass.body p.consume.left 1 p.consume :=
      Pass.body_fuel (Pass.consume_left_le p) le_rfl
    rw [hbody]
    rfl
  · rfl

theorem inBody_zero (p : Pass) : inBody 0 p = outer p := by
  rw [inBody, Pass.body_zero, behindBody]

theorem inBody_nil {p : Pass} (h : p.rest = []) (depth : ℕ) : inBody depth p = outer p := by
  rw [inBody, Pass.body_nil h, behindBody]

theorem inBody_eq {depth : ℕ} {p : Pass} (h : ¬ (p.rest = [] ∨ depth = 0)) :
    inBody depth p =
      if p.depthAfter depth = 1 ∧ p.peek.type = .require then inBody (p.depthAfter depth) p.requireStatement
      else if p.depthAfter depth = 1 ∧ p.peek.type = .identifier ∧ (p.peekAt 1).type = .assign then
        p.assignment.elim (.error p.functions) (inBody (p.depthAfter depth))
      else if 0 < p.depthAfter depth then inBody (p.depthAfter depth) p.consume
      else inBody (p.depthAfter depth) p := by
  have hne : p.rest ≠ [] := fun hnil => h (.inl hnil)
  obtain ⟨n, hn⟩ := Pass.exists_fuel hne le_rfl
  have hfuel : ∀ {d : ℕ} {q : Pass}, q.left < p.left → Pass.body n d q = Pass.body q.left d q :=
    fun hlt => Pass.body_fuel (by omega) le_rfl
  rw [inBody, hn, Pass.body, if_neg h]
  dsimp only
  split_ifs with hrequire hassign hdepth
  · rw [hfuel (Pass.requireStatement_left_lt hne), inBody, Pass.requireStatement_functions]
  · cases hq : p.assignment with
    | none => rfl
    | some q =>
      have hbody := @hfuel (p.depthAfter depth) q (Pass.assignment_left_lt hne hq)
      rw [Option.elim_some, inBody, Pass.assignment_functions hq, ← hbody]
      rfl
  · rw [hfuel (Pass.consume_left_lt hne)]
    rfl
  · rw [Nat.le_zero.mp (not_lt.mp hdepth), Pass.body_zero, inBody_zero, behindBody]

/-! ## Every round gets closer -/

/-- A loop that is over comes after the loops inside it. -/
def rank : Loop → ℕ
  | .declarations => 0
  | .body 0 => 1
  | .body (_ + 1) => 2
  | .mapping | .parameters | .condition _ => 3

/-- The tokens that are left, and the loop among them. -/
def measure (s : Compiling) : ℕ := 4 * s.pass.left + rank s.loop

theorem rank_le (loop : Loop) : rank loop ≤ 3 := by
  unfold rank
  split <;> decide

/-- The loop over a body lies between the outer loop and the loops inside it. -/
theorem rank_body (depth : ℕ) : 0 < rank (.body depth) ∧ rank (.body depth) < 3 := by
  cases depth with
  | zero => exact ⟨Nat.one_pos, show 1 < 3 by decide⟩
  | succ depth => exact ⟨Nat.two_pos, show 2 < 3 by decide⟩

theorem measure_lt_of_left {s s' : Compiling} (h : s'.pass.left < s.pass.left) :
    s'.measure < s.measure := by
  have := rank_le s'.loop
  unfold measure
  omega

theorem measure_lt_of_rank {s s' : Compiling} (hleft : s'.pass.left ≤ s.pass.left)
    (h : rank s'.loop < rank s.loop) : s'.measure < s.measure := by
  unfold measure
  omega

/-- What every round does. -/
abbrev Advances (s : Compiling) : Prop :=
  Machine.Descends step (fun _ => True) measure meaning s

theorem variableName_left_le (p : Pass) : p.variableName.left ≤ p.left := by
  unfold Pass.variableName
  dsimp only
  refine (Pass.eat_left_le _ _).trans ?_
  split_ifs
  · exact Pass.consume_left_le p
  · exact le_rfl

theorem functionName_left_lt {p : Pass} (h : p.rest ≠ []) : p.functionName.left < p.left := by
  have hfn : (p.eat .pub).consume.left < p.left := by
    unfold Pass.eat
    split_ifs
    · exact (Pass.consume_left_le _).trans_lt (Pass.consume_left_lt h)
    · exact Pass.consume_left_lt h
  refine lt_of_le_of_lt ?_ hfn
  unfold Pass.functionName
  dsimp only
  split_ifs
  · exact Pass.consume_left_le _
  · exact le_rfl

theorem guard_left_le (p : Pass) : p.guard.left ≤ p.left := Pass.eat_left_le p .semicolon

theorem enterBody_left_le (p : Pass) : (enterBody p).pass.left ≤ p.left := by
  have hreturn : p.returnType.left ≤ p.left := by
    unfold Pass.returnType
    split_ifs
    · exact (Pass.consume_left_le _).trans (Pass.consume_left_le p)
    · exact le_rfl
  unfold enterBody
  dsimp only
  split_ifs
  · exact (Pass.consume_left_le _).trans hreturn
  · exact hreturn

theorem rank_enterBody (p : Pass) : rank (enterBody p).loop ≤ 2 := by
  unfold enterBody
  dsimp only
  split_ifs
  · exact le_refl 2
  · exact Nat.zero_le 2

/-- The loops over parentheses. -/
theorem inParens_left_lt {p : Pass} (h : p.inParens) : p.consume.left < p.left := Pass.consume_left_lt h.1

theorem advances_mapping (p : Pass) : Advances ⟨.mapping, p⟩ := by
  by_cases h : p.inParens
  · refine .next (if_pos h) trivial (measure_lt_of_left (inParens_left_lt h)) ?_
    simp only [meaning, behindParens_of_inParens h]
  · have hleft := (variableName_left_le (p.eat .rparen)).trans (Pass.eat_left_le p _)
    have hrank : rank .declarations < rank .mapping := by decide
    refine .next (if_neg h) trivial (measure_lt_of_rank hleft hrank) ?_
    simp only [meaning, behindParens_of_not_inParens h]

theorem advances_parameters (p : Pass) : Advances ⟨.parameters, p⟩ := by
  by_cases h : p.inParens
  · refine .next (if_pos h) trivial (measure_lt_of_left (inParens_left_lt h)) ?_
    simp only [meaning, behindParens_of_inParens h]
  · have hleft := (enterBody_left_le (p.eat .rparen)).trans (Pass.eat_left_le p _)
    have hrank := Nat.lt_succ_of_le (rank_enterBody (p.eat .rparen))
    refine .next (if_neg h) trivial (measure_lt_of_rank hleft hrank) ?_
    rw [meaning_enterBody]
    simp only [meaning, behindParens_of_not_inParens h]

theorem advances_condition (depth : ℕ) (p : Pass) : Advances ⟨.condition depth, p⟩ := by
  by_cases h : p.inParens
  · refine .next (if_pos h) trivial (measure_lt_of_left (inParens_left_lt h)) ?_
    simp only [meaning, behindParens_of_inParens h]
  · have hleft := (guard_left_le (p.eat .rparen)).trans (Pass.eat_left_le p _)
    have hrank : rank (.body depth) < rank (.condition depth) := (rank_body depth).2
    refine .next (if_neg h) trivial (measure_lt_of_rank hleft hrank) ?_
    simp only [meaning, behindParens_of_not_inParens h]

/-- `state`: the loop over the parentheses of a mapping, or the name at once. -/
theorem advances_state {p : Pass} (hend : ¬ (p.rest = [] ∨ p.peek.type = .eof ∨ p.peek.type = .rbrace))
    (hstate : p.peek.type = .state) : Advances ⟨.declarations, p⟩ := by
  have hconsume := Pass.consume_left_lt fun hnil => hend (.inl hnil)
  have houter := outer_eq hend
  rw [if_pos hstate, Pass.stateDeclaration_split] at houter
  by_cases hmapping : p.consume.peek.type = .mapping
  · rw [if_pos hmapping, skipParens_eq] at houter
    have hstep : step ⟨.declarations, p⟩ = .next ⟨.mapping, p.consume.consume.eat .lparen⟩ := by
      simp only [step, if_neg hend, if_pos hstate, if_pos hmapping]
    have hleft := ((Pass.eat_left_le _ .lparen).trans (Pass.consume_left_le _)).trans_lt hconsume
    exact .next hstep trivial (measure_lt_of_left hleft) houter.symm
  · rw [if_neg hmapping] at houter
    have hstep : step ⟨.declarations, p⟩ = .next ⟨.declarations, p.consume.consume.variableName⟩ := by
      simp only [step, if_neg hend, if_pos hstate, if_neg hmapping]
    have hleft := ((variableName_left_le _).trans (Pass.consume_left_le _)).trans_lt hconsume
    exact .next hstep trivial (measure_lt_of_left hleft) houter.symm

/-- `pub` and `fn`: the loop over the parameters, or the body at once. -/
theorem advances_function {p : Pass} (hend : ¬ (p.rest = [] ∨ p.peek.type = .eof ∨ p.peek.type = .rbrace))
    (hstate : ¬ p.peek.type = .state) (hfn : p.peek.type = .pub ∨ p.peek.type = .fn) :
    Advances ⟨.declarations, p⟩ := by
  have hname := functionName_left_lt fun hnil => hend (.inl hnil)
  have houter := outer_eq hend
  rw [if_neg hstate, if_pos hfn, Pass.functionHeader_split] at houter
  by_cases hparams : p.functionName.peek.type = .lparen
  · have heat : p.functionName.eat .lparen = p.functionName.consume := if_pos hparams
    rw [if_pos hparams, functionBody_eq, skipParens_eq, heat] at houter
    have hstep : step ⟨.declarations, p⟩ = .next ⟨.parameters, p.functionName.consume⟩ := by
      simp only [step, if_neg hend, if_neg hstate, if_pos hfn, if_pos hparams]
    have hleft := (Pass.consume_left_le _).trans_lt hname
    exact .next hstep trivial (measure_lt_of_left hleft) houter.symm
  · rw [if_neg hparams, functionBody_eq, ← meaning_enterBody] at houter
    have hstep : step ⟨.declarations, p⟩ = .next (enterBody p.functionName) := by
      simp only [step, if_neg hend, if_neg hstate, if_pos hfn, if_neg hparams]
    have hleft := (enterBody_left_le _).trans_lt hname
    exact .next hstep trivial (measure_lt_of_left hleft) houter.symm

/-- The outer loop reads a token with every round that goes on. -/
theorem advances_declarations (p : Pass) : Advances ⟨.declarations, p⟩ := by
  by_cases hend : p.rest = [] ∨ p.peek.type = .eof ∨ p.peek.type = .rbrace
  · refine .stop ?_
    have hmeaning : outer p = .ok p := by
      rw [outer]
      cases hleft : p.left with
      | zero => rfl
      | succ n => rw [Pass.declarations, if_pos hend]
    simp only [step, if_pos hend, meaning, hmeaning]
  by_cases hstate : p.peek.type = .state
  · exact advances_state hend hstate
  by_cases hfn : p.peek.type = .pub ∨ p.peek.type = .fn
  · exact advances_function hend hstate hfn
  have houter := outer_eq hend
  rw [if_neg hstate, if_neg hfn] at houter
  have hstep : step ⟨.declarations, p⟩ = .next ⟨.declarations, p.consume⟩ := by
    simp only [step, if_neg hend, if_neg hstate, if_neg hfn]
  have hleft := Pass.consume_left_lt fun hnil => hend (.inl hnil)
  exact .next hstep trivial (measure_lt_of_left hleft) houter.symm

/-- The loop over a body is left at its end, or where no brace is open. -/
theorem advances_body_end {depth : ℕ} {p : Pass} (hend : p.rest = [] ∨ depth = 0) :
    Advances ⟨.body depth, p⟩ := by
  have hstep : step ⟨.body depth, p⟩ = .next ⟨.declarations, p⟩ := by
    simp only [step, if_pos hend]
  have hrank : rank .declarations < rank (.body depth) := (rank_body depth).1
  refine .next hstep trivial (measure_lt_of_rank le_rfl hrank) ?_
  rcases hend with hnil | rfl
  · exact (inBody_nil hnil depth).symm
  · exact (inBody_zero p).symm

/-- An assignment ends the loops when its number is none. -/
theorem advances_assignment {depth : ℕ} {p : Pass} (hend : ¬ (p.rest = [] ∨ depth = 0))
    (hrequire : ¬ (p.depthAfter depth = 1 ∧ p.peek.type = .require))
    (hassign : p.depthAfter depth = 1 ∧ p.peek.type = .identifier ∧ (p.peekAt 1).type = .assign) :
    Advances ⟨.body depth, p⟩ := by
  have hne : p.rest ≠ [] := fun hnil => hend (.inl hnil)
  have hbody := inBody_eq hend
  rw [if_neg hrequire, if_pos hassign] at hbody
  cases hq : p.assignment with
  | none =>
    rw [hq, Option.elim_none] at hbody
    refine .stop ?_
    simp only [step, if_neg hend, if_neg hrequire, if_pos hassign, hq, meaning, hbody]
  | some q =>
    rw [hq, Option.elim_some] at hbody
    have hstep : step ⟨.body depth, p⟩ = .next ⟨.body (p.depthAfter depth), q⟩ := by
      simp only [step, if_neg hend, if_neg hrequire, if_pos hassign, hq]
    exact .next hstep trivial (measure_lt_of_left (Pass.assignment_left_lt hne hq)) hbody.symm

/-- The loop over a body reads a token, or is left at the brace that closes the body. -/
theorem advances_body (depth : ℕ) (p : Pass) : Advances ⟨.body depth, p⟩ := by
  by_cases hend : p.rest = [] ∨ depth = 0
  · exact advances_body_end hend
  have hconsume := Pass.consume_left_lt fun hnil => hend (.inl hnil)
  have hbody := inBody_eq hend
  by_cases hrequire : p.depthAfter depth = 1 ∧ p.peek.type = .require
  · rw [if_pos hrequire, Pass.requireStatement_split, skipParens_eq] at hbody
    have hstep : step ⟨.body depth, p⟩ =
        .next ⟨.condition (p.depthAfter depth), p.consume.eat .lparen⟩ := by
      simp only [step, if_neg hend, if_pos hrequire]
    have hleft := (Pass.eat_left_le p.consume .lparen).trans_lt hconsume
    exact .next hstep trivial (measure_lt_of_left hleft) hbody.symm
  by_cases hassign : p.depthAfter depth = 1 ∧ p.peek.type = .identifier ∧ (p.peekAt 1).type = .assign
  · exact advances_assignment hend hrequire hassign
  rw [if_neg hrequire, if_neg hassign] at hbody
  by_cases hdepth : 0 < p.depthAfter depth
  · rw [if_pos hdepth] at hbody
    have hstep : step ⟨.body depth, p⟩ = .next ⟨.body (p.depthAfter depth), p.consume⟩ := by
      simp only [step, if_neg hend, if_neg hrequire, if_neg hassign, if_pos hdepth]
    exact .next hstep trivial (measure_lt_of_left hconsume) hbody.symm
  · rw [if_neg hdepth] at hbody
    have hstep : step ⟨.body depth, p⟩ = .next ⟨.body (p.depthAfter depth), p⟩ := by
      simp only [step, if_neg hend, if_neg hrequire, if_neg hassign, if_neg hdepth]
    -- the brace stays for the outer loop, and the depth is zero now
    have hrank : rank (.body (p.depthAfter depth)) < rank (.body depth) := by
      rw [Nat.le_zero.mp (not_lt.mp hdepth)]
      cases depth with
      | zero => exact absurd (.inr rfl) hend
      | succ depth => exact show 1 < 2 by decide
    exact .next hstep trivial (measure_lt_of_rank le_rfl hrank) hbody.symm

theorem advances (s : Compiling) : Advances s := by
  obtain ⟨loop, p⟩ := s
  cases loop with
  | declarations => exact advances_declarations p
  | mapping => exact advances_mapping p
  | parameters => exact advances_parameters p
  | body depth => exact advances_body depth p
  | condition depth => exact advances_condition depth p

end Compiling

/-! ## The compiler -/

/-- The end of `compile`: the result of the loops, or the exception that stopped them. -/
def compilationOf : Except (List Bytes) Pass → CompilationResult
  | .error functions => { errors := ["Compilation error: stoull"], functions }
  | .ok p =>
    let bytecode := p.bytecode ++ [Opcode.stop.byte]
    { success := true, bytecode, hexBytecode := ascii "0x" ++ hashToHex bytecode
      storageLayout := p.storageMap, functions := p.functions, estimatedDeploymentGas := p.estGas }

/-- `tokens.empty() || (tokens.size() == 1 && tokens[0].type == TOKEN_EOF)`. -/
def blankSource (tokens : List Lexeme) : Bool :=
  match tokens with
  | [] => true
  | [l] => l.type = .eof
  | _ => false

/-- `compile`, for a number of rounds of each pass: what escapes from it, or its result; `none` when it is
still running. -/
def runCompile (fuel : ℕ) (source : Bytes) : Option (Except String CompilationResult) := do
  match ← Scanner.runTokenize fuel source with
  | .error what => some (.error what)
  | .ok tokens =>
    let tokens := tokens.map Token.toLexeme
    if blankSource tokens then some (.ok { errors := ["Empty Merlite source file."] })
    else
      let r ← Machine.run Compiling.step fuel ⟨.declarations, Pass.contractHeader { rest := tokens }⟩
      some (.ok (compilationOf r))

/-- A result is a success with its code, or a failure with its errors. -/
inductive Settled (r : CompilationResult) : Prop
  | success (h : r.success = true) (herrors : r.errors = [])
      (hstop : ∃ code, r.bytecode = code ++ [Opcode.stop.byte])
      (hhex : r.hexBytecode = ascii "0x" ++ hashToHex r.bytecode)
  | failure (h : r.success = false) (herrors : r.errors ≠ []) (hcode : r.bytecode = [])
      (hlayout : ∀ name, r.storageLayout name = none)

theorem settled_compilationOf (r : Except (List Bytes) Pass) : Settled (compilationOf r) := by
  cases r with
  | error functions => exact .failure rfl (List.cons_ne_nil _ _) rfl fun _ => rfl
  | ok p => exact .success rfl rfl ⟨p.bytecode, rfl⟩ rfl

theorem compileTokens_eq (tokens : List Lexeme) :
    compileTokens tokens =
      if tokens.length ≤ 1 then { errors := ["Empty Merlite source file."] }
      else compilationOf (Pass.declarations tokens.length (Pass.contractHeader { rest := tokens })) := by
  unfold compileTokens
  split_ifs with hlength
  · rfl
  · cases Pass.declarations tokens.length (Pass.contractHeader { rest := tokens }) <;> rfl

theorem settled_compileTokens (tokens : List Lexeme) : Settled (compileTokens tokens) := by
  rw [compileTokens_eq]
  split_ifs
  · exact .failure rfl (List.cons_ne_nil _ _) rfl fun _ => rfl
  · exact settled_compilationOf _

/-- A round reads one token at most, and the end of the file comes last. -/
theorem tokenizeFrom_shape (fuel : ℕ) (line column : UInt32) (s : Bytes) (h : s.length ≤ fuel) :
    ∃ tokens : List Token, tokens.length ≤ s.length ∧
      ∃ line' column', tokenizeFrom fuel line column s = tokens ++ [⟨⟨.eof, []⟩, line', column'⟩] := by
  induction fuel generalizing line column s with
  | zero =>
    have hnil : s = [] := List.length_eq_zero_iff.mp (Nat.le_zero.mp h)
    exact ⟨[], by simp, line, column, by rw [hnil]; rfl⟩
  | succ fuel ih =>
    cases s with
    | nil => exact ⟨[], by simp, line, column, rfl⟩
    | cons c rest =>
      have hle := scan_rest_le line column c rest
      obtain ⟨tokens, hlength, line', column', heq⟩ :=
        ih (scan line column c rest).line (scan line column c rest).column
          (scan line column c rest).rest (hle.trans (Nat.le_of_succ_le_succ h))
      refine ⟨(scan line column c rest).token.toList ++ tokens, ?_, line', column', ?_⟩
      · have htoken : (scan line column c rest).token.toList.length ≤ 1 := by
          cases (scan line column c rest).token <;> simp
        rw [List.length_append, List.length_cons]
        omega
      · rw [tokenizeFrom, heq, List.append_assoc]

theorem blankSource_tokenize (source : Bytes) :
    blankSource ((tokenize source).map Token.toLexeme) = true ↔
      ((tokenize source).map Token.toLexeme).length ≤ 1 := by
  obtain ⟨tokens, -, line, column, heq⟩ := tokenizeFrom_shape source.length 1 1 source le_rfl
  rw [tokenize, heq]
  cases tokens with
  | nil => simp [blankSource]
  | cons t tokens => cases tokens <;> simp [blankSource]

theorem contractHeader_left_le (p : Pass) : p.contractHeader.left ≤ p.left := by
  unfold Pass.contractHeader
  split_ifs
  · exact (Pass.eat_left_le _ _).trans ((Pass.eat_left_le _ _).trans (Pass.consume_left_le p))
  · exact le_rfl

/-- The loops of `compile` end, with the result of the compiler. -/
theorem run_compiling (p : Pass) {fuel n : ℕ} (hn : p.left ≤ n) (hfuel : 4 * n < fuel) :
    Machine.run Compiling.step fuel ⟨.declarations, p⟩ = some (p.declarations n) := by
  have hmeasure : Compiling.measure ⟨.declarations, p⟩ < fuel := by
    show 4 * p.left + 0 < fuel
    omega
  rw [Machine.run_of_measure (fun s _ => Compiling.advances s) trivial hmeasure]
  exact congrArg some (Pass.declarations_fuel le_rfl hn)

/-- The code behind `tokenize` ends with the result of the compiler. -/
theorem runCompile_eq (source : Bytes) {fuel : ℕ} (hfuel : 4 * source.length + 4 < fuel) :
    runCompile fuel source = some (.ok (compile source)) := by
  have htokenize : Scanner.runTokenize fuel source = some (.ok (tokenize source)) :=
    Scanner.runTokenize_eq source (by omega)
  have hlength : ((tokenize source).map Token.toLexeme).length ≤ source.length + 1 := by
    obtain ⟨tokens, hle, line, column, heq⟩ := tokenizeFrom_shape source.length 1 1 source le_rfl
    rw [tokenize, heq, List.length_map, List.length_append, List.length_singleton]
    omega
  have hblank := blankSource_tokenize source
  rw [runCompile, htokenize, Option.bind_eq_bind, Option.bind_some, compile, compileTokens_eq]
  dsimp only
  generalize (tokenize source).map Token.toLexeme = tokens at hlength hblank ⊢
  by_cases hshort : tokens.length ≤ 1
  · rw [if_pos (hblank.mpr hshort), if_pos hshort]
  · have hheader := contractHeader_left_le { rest := tokens }
    have hrun := @run_compiling (Pass.contractHeader { rest := tokens }) fuel tokens.length hheader
      (by omega)
    rw [if_neg (fun h => hshort (hblank.mp h)), if_neg hshort, hrun]
    rfl

/-- **The compiler is total**: on every source, four rounds a character and five more are enough for each
pass, nothing escapes, and the result is a success with its code or a failure with its errors. -/
theorem compile_total (source : Bytes) (more : ℕ) :
    Scanner.runTokenize (4 * source.length + 5 + more) source = some (.ok (tokenize source)) ∧
      runCompile (4 * source.length + 5 + more) source = some (.ok (compile source)) ∧
      Settled (compile source) :=
  ⟨Scanner.runTokenize_eq source (by omega), runCompile_eq source (by omega),
    settled_compileTokens _⟩

end Mermai.Merlite
