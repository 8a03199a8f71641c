import Mermai.Merlite.Require
import Mermai.Merlite.Total
import Mathlib.Data.UInt

/-!
# Merlite.Snippets — what any source compiles to, and what it runs

The compiler emits code in two places only, an assignment and a `require`, and reads everything else over.  So
whatever the source is, its code is a list of snippets and a `STOP` (`Pass.Emits`): stores of a byte, stores with
a `CALLER` in front, and guards.  A snippet that is no guard moves the machine to its end (`Snippet.reaches`);
the first guard, on a stack that the stores in front of it left empty, ends the run with false and leaves their
writes behind.  So the code of every source that compiles runs as its snippets say (`compiled_snippets`).
-/

namespace Mermai.Merlite

open Vm (Opcode Context GasSchedule Word)

/-! ## Snippets -/

/-- What the compiler emits at once. -/
inductive Snippet
  | store (slot : UInt32) (val : UInt64)
  | storeCaller (slot : UInt32)
  | guard
  deriving DecidableEq

namespace Snippet

/-- The code of a snippet at a position. -/
def code (position : ℕ) : Snippet → Bytes
  | store slot val => Pass.storeCode slot val
  | storeCaller slot => Opcode.caller.byte :: Pass.storeCode slot 1
  | guard => [Opcode.push1.byte, 0x01, Opcode.jmpi.byte, UInt8.ofNat (position + 3 + 2), Opcode.revert.byte]

/-- What a snippet adds to the estimate of the deployment gas. -/
def estimate : Snippet → UInt64
  | guard => 20
  | _ => 20000

/-- The key and the value that a snippet writes. -/
def write : Snippet → List (Bytes × Bytes)
  | store slot val => [(byteWord (val &&& 0xFF).toUInt8, byteWord slot.toUInt8)]
  | storeCaller slot => [(byteWord 1, byteWord slot.toUInt8)]
  | guard => []

/-- The words that a snippet leaves on the stack. -/
def leaves (caller : Word) : Snippet → List Word
  | storeCaller _ => [caller]
  | _ => []

/-- The snippet is an assignment without a `CALLER`. -/
def plain : Snippet → Bool
  | store .. => true
  | _ => false

end Snippet

/-- Code with the snippets of a list behind it. -/
def emitted (bytes : Bytes) (ss : List Snippet) : Bytes :=
  ss.foldl (fun bytes s => bytes ++ s.code bytes.length) bytes

/-- The code of a list of snippets. -/
def snippetsCode (ss : List Snippet) : Bytes := emitted [] ss

theorem emitted_append (bytes : Bytes) (ss ts : List Snippet) :
    emitted bytes (ss ++ ts) = emitted (emitted bytes ss) ts := List.foldl_append

/-- The code of the snippets, at their positions. -/
theorem exists_emitted (bytes : Bytes) (ss : List Snippet) : ∃ rest, emitted bytes ss = bytes ++ rest := by
  induction ss generalizing bytes with
  | nil => exact ⟨[], (List.append_nil bytes).symm⟩
  | cons s ss ih =>
    obtain ⟨rest, hrest⟩ := ih (bytes ++ s.code bytes.length)
    exact ⟨s.code bytes.length ++ rest, hrest.trans (List.append_assoc _ _ _)⟩

/-! ## What the compiler emits -/

namespace Pass

/-- A part of the pass emits the snippets of a list. -/
def Emits (p q : Pass) : Prop := ∃ ss : List Snippet,
  q.bytecode = emitted p.bytecode ss ∧ q.estGas = p.estGas + (ss.map Snippet.estimate).sum

theorem Emits.of_eq {p q : Pass} (hcode : q.bytecode = p.bytecode) (hgas : q.estGas = p.estGas) :
    p.Emits q := by
  refine ⟨[], hcode, ?_⟩
  rw [hgas]
  exact (UInt64.add_zero _).symm

theorem Emits.refl (p : Pass) : p.Emits p := .of_eq rfl rfl

theorem Emits.trans {p q r : Pass} (h : p.Emits q) (h' : q.Emits r) : p.Emits r := by
  obtain ⟨ss, hcode, hgas⟩ := h
  obtain ⟨ts, hcode', hgas'⟩ := h'
  refine ⟨ss ++ ts, ?_, ?_⟩
  · rw [hcode', hcode, emitted_append]
  · rw [hgas', hgas, List.map_append, List.sum_append, UInt64.add_assoc]

/-- One snippet. -/
theorem Emits.one {p q : Pass} (s : Snippet) (hcode : q.bytecode = p.bytecode ++ s.code p.bytecode.length)
    (hgas : q.estGas = p.estGas + s.estimate) : p.Emits q := by
  refine ⟨[s], hcode, ?_⟩
  rw [hgas, List.map_singleton, List.sum_singleton]

theorem emits_consume (p : Pass) : p.Emits p.consume := .of_eq rfl rfl

theorem emits_eat (p : Pass) (type : TokenType) : p.Emits (p.eat type) := by
  unfold eat
  split_ifs
  · exact emits_consume p
  · exact .refl p

theorem emits_skipParens (p : Pass) : p.Emits p.skipParens := by
  have hskip : ∀ q : Pass, q.Emits (q.skipTo .rparen) := fun q => .of_eq rfl rfl
  exact ((emits_eat p .lparen).trans (hskip _)).trans (emits_eat _ .rparen)

/-- Nothing is emitted in front of the functions. -/
theorem emits_contractHeader (p : Pass) : p.Emits p.contractHeader := by
  unfold contractHeader
  split_ifs
  · exact ((emits_consume p).trans (emits_eat _ .identifier)).trans (emits_eat _ .lbrace)
  · exact .refl p

theorem emits_stateDeclaration (p : Pass) : p.Emits p.stateDeclaration := by
  have htype : p.Emits (if p.consume.peek.type = .mapping then p.consume.consume.skipParens
      else p.consume.consume) := by
    have hconsume := (emits_consume p).trans (emits_consume _)
    split_ifs
    · exact hconsume.trans (emits_skipParens _)
    · exact hconsume
  have hname : ∀ q : Pass, q.Emits q.variableName := by
    intro q
    unfold variableName
    dsimp only
    split_ifs
    · have hvariable : q.Emits { q.consume with
          storageMap := Function.update q.storageMap q.peek.text (some q.nextSlot)
          nextSlot := q.nextSlot + 1 } := .of_eq rfl rfl
      exact hvariable.trans (emits_eat _ .semicolon)
    · exact emits_eat q .semicolon
  rw [stateDeclaration_split]
  exact htype.trans (hname _)

theorem emits_functionHeader (p : Pass) : p.Emits p.functionHeader := by
  have hname : p.Emits p.functionName := by
    unfold functionName
    dsimp only
    split_ifs
    · exact (emits_eat p .pub).trans (.of_eq rfl rfl)
    · exact (emits_eat p .pub).trans (.of_eq rfl rfl)
  have hparens : p.functionName.Emits (if p.functionName.peek.type = .lparen then p.functionName.skipParens
      else p.functionName) := by
    split_ifs
    · exact emits_skipParens _
    · exact .refl _
  have hreturn : ∀ q : Pass, q.Emits q.returnType := by
    intro q
    unfold returnType
    split_ifs
    · exact (emits_consume q).trans (emits_consume _)
    · exact .refl q
  rw [functionHeader_split]
  exact (hname.trans hparens).trans (hreturn _)

/-- A `require` emits a guard. -/
theorem emits_requireStatement (p : Pass) : p.Emits p.requireStatement := by
  have hguard : ∀ q : Pass, q.Emits ((q.emit [Opcode.push1.byte, 0x01, Opcode.jmpi.byte,
      UInt8.ofNat (q.bytecode.length + 3 + 2), Opcode.revert.byte]).addGas 20) :=
    fun q => .one .guard rfl rfl
  exact (((emits_consume p).trans (emits_skipParens _)).trans (emits_eat _ .semicolon)).trans (hguard _)

/-- An assignment emits a store, with a `CALLER` in front for the value `caller`. -/
theorem emits_assignment {p q : Pass} (h : p.assignment = some q) : p.Emits q := by
  obtain ⟨⟨r, val⟩, hr, hq⟩ := Option.bind_eq_some_iff.mp h
  have hstart := (emits_consume p).trans (emits_consume _)
  have hstore : ∀ t : Pass, t.Emits ((t.emit (storeCode (t.slotOf p.peek.text) val)).addGas 20000) :=
    fun t => .one (.store _ val) rfl rfl
  have hquiet : p.consume.consume.Emits r → p.Emits q := by
    intro hvalue
    rw [← Option.some.inj hq]
    exact ((hstart.trans hvalue).trans (emits_eat r .semicolon)).trans (hstore _)
  unfold assignedValue at hr
  split_ifs at hr
  · obtain ⟨_, -, heq⟩ := Option.map_eq_some_iff.mp hr
    rw [← (Prod.mk.inj heq).1] at hquiet
    exact hquiet (emits_consume _)
  · obtain ⟨rfl, rfl⟩ := Prod.mk.inj (Option.some.inj hr)
    rw [← Option.some.inj hq]
    -- the `CALLER` and the store are one snippet
    have heat : ∀ t : Pass, (t.eat .semicolon).bytecode = t.bytecode ∧ (t.eat .semicolon).estGas = t.estGas := by
      intro t
      unfold eat
      split_ifs
      · exact ⟨rfl, rfl⟩
      · exact ⟨rfl, rfl⟩
    obtain ⟨hcode, hgas⟩ := heat (p.consume.consume.consume.emit [Opcode.caller.byte])
    refine .one (.storeCaller (((p.consume.consume.consume.emit [Opcode.caller.byte]).eat
      .semicolon).slotOf p.peek.text)) ?_ ?_
    · show (Pass.eat _ _).bytecode ++ _ = _
      rw [hcode]
      exact List.append_assoc _ [_] _
    · show (Pass.eat _ _).estGas + 20000 = _
      rw [hgas]
      rfl
  · rw [← (Prod.mk.inj (Option.some.inj hr)).1] at hquiet
    exact hquiet (emits_consume _)

/-- **The loop over a body**. -/
theorem emits_body {fuel depth : ℕ} {p q : Pass} (h : body fuel depth p = some q) : p.Emits q := by
  induction fuel generalizing depth p with
  | zero =>
    cases h
    exact .refl _
  | succ fuel ih =>
    rw [body] at h
    split_ifs at h
    · cases h
      exact .refl _
    · dsimp only at h
      split_ifs at h
      · exact (emits_requireStatement p).trans (ih h)
      · obtain ⟨r, hr, h⟩ := Option.bind_eq_some_iff.mp h
        exact (emits_assignment hr).trans (ih h)
      · exact (emits_consume p).trans (ih h)
      · exact ih h

/-- **The outer loop**. -/
theorem emits_declarations {fuel : ℕ} {p q : Pass} (h : declarations fuel p = .ok q) : p.Emits q := by
  induction fuel generalizing p with
  | zero =>
    cases h
    exact .refl _
  | succ fuel ih =>
    rw [declarations] at h
    split_ifs at h
    · cases h
      exact .refl _
    · exact (emits_stateDeclaration p).trans (ih h)
    · split at h
      · cases h
      · rename_i r hr
        have hbody : p.functionHeader.Emits r := by
          unfold functionBody at hr
          split_ifs at hr
          · exact (emits_consume _).trans (emits_body hr)
          · rw [← Option.some.inj hr]
            exact .refl _
        exact ((emits_functionHeader p).trans hbody).trans (ih h)
    · exact (emits_consume p).trans (ih h)

end Pass

/-- The code of any source that compiles. -/
theorem compile_snippets {s : Bytes} (h : (compile s).success = true) : ∃ ss : List Snippet,
    (compile s).bytecode = snippetsCode ss ++ [Opcode.stop.byte] ∧
      (compile s).estimatedDeploymentGas = 21000 + (ss.map Snippet.estimate).sum := by
  rw [compile, compileTokens_eq] at h ⊢
  split_ifs at h ⊢
  cases hp : Pass.declarations ((tokenize s).map Token.toLexeme).length
    (Pass.contractHeader { rest := (tokenize s).map Token.toLexeme }) with
  | error functions =>
    rw [hp] at h
    exact absurd h Bool.false_ne_true
  | ok p =>
    obtain ⟨ss, hcode, hgas⟩ := (Pass.emits_contractHeader _).trans (Pass.emits_declarations hp)
    exact ⟨ss, congrArg (· ++ [Opcode.stop.byte]) hcode, hgas⟩

/-! ## What the machine does with a snippet -/

section Machine

variable (G : GasSchedule)

/-- The gas of a snippet that is no guard. -/
def Snippet.cost : Snippet → ℕ
  | guard => G.gasPush.toNat
  | _ => storeGas G

/-- The gas of a list of snippets. -/
def snippetsCost (ss : List Snippet) : ℕ := (ss.map (Snippet.cost G)).sum

/-- The context behind a snippet that is no guard. -/
def Snippet.after (c : Context) : Snippet → Context
  | store slot val => afterStore G c slot val
  | storeCaller slot => afterStore G { c with
      programCounter := c.programCounter + 1
      stack := Word.ofFront c.callerAddress :: c.stack } slot 1
  | guard => c

/-- The context behind a list of snippets without a guard. -/
def afterSnippets (c : Context) (ss : List Snippet) : Context := ss.foldl (Snippet.after G) c

variable {G} (clock : ℕ → UInt64) {code rest : Bytes} {c : Context}

/-- **One snippet** that is no guard. -/
theorem Snippet.reaches {s : Snippet} (hquiet : s ≠ guard) {n position : ℕ}
    (hcode : code.drop c.programCounter = s.code position ++ rest) (hrun : c.halted = false)
    (hgas : HasGas c (s.cost G + (n + 1))) :
    Machine.Reaches (Vm.step G clock code) c (s.after G c) ∧ HasGas (s.after G c) (n + 1) := by
  cases s with
  | guard => exact absurd rfl hquiet
  | store slot val => exact reaches_store clock hcode hrun hgas
  | storeCaller slot =>
    set c₁ : Context := { c with
      programCounter := c.programCounter + 1
      stack := Word.ofFront c.callerAddress :: c.stack } with hc₁
    have hop : code[c.programCounter]? = some Opcode.caller.byte := by
      rw [← Nat.add_zero c.programCounter, ← List.getElem?_drop, hcode]
      rfl
    have hcaller : Vm.step G clock code c = .next c₁ := by
      have hroom : HasGas c (0 + 1) := HasGas.mono hgas (by omega)
      rw [Vm.step_opcode hop hrun hroom.checkGas]
      rfl
    have hcode₁ : code.drop c₁.programCounter = Pass.storeCode slot 1 ++ rest := by
      show code.drop (c.programCounter + 1) = _
      rw [← List.drop_drop, hcode]
      rfl
    obtain ⟨hreach, hleft⟩ := reaches_store clock (c := c₁) hcode₁ hrun hgas
    exact ⟨.head hcaller hreach, hleft⟩

theorem Snippet.after_frame (s : Snippet) (hquiet : s ≠ guard) (position : ℕ) :
    (s.after G c).halted = c.halted ∧ (s.after G c).callerAddress = c.callerAddress ∧
      (s.after G c).programCounter = c.programCounter + (s.code position).length ∧
      (s.after G c).storage = s.write.foldl Run.write c.storage ∧
      (s.after G c).stack = s.leaves (Word.ofFront c.callerAddress) ++ c.stack := by
  cases s with
  | guard => exact absurd rfl hquiet
  | store slot val => exact ⟨rfl, rfl, rfl, rfl, rfl⟩
  | storeCaller slot => exact ⟨rfl, rfl, rfl, rfl, rfl⟩

/-- **Snippets without a guard**, one after the other. -/
theorem reaches_snippets {bytes : Bytes} {ss : List Snippet} (hquiet : Snippet.guard ∉ ss) {n : ℕ}
    (hcode : code = emitted bytes ss ++ rest) (hcounter : c.programCounter = bytes.length)
    (hrun : c.halted = false) (hgas : HasGas c (snippetsCost G ss + (n + 1))) :
    Machine.Reaches (Vm.step G clock code) c (afterSnippets G c ss) ∧
      HasGas (afterSnippets G c ss) (n + 1) ∧
      (afterSnippets G c ss).halted = false ∧
      (afterSnippets G c ss).programCounter = (emitted bytes ss).length ∧
      (afterSnippets G c ss).storage = (ss.flatMap Snippet.write).foldl Run.write c.storage ∧
      (afterSnippets G c ss).stack =
        (ss.reverse.flatMap (Snippet.leaves (Word.ofFront c.callerAddress))) ++ c.stack := by
  induction ss generalizing c bytes with
  | nil =>
    refine ⟨.refl, ?_, hrun, hcounter, rfl, rfl⟩
    rw [snippetsCost, List.map_nil, List.sum_nil, Nat.zero_add] at hgas
    exact hgas
  | cons s ss ih =>
    have hs : s ≠ .guard := fun heq => hquiet (heq ▸ List.mem_cons_self)
    have hss : Snippet.guard ∉ ss := fun hmem => hquiet (List.mem_cons_of_mem s hmem)
    obtain ⟨more, hmore⟩ := exists_emitted (bytes ++ s.code bytes.length) ss
    have hall : code.drop c.programCounter = s.code bytes.length ++ (more ++ rest) := by
      rw [hcounter, hcode, emitted, List.foldl_cons]
      show List.drop _ (emitted _ ss ++ rest) = _
      rw [hmore, List.append_assoc, List.append_assoc, List.drop_left]
    rw [snippetsCost, List.map_cons, List.sum_cons, Nat.add_assoc] at hgas
    obtain ⟨hreach, hgas'⟩ := Snippet.reaches clock hs hall hrun (hgas : HasGas c (_ + (_ + 1)))
    obtain ⟨hhalted, hcaller, hplace, hstorage, hstack⟩ := s.after_frame (G := G) (c := c) hs bytes.length
    obtain ⟨hreach', hleft, hrun', hplace', hstorage', hstack'⟩ := ih (c := s.after G c) hss hcode
      (by rw [hplace, hcounter, List.length_append]) (hhalted.trans hrun) hgas'
    refine ⟨hreach.trans hreach', hleft, hrun', hplace', ?_, ?_⟩
    · show (afterSnippets G (s.after G c) ss).storage = _
      rw [hstorage', hstorage, List.flatMap_cons, List.foldl_append]
    · show (afterSnippets G (s.after G c) ss).stack = _
      rw [hstack', hstack, hcaller, List.reverse_cons, List.flatMap_append, List.append_assoc]
      simp

/-- **A guard** on an empty stack ends the run, and storage stays as it was. -/
theorem guard_fails {position : ℕ} (hcode : code.drop c.programCounter = Snippet.guard.code position ++ rest)
    (hstack : c.stack = []) (hrun : c.halted = false) (hgas : HasGas c (G.gasPush.toNat + 1)) :
    ∃ t t', Machine.Reaches (Vm.step G clock code) c t ∧
      Vm.step G clock code t = .stop (.returned false, t') ∧ t'.storage = c.storage := by
  have hbyte : ∀ i, code[c.programCounter + i]? = (Snippet.guard.code position ++ rest)[i]? := by
    intro i
    rw [← hcode, List.getElem?_drop]
  set pushed := ({ c with programCounter := c.programCounter + 2 }.push
    (Word.ofByte 0x01)).charge G.gasPush with hpushed
  have hgas' : HasGas pushed (0 + 1) := hgas.charge
  have hpush : Vm.step G clock code c = .next pushed :=
    step_push1 clock (hbyte 0) (hbyte 1) hrun hgas
  have hone : pushed.stack = [Word.ofByte 0x01] := by
    rw [hpushed]
    show _ :: c.stack = _
    rw [hstack]
  have hop : code[pushed.programCounter]? = some Opcode.jmpi.byte := hbyte 2
  refine ⟨pushed, { pushed with programCounter := pushed.programCounter + 1 }, .single hpush, ?_, rfl⟩
  rw [Vm.step_opcode hop hrun hgas'.checkGas]
  simp only [Vm.execOpcode, hone]
  rfl

end Machine

/-! ## Any source -/

/-- The code of the snippets runs as they say. -/
structure RunsAs (ss : List Snippet) (code : Bytes) : Prop where
  /-- Without a guard all is written, and the callers are left on the stack. -/
  quiet : Snippet.guard ∉ ss → ∀ (G : GasSchedule) (clock : ℕ → UInt64) (ctx : Context),
    HasGas ctx (snippetsCost G ss + 1) → ∃ fuel final,
      Vm.execute G clock code ctx fuel = some (.returned true, final) ∧
      final.storage = (ss.flatMap Snippet.write).foldl Run.write ctx.storage ∧
      final.stack = ss.reverse.flatMap (Snippet.leaves (Word.ofFront ctx.callerAddress)) ++ ctx.stack
  /-- The first guard fails on a stack that is empty, behind the writes in front of it. -/
  guarded : ∀ front behind, ss = front ++ .guard :: behind → (∀ s ∈ front, s.plain = true) →
    ∀ (G : GasSchedule) (clock : ℕ → UInt64) (ctx : Context), ctx.stack = [] →
      HasGas ctx (snippetsCost G ss + 1) → ∃ fuel final,
        Vm.execute G clock code ctx fuel = some (.returned false, final) ∧
        final.storage = (front.flatMap Snippet.write).foldl Run.write ctx.storage

theorem runsAs_snippetsCode (ss : List Snippet) : RunsAs ss (snippetsCode ss ++ [Opcode.stop.byte]) := by
  constructor
  · intro hquiet G clock ctx hgas
    have hcode : snippetsCode ss ++ [Opcode.stop.byte] = emitted [] ss ++ [Opcode.stop.byte] := rfl
    have hcounter : ctx.start.programCounter = ([] : Bytes).length := rfl
    obtain ⟨hreach, hleft, hrun, hplace, hstorage, hstack⟩ :=
      reaches_snippets clock hquiet hcode hcounter rfl (HasGas.mono hgas le_rfl)
    have hdrop : (snippetsCode ss ++ [Opcode.stop.byte]).drop
        (afterSnippets G ctx.start ss).programCounter = [Opcode.stop.byte] := by
      rw [hplace]
      exact List.drop_left
    obtain ⟨fuel, hfuel⟩ := execute_stop clock hdrop hreach hrun hleft
    exact ⟨fuel, _, hfuel, hstorage, hstack⟩
  · rintro front behind rfl hplain G clock ctx hfresh hgas
    have hquiet : Snippet.guard ∉ front := fun hmem => Bool.false_ne_true (hplain _ hmem)
    obtain ⟨more, hmore⟩ := exists_emitted (emitted [] front ++
      Snippet.guard.code (emitted [] front).length) behind
    have hcode : snippetsCode (front ++ .guard :: behind) ++ [Opcode.stop.byte] = emitted [] front ++
        (Snippet.guard.code (emitted [] front).length ++ (more ++ [Opcode.stop.byte])) := by
      rw [snippetsCode, emitted_append, emitted, List.foldl_cons]
      show emitted _ behind ++ _ = _
      rw [hmore, List.append_assoc, List.append_assoc]
    have hneed : snippetsCost G front + (G.gasPush.toNat + 1) ≤
        snippetsCost G (front ++ .guard :: behind) + 1 := by
      simp only [snippetsCost, List.map_append, List.sum_append, List.map_cons, List.sum_cons, Snippet.cost]
      omega
    obtain ⟨hreach, hleft, hrun, hplace, hstorage, hstack⟩ := reaches_snippets clock (c := ctx.start)
      hquiet hcode rfl rfl (HasGas.mono hgas hneed)
    have hempty : (afterSnippets G ctx.start front).stack = [] := by
      have hnone : front.reverse.flatMap (Snippet.leaves (Word.ofFront ctx.callerAddress)) = [] := by
        refine List.flatMap_eq_nil_iff.mpr fun s hs => ?_
        have hs' := hplain s (List.mem_reverse.mp hs)
        cases s with
        | store => rfl
        | storeCaller | guard => cases hs'
      rw [hstack]
      exact (congrArg₂ (· ++ ·) hnone hfresh)
    have hdrop : (snippetsCode (front ++ .guard :: behind) ++ [Opcode.stop.byte]).drop
        (afterSnippets G ctx.start front).programCounter =
          Snippet.guard.code (emitted [] front).length ++ (more ++ [Opcode.stop.byte]) := by
      rw [hplace, hcode]
      exact List.drop_left
    obtain ⟨t, final, hreach', hstop, hkept⟩ := guard_fails clock hdrop hempty hrun hleft
    obtain ⟨fuel, hfuel⟩ := Machine.Reaches.run_eq (hreach.trans hreach') hstop
    exact ⟨fuel, final, hfuel, hkept.trans hstorage⟩

/-- **Any source that compiles** is a list of snippets: its code is theirs and a `STOP`, its gas estimate is
21000 and theirs, and with enough gas it runs as they say. -/
theorem compiled_snippets (s : Bytes) (h : (compile s).success = true) : ∃ ss : List Snippet,
    (compile s).bytecode = snippetsCode ss ++ [Opcode.stop.byte] ∧
      (compile s).estimatedDeploymentGas = 21000 + (ss.map Snippet.estimate).sum ∧
      RunsAs ss (compile s).bytecode := by
  obtain ⟨ss, hcode, hgas⟩ := compile_snippets h
  refine ⟨ss, hcode, hgas, ?_⟩
  rw [hcode]
  exact runsAs_snippetsCode ss

/-- A nested block, which is not compiled, an expression, of which the first number is, and a guard. -/
def mixedSource : Bytes :=
  ascii "state uint256 x\nfn f() \x7b\nx = caller;\n\x7b x = 9 \x7d\nx = 7 + 2;\nrequire(x, 1)\n\x7d"

theorem compiled_snippets_mixed :
    (compile mixedSource).bytecode =
        snippetsCode [.storeCaller 0, .store 0 7, .guard] ++ [Opcode.stop.byte] ∧
      ∃ ss, (compile mixedSource).bytecode = snippetsCode ss ++ [Opcode.stop.byte] ∧
        RunsAs ss (compile mixedSource).bytecode := by
  obtain ⟨ss, hcode, -, hruns⟩ := compiled_snippets mixedSource (by decide +kernel)
  exact ⟨by decide +kernel, ss, hcode, hruns⟩

end Mermai.Merlite
