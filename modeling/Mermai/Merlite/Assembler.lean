import Mermai.Core.MultisigCodec
import Mermai.Merlite.Correct
import Mermai.Vm.Effect

/-!
# Merlite.Assembler — `compile_from_asm`, and what its code runs

`mermai_contract_compiler::compile_from_asm` turns the words of a text into opcodes one by one.  It has no
mnemonic for a jump, so its code runs straight on: every round is that of the next word, and the run ends
within as many rounds as there are words, and two (`run_straight`).  With enough gas the answer of such a run is
known without running it: it returns true only if every word finds its operands, and false only if one does not,
counted by `fits` (`assembled_runs`).  Which codes the assembler can make is said by `assembled_iff`.
-/

namespace Mermai.Merlite

open Vm (Opcode Context GasSchedule Word)

/-! ## The assembler -/

/-- What `operator>>` reads, until it fails. -/
def words (s : Bytes) : List Bytes := (s.splitOnP isSpace).filter fun w => w ≠ []

/-- The mnemonics without an operand, in the order of the source. -/
def mnemonics : List (Bytes × Opcode) :=
  [(ascii "PUSH0", .push0), (ascii "STOP", .stop), (ascii "POP", .pop), (ascii "ADD", .add),
    (ascii "SUB", .sub), (ascii "MUL", .mul), (ascii "DIV", .div), (ascii "MOD", .mod),
    (ascii "SLOAD", .sload), (ascii "SSTORE", .sstore)]

/-- `std::stoul(text, nullptr, 0)` for a type with the largest value `max`: the base is that of the digits. -/
def stoulAuto (max : ℕ) (s : Bytes) : Except StdException ℕ :=
  let text := s.dropWhile isSpace
  let unsigned := match text with
    | 43 :: rest | 45 :: rest => rest
    | _ => text
  let d := stoullDigits unsigned
  let value := digitsValue d.1 d.2
  if d.2 = [] then .error .invalidArgument
  else if max < value then .error .outOfRange
  else .ok (if text.head? = some 45 then (max + 1 - value) % (max + 1) else value)

/-- The exceptions of the assembler. -/
inductive AsmError
  | unknownToken (token : Bytes)
  | number (e : StdException)
  deriving DecidableEq

/-- `what()`. -/
def AsmError.what : AsmError → Bytes
  | unknownToken token => ascii "Unknown assembly token: " ++ token
  | number _ => ascii "stoul"

/-- The code of a token; an `unsigned long` has 64 bits, or 32 on Windows. -/
def assembleToken (windows : Bool) (token : Bytes) : Except AsmError Bytes :=
  match mnemonics.lookup token with
  | some op => .ok [op.byte]
  | none =>
    if ascii "PUSH1:" <+: token then
      match stoulAuto (if windows then 2 ^ 32 - 1 else 2 ^ 64 - 1) (token.drop 6) with
      | .ok n => .ok [Opcode.push1.byte, UInt8.ofNat n]
      | .error e => .error (.number e)
    else .error (.unknownToken token)

/-- The loop over the tokens. -/
def assembleTokens (windows : Bool) : List Bytes → Except AsmError Bytes
  | [] => .ok []
  | token :: rest => do
    let code ← assembleToken windows token
    let more ← assembleTokens windows rest
    .ok (code ++ more)

/-- `compile_from_asm`. -/
def compileFromAsm (windows : Bool) (asm : Bytes) : Except AsmError Bytes :=
  assembleTokens windows (words asm)

example : compileFromAsm false (ascii "PUSH1:0x10 PUSH1:010\n PUSH1:-1 SSTORE") =
    .ok [0x01, 16, 0x01, 8, 0x01, 255, 0xD1] := by decide +kernel

/-! ## Instructions -/

/-- What a token stands for. -/
inductive Instr
  | plain (op : Opcode)
  | push (b : UInt8)
  deriving DecidableEq

namespace Instr

def op : Instr → Opcode
  | plain op => op
  | push _ => .push1

def code : Instr → Bytes
  | plain op => [op.byte]
  | push b => [Opcode.push1.byte, b]

/-- The assembler has a token for it. -/
def Assembles : Instr → Prop
  | plain op => op ∈ mnemonics.map Prod.snd
  | push _ => True

/-- The token of an instruction, with its operand in decimal. -/
def token : Instr → Bytes
  | plain op => ((mnemonics.find? fun m => m.2 = op).map Prod.fst).getD []
  | push b => ascii "PUSH1:" ++ decimal b.toNat

end Instr

/-- A decimal text has no leading zero, so the base of its digits is ten. -/
theorem stoullDigits_decimal (n : ℕ) : stoullDigits (decimal n) = (10, decimal n) := by
  have htake : (decimal n).takeWhile isDigit = decimal n :=
    List.takeWhile_eq_self_iff.mpr fun b hb => isDecimalDigit_of_mem hb
  match hn : decimal n with
  | [] => rfl
  | [c] =>
    rw [hn] at htake
    rw [stoullDigits, htake]
    simp
  | c :: y :: rest =>
    rw [hn] at htake
    have hc : c ≠ chr '0' := by
      rintro rfl
      have hzero : n = 0 := eq_zero_of_decimal_head (by rw [hn]; rfl)
      rw [hzero] at hn
      cases hn
    simp only [stoullDigits, hc, false_and, if_false]
    rw [htake]

/-- An operand in decimal is read back. -/
theorem stoulAuto_decimal {max n : ℕ} (h : n ≤ max) : stoulAuto max (decimal n) = .ok n := by
  have hvalue : digitsValue 10 (decimal n) = n := foldl_digits (by decide) (by decide) n
  have hdigits := stoullDigits_decimal n
  have hne := decimal_ne_nil n
  obtain ⟨d, rest, hcons⟩ := List.exists_cons_of_ne_nil hne
  obtain ⟨hspace, hplus, hminus⟩ := isSpace_of_isDecimalDigit
    (isDecimalDigit_of_mem (show d ∈ decimal n by rw [hcons]; exact List.mem_cons_self))
  rw [hcons] at hdigits hvalue hne ⊢
  have hdrop : (d :: rest).dropWhile isSpace = d :: rest := by
    rw [List.dropWhile_cons, show isSpace d = false from hspace]
    rfl
  have hsign : (match d :: rest with
      | 43 :: rest | 45 :: rest => rest
      | _ => d :: rest) = d :: rest := by
    split
    · rename_i heq
      cases heq
      exact absurd rfl hplus
    · rename_i heq
      cases heq
      exact absurd rfl hminus
    · rfl
  have hhead : ¬ (d :: rest).head? = some 45 := by simpa using hminus
  simp only [stoulAuto, hdrop, hsign, hdigits, hvalue, if_neg hne, if_neg (not_lt.mpr h), if_neg hhead]

/-- No mnemonic has a colon. -/
theorem lookup_push (rest : Bytes) : mnemonics.lookup (ascii "PUSH1:" ++ rest) = none := by
  have hcolon : ∀ m ∈ mnemonics, 58 ∉ m.1 := by decide +kernel
  refine List.lookup_eq_none_iff.mpr fun m hm => ?_
  rw [bne_iff_ne]
  intro heq
  refine hcolon m hm ?_
  rw [← heq]
  exact List.mem_append_left rest (by decide +kernel)

theorem Instr.assembleToken_token (windows : Bool) {i : Instr} (h : i.Assembles) :
    assembleToken windows i.token = .ok i.code := by
  cases i with
  | plain op =>
    have hops : ∀ op ∈ mnemonics.map Prod.snd, assembleToken windows (Instr.plain op).token = .ok [op.byte] := by
      cases windows
      · decide +kernel
      · decide +kernel
    exact hops op h
  | push b =>
    have hsmall : b.toNat ≤ if windows then 2 ^ 32 - 1 else 2 ^ 64 - 1 := by
      have := b.toNat_lt
      split <;> omega
    have hoperand : (ascii "PUSH1:" ++ decimal b.toNat).drop 6 = decimal b.toNat :=
      List.drop_left' (by decide +kernel)
    rw [Instr.token, assembleToken, lookup_push, if_pos (List.prefix_append _ _), hoperand,
      stoulAuto_decimal hsmall]
    dsimp only
    rw [UInt8.ofNat_toNat]
    rfl

theorem Instr.token_word {i : Instr} (h : i.Assembles) : i.token ≠ [] ∧ ∀ b ∈ i.token, isSpace b = false := by
  cases i with
  | plain op =>
    have hops : ∀ op ∈ mnemonics.map Prod.snd,
        (Instr.plain op).token ≠ [] ∧ (Instr.plain op).token.any isSpace = false := by decide +kernel
    obtain ⟨hne, hany⟩ := hops op h
    exact ⟨hne, fun b hb => Bool.eq_false_iff.mpr (List.any_eq_false.mp hany b hb)⟩
  | push b =>
    have hname : (ascii "PUSH1:").any isSpace = false := by decide +kernel
    refine ⟨List.append_ne_nil_of_left_ne_nil (by decide) _, fun c hc => ?_⟩
    rcases List.mem_append.mp hc with hc | hc
    · exact Bool.eq_false_iff.mpr (List.any_eq_false.mp hname c hc)
    · exact (isSpace_of_isDecimalDigit (isDecimalDigit_of_mem hc)).1

/-- A token that assembles is one of an instruction. -/
theorem exists_instr {windows : Bool} {token code : Bytes} (h : assembleToken windows token = .ok code) :
    ∃ i : Instr, i.Assembles ∧ code = i.code := by
  unfold assembleToken at h
  cases hop : mnemonics.lookup token with
  | some op =>
    rw [hop] at h
    cases h
    have hmem : op ∈ mnemonics.map Prod.snd := by
      obtain ⟨front, behind, heq, -⟩ := List.lookup_eq_some_iff.mp hop
      rw [heq]
      simp
    exact ⟨.plain op, hmem, rfl⟩
  | none =>
    rw [hop] at h
    dsimp only at h
    split at h
    · split at h
      · cases h
        exact ⟨.push _, trivial, rfl⟩
      · cases h
    · cases h

theorem exists_instrs {windows : Bool} {tokens : List Bytes} {code : Bytes}
    (h : assembleTokens windows tokens = .ok code) :
    ∃ is : List Instr, (∀ i ∈ is, i.Assembles) ∧ code = is.flatMap Instr.code ∧ is.length = tokens.length := by
  induction tokens generalizing code with
  | nil =>
    cases h
    exact ⟨[], fun i hi => absurd hi List.not_mem_nil, rfl, rfl⟩
  | cons token rest ih =>
    rw [assembleTokens] at h
    cases htoken : assembleToken windows token with
    | error e =>
      rw [htoken] at h
      cases h
    | ok first =>
      cases hrest : assembleTokens windows rest with
      | error e =>
        rw [htoken, hrest] at h
        cases h
      | ok more =>
        rw [htoken, hrest] at h
        cases h
        obtain ⟨i, hi, rfl⟩ := exists_instr htoken
        obtain ⟨is, his, rfl, hlength⟩ := ih hrest
        exact ⟨i :: is, List.forall_mem_cons.mpr ⟨hi, his⟩, rfl, by simp [hlength]⟩

theorem words_append (s t : Bytes) {c : UInt8} (hc : isSpace c = true) :
    words (s ++ c :: t) = words s ++ words t := by
  rw [words, List.splitOnP_append_cons s t hc, List.filter_append]
  rfl

theorem words_word {s : Bytes} (hne : s ≠ []) (h : ∀ b ∈ s, isSpace b = false) : words s = [s] := by
  rw [words, List.splitOnP_eq_singleton h]
  simp [hne]

/-- The text of instructions, a line each. -/
def asmText (is : List Instr) : Bytes := is.flatMap fun i => i.token ++ [10]

theorem compileFromAsm_asmText (windows : Bool) {is : List Instr} (h : ∀ i ∈ is, i.Assembles) :
    compileFromAsm windows (asmText is) = .ok (is.flatMap Instr.code) := by
  induction is with
  | nil => rfl
  | cons i is ih =>
    obtain ⟨hi, his⟩ := List.forall_mem_cons.mp h
    obtain ⟨hne, hword⟩ := i.token_word hi
    have htext : asmText (i :: is) = i.token ++ 10 :: asmText is := by
      rw [asmText, List.flatMap_cons, List.append_assoc]
      rfl
    rw [compileFromAsm, htext, words_append _ _ rfl, words_word hne hword, List.singleton_append,
      assembleTokens, i.assembleToken_token windows hi, show assembleTokens windows (words (asmText is)) =
        .ok (is.flatMap Instr.code) from ih his]
    rfl

/-- **What the assembler can make**: exactly the codes of instructions that it has a token for. -/
theorem assembled_iff (windows : Bool) (code : Bytes) :
    (∃ asm, compileFromAsm windows asm = .ok code) ↔
      ∃ is : List Instr, (∀ i ∈ is, i.Assembles) ∧ code = is.flatMap Instr.code := by
  constructor
  · rintro ⟨asm, h⟩
    obtain ⟨is, his, hcode, -⟩ := exists_instrs h
    exact ⟨is, his, hcode⟩
  · rintro ⟨is, his, rfl⟩
    exact ⟨asmText is, compileFromAsm_asmText windows his⟩

/-! ## Straight runs -/

/-- The words that an opcode of the assembler takes from the stack, and those it leaves. -/
def operands : Opcode → ℕ × ℕ
  | .push0 | .push1 => (0, 1)
  | .pop => (1, 0)
  | .add | .sub | .mul | .div | .mod => (2, 1)
  | .sload => (1, 1)
  | .sstore => (2, 0)
  | _ => (0, 0)

/-- On a stack of this height every instruction up to the first `STOP` finds its operands. -/
def fits : ℕ → List Instr → Bool
  | _, [] => true
  | height, i :: is =>
    (operands i.op).1 ≤ height ∧
      (i.op = .stop ∨ fits (height - (operands i.op).1 + (operands i.op).2) is = true)

/-- The gas of instructions. -/
def instrsCost (G : GasSchedule) (is : List Instr) : ℕ := (is.map fun i => (i.op.price G).toNat).sum

section Run

variable {G : GasSchedule} {clock : ℕ → UInt64} {code rest : Bytes} {c : Context}

/-- What the round of an instruction does, when there is gas for one more. -/
inductive Does (G : GasSchedule) (c : Context) (i : Instr) : Vm.Step → Prop
  | moves {c' : Context} : (operands i.op).1 ≤ c.stack.length →
      c'.programCounter = c.programCounter + i.code.length →
      c'.stack.length = c.stack.length - (operands i.op).1 + (operands i.op).2 →
      c'.gasUsed = c.gasUsed + i.op.price G → c'.gasLimit = c.gasLimit →
      (c'.halted = true ↔ i.op = .stop) → Does G c i (.next c')
  | fails {c' : Context} : c.stack.length < (operands i.op).1 → Does G c i (.stop (.returned false, c'))
  | traps {c' : Context} : Does G c i (.stop (.trapped, c'))

/-- Nothing is taken from an empty stack, and no two words from one. -/
theorem lt_two_of_short (h : ∀ b a stack, c.stack ≠ b :: a :: stack) : c.stack.length < 2 := by
  match hs : c.stack with
  | [] => exact Nat.zero_lt_two
  | [_] => exact Nat.one_lt_two
  | b :: a :: stack => exact absurd hs (h b a stack)

theorem does_binary {i : Instr} (f : Word → Word → Word) (hlength : i.code.length = 1)
    (hops : operands i.op = (2, 1)) (hstop : i.op ≠ .stop) (hrun : c.halted = false) :
    Does G c i (Vm.binary (i.op.price G) f { c with programCounter := c.programCounter + 1 }) := by
  unfold Vm.binary
  dsimp only
  split
  · rename_i b a stack hs
    refine .moves ?_ ?_ ?_ rfl rfl ?_
    · rw [hops, hs]
      exact Nat.le_add_left 2 _
    · rw [hlength]
      rfl
    · rw [hops, hs]
      rfl
    · show c.halted = true ↔ _
      simp [hrun, hstop]
  · rename_i hs
    refine .fails ?_
    rw [hops]
    exact lt_two_of_short hs

theorem does_divide {i : Instr} (f : UInt64 → UInt64 → UInt64) (hlength : i.code.length = 1)
    (hops : operands i.op = (2, 1)) (hprice : i.op.price G = G.gasAdd) (hstop : i.op ≠ .stop)
    (hrun : c.halted = false) :
    Does G c i (Vm.divide G f { c with programCounter := c.programCounter + 1 }) := by
  have hmoves : ∀ {b a : Word} {stack : List Word} (w : Word), c.stack = b :: a :: stack →
      Does G c i (.next (Context.charge { c with
        programCounter := c.programCounter + 1
        stack := w :: stack } G.gasAdd)) := by
    intro b a stack w hs
    refine .moves ?_ ?_ ?_ ?_ rfl ?_
    · rw [hops, hs]
      exact Nat.le_add_left 2 _
    · rw [hlength]
      rfl
    · rw [hops, hs]
      rfl
    · rw [hprice]
      rfl
    · show c.halted = true ↔ _
      simp [hrun, hstop]
  unfold Vm.divide
  dsimp only
  split
  · rename_i b a stack hs
    split_ifs
    · exact hmoves _ hs
    · exact .traps
    · exact hmoves _ hs
  · rename_i hs
    refine .fails ?_
    rw [hops]
    exact lt_two_of_short hs

/-- **One round** of the code of an instruction. -/
theorem step_does {i : Instr} (h : i.Assembles) (hcode : code.drop c.programCounter = i.code ++ rest)
    (hrun : c.halted = false) (hgas : c.checkGas 1 = true) : Does G c i (Vm.step G clock code c) := by
  have hbyte : ∀ k, code[c.programCounter + k]? = (i.code ++ rest)[k]? := by
    intro k
    rw [← hcode, List.getElem?_drop]
  have hop : code[c.programCounter]? = some i.op.byte := by
    rw [← Nat.add_zero c.programCounter, hbyte 0]
    cases i <;> rfl
  have hgo : ∀ op : Opcode, op ≠ .stop → (c.halted = true ↔ op = .stop) :=
    fun op hne => iff_of_false (by simp [hrun]) hne
  rw [Vm.step_opcode hop hrun hgas]
  cases i with
  | push b =>
    simp only [Instr.op, Vm.execOpcode, hbyte 1]
    exact .moves (Nat.zero_le _) rfl rfl rfl rfl (hgo .push1 (by decide))
  | plain op =>
    simp only [Instr.Assembles, mnemonics, List.map_cons, List.map_nil, List.mem_cons, List.not_mem_nil,
      or_false] at h
    rcases h with rfl | rfl | rfl | rfl | rfl | rfl | rfl | rfl | rfl | rfl
    · exact .moves (Nat.zero_le _) rfl rfl rfl rfl (hgo .push0 (by decide))
    · exact .moves (Nat.zero_le _) rfl rfl (UInt64.add_zero _).symm rfl (iff_of_true rfl rfl)
    · simp only [Instr.op, Vm.execOpcode]
      split
      · rename_i hs
        exact .fails (by rw [show c.stack = [] from hs]; exact Nat.zero_lt_one)
      · rename_i w stack hs
        have hstack : c.stack = w :: stack := hs
        refine .moves ?_ rfl ?_ (UInt64.add_zero _).symm rfl (hgo .pop (by decide))
        · rw [hstack]
          exact Nat.le_add_left 1 _
        · rw [hstack]
          rfl
    · exact does_binary _ rfl rfl (by decide) hrun
    · exact does_binary _ rfl rfl (by decide) hrun
    · exact does_binary _ rfl rfl (by decide) hrun
    · exact does_divide _ rfl rfl rfl (by decide) hrun
    · exact does_divide _ rfl rfl rfl (by decide) hrun
    · simp only [Instr.op, Vm.execOpcode]
      split
      · rename_i hs
        exact .fails (by rw [show c.stack = [] from hs]; exact Nat.zero_lt_one)
      · rename_i w stack hs
        have hstack : c.stack = w :: stack := hs
        refine .moves ?_ rfl ?_ rfl rfl (hgo .sload (by decide))
        · rw [hstack]
          exact Nat.le_add_left 1 _
        · rw [hstack]
          rfl
    · simp only [Instr.op, Vm.execOpcode]
      split
      · rename_i key value stack hs
        have hstack : c.stack = key :: value :: stack := hs
        refine .moves ?_ rfl ?_ rfl rfl (hgo .sstore (by decide))
        · rw [hstack]
          exact Nat.le_add_left 2 _
        · rw [hstack]
          rfl
      · rename_i hs
        exact .fails (lt_two_of_short hs)

/-- **The run** of the code of instructions ends within a round each and two; with gas for all of them, it
returns true only if every one finds its operands, and false only if one does not. -/
theorem run_straight {is : List Instr} (h : ∀ i ∈ is, i.Assembles)
    (hcode : code.drop c.programCounter = is.flatMap Instr.code) (hrun : c.halted = false) :
    ∃ r, Machine.run (Vm.step G clock code) (is.length + 2) c = some r ∧
      (HasGas c (instrsCost G is + 1) → (r.1 = .returned true → fits c.stack.length is = true) ∧
        (r.1 = .returned false → fits c.stack.length is = false)) := by
  induction is generalizing c with
  | nil =>
    have hend : code[c.programCounter]? = none := by
      rw [List.getElem?_eq_none_iff, ← List.drop_eq_nil_iff]
      exact hcode
    have hstop : Vm.step G clock code c = .stop (.returned true, c) := by
      unfold Vm.step
      rw [hend]
    exact ⟨_, Machine.run_stop hstop 1, fun _ => ⟨fun _ => rfl, fun hfalse => (by cases hfalse)⟩⟩
  | cons i is ih =>
    obtain ⟨hi, his⟩ := List.forall_mem_cons.mp h
    rw [List.flatMap_cons] at hcode
    by_cases hgas : c.checkGas 1 = true
    · have hdoes : Does G c i (Vm.step G clock code c) := step_does hi hcode hrun hgas
      cases hstep : Vm.step G clock code c with
      | stop r =>
        rw [hstep] at hdoes
        refine ⟨r, Machine.run_stop hstep _, fun _ => ?_⟩
        cases hdoes with
        | fails hshort =>
          refine ⟨fun htrue => (by cases htrue), fun _ => ?_⟩
          simp [fits, Nat.not_le.mpr hshort]
        | traps => exact ⟨fun htrue => (by cases htrue), fun hfalse => (by cases hfalse)⟩
      | next c' =>
        rw [hstep] at hdoes
        cases hdoes with
        | moves htakes hcounter hheight hcharge hlimit hhalted =>
          by_cases hstop : i.op = .stop
          · -- the run is over behind a `STOP`
            have hend : ∃ r, Vm.step G clock code c' = .stop (.returned true, r) := by
              unfold Vm.step
              cases code[c'.programCounter]? with
              | none => exact ⟨_, rfl⟩
              | some b => exact ⟨c', by simp [hhalted.mpr hstop]⟩
            obtain ⟨r, hr⟩ := hend
            refine ⟨_, (Machine.run_next hstep _).trans (Machine.run_stop hr _), fun _ => ?_⟩
            refine ⟨fun _ => ?_, fun hfalse => (by cases hfalse)⟩
            simp only [fits, hstop, true_or, and_true, decide_eq_true_eq]
            exact Nat.zero_le _
          · have hcode' : code.drop c'.programCounter = is.flatMap Instr.code := by
              rw [hcounter, ← List.drop_drop, hcode, List.drop_left]
            obtain ⟨r, hr, hanswer⟩ := ih his hcode' (Bool.eq_false_iff.mpr fun ht => hstop (hhalted.mp ht))
            refine ⟨r, (Machine.run_next hstep _).trans hr, fun hroom => ?_⟩
            have hfits : fits c.stack.length (i :: is) = fits c'.stack.length is := by
              rw [hheight]
              simp [fits, htakes, hstop]
            rw [hfits]
            refine hanswer ?_
            unfold HasGas at hroom ⊢
            have hlt := c.gasLimit.toNat_lt
            rw [instrsCost, List.map_cons, List.sum_cons] at hroom
            rw [hcharge, hlimit, UInt64.toNat_add, Nat.mod_eq_of_lt (by omega), instrsCost]
            omega
    · have hstop : ∃ r, Vm.step G clock code c = .stop (.returned false, r) := by
        have hop : code[c.programCounter]? = some i.op.byte := by
          rw [← Nat.add_zero c.programCounter, ← List.getElem?_drop, hcode]
          cases i <;> rfl
        unfold Vm.step
        rw [hop]
        dsimp only
        rw [if_neg (by simp [hrun]), if_pos hgas]
        exact ⟨_, rfl⟩
      obtain ⟨r, hr⟩ := hstop
      refine ⟨_, Machine.run_stop hr _, fun hroom => ?_⟩
      exact absurd (HasGas.checkGas hroom) hgas

end Run

/-- **Any assembled text** runs straight on: its code is that of as many instructions as it has words, every
run of it ends within as many rounds and two, whatever the gas, and with gas for all the answer is the one that
counting the operands gives, unless a division traps. -/
theorem assembled_runs (windows : Bool) {asm code : Bytes} (h : compileFromAsm windows asm = .ok code) :
    ∃ is : List Instr, is.length = (words asm).length ∧ code = is.flatMap Instr.code ∧
      ∀ (G : GasSchedule) (clock : ℕ → UInt64) (ctx : Context),
        ∃ r, Vm.execute G clock code ctx (is.length + 2) = some r ∧
          (HasGas ctx (instrsCost G is + 1) → r.1 ≠ .trapped →
            (r.1 = .returned true ↔ fits ctx.stack.length is = true)) := by
  obtain ⟨is, his, hcode, hlength⟩ := exists_instrs h
  refine ⟨is, hlength, hcode, fun G clock ctx => ?_⟩
  obtain ⟨r, hr, hanswer⟩ := run_straight his (show code.drop ctx.start.programCounter = _ from hcode) rfl
  refine ⟨r, hr, fun hgas htrap => ?_⟩
  obtain ⟨htrue, hfalse⟩ := hanswer hgas
  refine ⟨htrue, fun hfits => ?_⟩
  cases hr' : r.1 with
  | trapped => exact absurd hr' htrap
  | returned ok =>
    cases ok with
    | true => rfl
    | false =>
      have hno : fits ctx.stack.length is = false := hfalse hr'
      rw [hfits] at hno
      cases hno

/-- `PUSH1:7 PUSH0 SSTORE ADD` stores, and finds nothing to add. -/
theorem assembled_runs_underflow :
    ∃ is : List Instr, is.length = 4 ∧ ∃ r, Vm.execute Vm.explorerGas (fun _ => 0) [0x01, 7, 0x00, 0xD1, 0xA0]
      { gasLimit := 1000000 } (is.length + 2) = some r ∧ r.1 = .returned false := by
  have hasm : compileFromAsm false (ascii "PUSH1:7 PUSH0\n SSTORE ADD") =
      .ok [0x01, 7, 0x00, 0xD1, 0xA0] := by decide +kernel
  obtain ⟨is, hlength, -, hruns⟩ := assembled_runs false hasm
  obtain ⟨r, hr, -⟩ := hruns Vm.explorerGas (fun _ => 0) { gasLimit := 1000000 }
  have hfour : is.length = 4 := hlength.trans (by decide +kernel)
  refine ⟨is, hfour, r, hr, ?_⟩
  have hrun : (Vm.execute Vm.explorerGas (fun _ => 0) [0x01, 7, 0x00, 0xD1, 0xA0]
    { gasLimit := 1000000 } 6).map Prod.fst = some (.returned false) := by decide +kernel
  rw [hfour] at hr
  rw [hr] at hrun
  exact Option.some.inj hrun

end Mermai.Merlite
