import Mermai.Lib.Machine
import Mermai.Vm.Word

/-!
# Vm.Machine — `mermai_vm::execute`

One round of the loop of `execute` is `step`; `execute` runs it with fuel.  The header of the class
is not in the repository: the opcode bytes are those of the explorer's table `OPCODES`, and the gas
constants are a parameter (`GasSchedule`).  `CALL` and `BLOCKHASH` are in the table and have no case
in the `switch`, so they are unknown opcodes here.

A round ends in one of three ways that stop the machine: `execute` returns true or false, or the
processor traps, because `DIV` and `MOD` look at 32 bytes to see whether the divisor is zero and
divide by the last eight.
-/

namespace Mermai.Vm

/-! ## Opcodes -/

/-- The cases of the `switch`. -/
inductive Opcode
  | push0 | push1 | push32 | pop | dup1 | swap1
  | add | sub | mul | div | mod
  | lt | gt | eq
  | mload | mstore | sload | sstore
  | jmp | jmpi | ret | revert
  | caller | callvalue | timestamp | gaslimit | stop
deriving DecidableEq

/-- `static_cast<mermai_opcode>`; `none` is the `default` case. -/
def Opcode.ofByte : UInt8 → Option Opcode
  | 0x00 => some .push0
  | 0x01 => some .push1
  | 0x1F => some .push32
  | 0x50 => some .pop
  | 0x80 => some .dup1
  | 0x90 => some .swap1
  | 0xA0 => some .add
  | 0xA1 => some .sub
  | 0xA2 => some .mul
  | 0xA3 => some .div
  | 0xA4 => some .mod
  | 0xB0 => some .lt
  | 0xB1 => some .gt
  | 0xB2 => some .eq
  | 0xC0 => some .mload
  | 0xC1 => some .mstore
  | 0xD0 => some .sload
  | 0xD1 => some .sstore
  | 0xE0 => some .jmp
  | 0xE1 => some .jmpi
  | 0xE3 => some .ret
  | 0xE4 => some .revert
  | 0xF0 => some .caller
  | 0xF1 => some .callvalue
  | 0xF2 => some .timestamp
  | 0xF8 => some .gaslimit
  | 0xFF => some .stop
  | _ => none

/-- `static_cast<uint8_t>`. -/
def Opcode.byte : Opcode → UInt8
  | .push0 => 0x00
  | .push1 => 0x01
  | .push32 => 0x1F
  | .pop => 0x50
  | .dup1 => 0x80
  | .swap1 => 0x90
  | .add => 0xA0
  | .sub => 0xA1
  | .mul => 0xA2
  | .div => 0xA3
  | .mod => 0xA4
  | .lt => 0xB0
  | .gt => 0xB1
  | .eq => 0xB2
  | .mload => 0xC0
  | .mstore => 0xC1
  | .sload => 0xD0
  | .sstore => 0xD1
  | .jmp => 0xE0
  | .jmpi => 0xE1
  | .ret => 0xE3
  | .revert => 0xE4
  | .caller => 0xF0
  | .callvalue => 0xF1
  | .timestamp => 0xF2
  | .gaslimit => 0xF8
  | .stop => 0xFF

theorem Opcode.ofByte_byte (op : Opcode) : Opcode.ofByte op.byte = some op := by
  cases op <;> rfl

/-- The gas constants; `GAS_ADD` is also the price of `SUB`, `DIV` and `MOD`. -/
structure GasSchedule where
  gasPush : UInt64
  gasAdd : UInt64
  gasMul : UInt64
  gasSload : UInt64
  gasSstore : UInt64
  pos : ∀ cost ∈ [gasPush, gasAdd, gasMul, gasSload, gasSstore], 0 < cost

/-! ## The context -/

/-- `mermai_execution_context`; the top of the stack comes first, and `ticks` counts the readings of
the clock. -/
structure Context where
  stack : List Word := []
  memory : Bytes := []
  storage : Bytes → Option Bytes := fun _ => none
  callerAddress : Bytes := []
  callValue : UInt64 := 0
  gasLimit : UInt64 := 0
  gasUsed : UInt64 := 0
  programCounter : ℕ := 0
  halted : Bool := false
  revertReason : String := ""
  ticks : ℕ := 0

/-- How `execute` ends. -/
inductive Outcome
  | returned (ok : Bool)
  | trapped
deriving DecidableEq

abbrev Step := Machine.Step Context (Outcome × Context)

namespace Context

/-- `push_word`. -/
def push (c : Context) (w : Word) : Context := { c with stack := w :: c.stack }

/-- `context.gas_used += cost`. -/
def charge (c : Context) (cost : UInt64) : Context := { c with gasUsed := c.gasUsed + cost }

/-- `check_gas`. -/
def checkGas (c : Context) (cost : UInt64) : Bool := c.gasUsed + cost ≤ c.gasLimit

/-- `return false`. -/
def fail (c : Context) : Step := .stop (.returned false, c)

/-- `return false` with a reason, also that of a caught exception. -/
def failWith (c : Context) (reason : String) : Step :=
  .stop (.returned false, { c with revertReason := reason })

/-- `load_word_from_memory`; `none` is the exception. -/
def loadWordFromMemory (c : Context) (offset : ℕ) : Option Word :=
  if h : offset + 32 ≤ c.memory.length then
    some ⟨(c.memory.drop offset).take 32, by rw [List.length_take, List.length_drop]; omega⟩
  else none

/-- `store_word_to_memory`; `none` is the exception. -/
def storeWordToMemory (c : Context) (offset : ℕ) (w : Word) : Option Context :=
  if offset + 32 ≤ c.memory.length then
    some { c with memory := c.memory.take offset ++ w.bytes ++ c.memory.drop (offset + 32) }
  else none

/-- `load_from_storage`. -/
def loadFromStorage (c : Context) (key : Bytes) : Bytes := (c.storage key).getD []

/-- `store_to_storage`, which charges `GAS_SSTORE`. -/
def storeToStorage (G : GasSchedule) (c : Context) (key value : Bytes) : Context :=
  { c with storage := Function.update c.storage key (some value) }.charge G.gasSstore

/-- `jump`. -/
def jump (code : Bytes) (c : Context) (target : ℕ) : Step :=
  if target < code.length then .next { c with programCounter := target }
  else c.failWith "Invalid jump target"

end Context

/-! ## One round -/

/-- The cases that take two words and push one: `b` is on top of `a`. -/
def binary (cost : UInt64) (f : Word → Word → Word) (c : Context) : Step :=
  match c.stack with
  | b :: a :: stack => .next ({ c with stack := f a b :: stack }.charge cost)
  | _ => c.fail

/-- The cases `DIV` and `MOD`. -/
def divide (G : GasSchedule) (f : UInt64 → UInt64 → UInt64) (c : Context) : Step :=
  match c.stack with
  | divisor :: dividend :: stack =>
    if divisor = Word.zero then .next ({ c with stack := Word.zero :: stack }.charge G.gasAdd)
    else if divisor.toUInt64 = 0 then .stop (.trapped, { c with stack })
    else
      let value := Word.ofUInt64 (f dividend.toUInt64 divisor.toUInt64)
      .next ({ c with stack := value :: stack }.charge G.gasAdd)
  | _ => c.fail

/-- The `switch`, with the program counter behind the opcode. -/
def execOpcode (G : GasSchedule) (clock : ℕ → UInt64) (code : Bytes) (c : Context) :
    Opcode → Step
  | .push0 => .next ((c.push Word.zero).charge G.gasPush)
  | .push1 =>
    match code[c.programCounter]? with
    | none => c.fail
    | some b =>
      let c' := { c with programCounter := c.programCounter + 1 }
      .next ((c'.push (Word.ofByte b)).charge G.gasPush)
  | .push32 =>
    if h : c.programCounter + 32 ≤ code.length then
      let word : Word := ⟨(code.drop c.programCounter).take 32, by
        rw [List.length_take, List.length_drop]
        omega⟩
      let c' := { c with programCounter := c.programCounter + 32 }
      .next ((c'.push word).charge G.gasPush)
    else c.fail
  | .pop =>
    match c.stack with
    | [] => c.fail
    | _ :: stack => .next { c with stack }
  | .add => binary G.gasAdd Word.add c
  | .mul => binary G.gasMul Word.mul c
  | .sub => binary G.gasAdd Word.sub c
  | .div => divide G (· / ·) c
  | .mod => divide G (· % ·) c
  | .dup1 =>
    match c.stack with
    | [] => c.failWith "Stack underflow"
    | w :: _ => .next (c.push w)
  | .swap1 =>
    match c.stack with
    | b :: a :: stack => .next { c with stack := a :: b :: stack }
    | _ => c.fail
  -- the comparisons charge nothing
  | .lt => binary 0 (fun left right => Word.ofBool (left.bytes < right.bytes)) c
  | .gt => binary 0 (fun left right =>
      Word.ofBool (¬ left = right ∧ ¬ left.bytes < right.bytes)) c
  | .eq => binary 0 (fun left right => Word.ofBool (left = right)) c
  | .mload =>
    match c.stack with
    | [] => c.fail
    | offset :: stack =>
      let c' := { c with stack }
      match c'.loadWordFromMemory offset.low.toNat with
      | none => c'.failWith "Memory access out of bounds"
      | some w => .next (c'.push w)
  | .mstore =>
    match c.stack with
    | offset :: value :: stack =>
      let c' := { c with stack }
      match c'.storeWordToMemory offset.low.toNat value with
      | none => c'.failWith "Memory access out of bounds"
      | some c'' => .next c''
    | _ => c.fail
  | .sload =>
    match c.stack with
    | [] => c.fail
    | key :: stack =>
      let c' := { c with stack }
      .next ((c'.push (Word.ofBack (c'.loadFromStorage key.bytes))).charge G.gasSload)
  | .sstore =>
    match c.stack with
    | key :: value :: stack => .next ({ c with stack }.storeToStorage G key.bytes value.bytes)
    | _ => c.fail
  | .jmp =>
    match c.stack with
    | [] => c.fail
    | target :: stack => { c with stack }.jump code target.low.toNat
  | .jmpi =>
    match c.stack with
    | target :: condition :: stack =>
      let c' := { c with stack }
      if condition ≠ Word.zero then c'.jump code target.low.toNat else .next c'
    | _ => c.fail
  | .caller => .next (c.push (Word.ofFront c.callerAddress))
  | .callvalue => .next (c.push (Word.ofUInt64 c.callValue))
  | .timestamp => .next ({ c with ticks := c.ticks + 1 }.push (Word.ofUInt64 (clock c.ticks)))
  | .gaslimit =>
    let rem := if c.gasUsed < c.gasLimit then c.gasLimit - c.gasUsed else 0
    .next (c.push (Word.ofUInt64 rem))
  | .ret => .next { c with halted := true }
  | .revert => { c with halted := true }.failWith "Contract reverted"
  | .stop => .next { c with halted := true }

/-- One round of the loop of `execute`. -/
def step (G : GasSchedule) (clock : ℕ → UInt64) (code : Bytes) (c : Context) : Step :=
  match code[c.programCounter]? with
  | none => .stop (.returned true, c)
  | some b =>
    if c.halted then .stop (.returned true, c)
    else if ¬ c.checkGas 1 then c.failWith "Out of gas"
    else
      let c' := { c with programCounter := c.programCounter + 1 }
      match Opcode.ofByte b with
      | none => c'.failWith "Unknown opcode"
      | some op => execOpcode G clock code c' op

/-- The round of an opcode, when there is gas for one more. -/
theorem step_opcode {G : GasSchedule} {clock : ℕ → UInt64} {code : Bytes} {c : Context} {op : Opcode}
    (hop : code[c.programCounter]? = some op.byte) (hrun : c.halted = false)
    (hgas : c.checkGas 1 = true) :
    step G clock code c =
      execOpcode G clock code { c with programCounter := c.programCounter + 1 } op := by
  unfold step
  rw [hop]
  simp only [hrun, hgas, Bool.false_eq_true, if_false, not_true, Opcode.ofByte_byte]

/-- The context that the constructor of `mermai_vm` and the head of `execute` make. -/
def Context.start (ctx : Context) : Context :=
  { ctx with memory := ctx.memory.takeD 65536 0, programCounter := 0, halted := false }

/-- `execute` for a number of rounds; `none` when it is still running. -/
def execute (G : GasSchedule) (clock : ℕ → UInt64) (code : Bytes) (ctx : Context) (fuel : ℕ) :
    Option (Outcome × Context) :=
  Machine.run (step G clock code) fuel ctx.start

end Mermai.Vm
