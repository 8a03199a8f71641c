import Mermai.Vm.Effect

/-!
# Vm.Bounds — `execute` statement by statement

`Vm.Machine` gives the meaning of a round at once; here a round is the list of its statements as the
source has them, each with what can go wrong in it: a read outside the bytecode, `pop_word` on an empty
stack, an access outside the memory, a division by zero.  `round_agrees` runs the two against each
other.  What the tests of the opcodes rule out is then an invariant of every run (`execute_in_bounds`).
-/

namespace Mermai.Vm

/-! ## Statements -/

/-- The exceptions that are thrown, by the function that throws. -/
inductive VmException
  | popWord | peekWord | loadWordFromMemory | storeWordToMemory | jump
deriving DecidableEq

/-- `e.what()`. -/
def VmException.what : VmException → String
  | .popWord | .peekWord => "Stack underflow"
  | .loadWordFromMemory | .storeWordToMemory => "Memory access out of bounds"
  | .jump => "Invalid jump target"

/-- How a statement is left other than to the next one. -/
inductive Leave
  /-- `return ok`, in the handler of an exception or outside. -/
  | returned (ok : Bool) (caught : Option VmException)
  | thrown (e : VmException)
  /-- An access outside the bytecode or outside the stack, which nothing checks. -/
  | undefined
  /-- A machine division by zero. -/
  | trapped
deriving DecidableEq

abbrev Stmt := EStateM Leave Context

namespace Stmt

/-- `return false`. -/
def fail {α : Type} : Stmt α := throw (.returned false none)

/-- `bytecode[index]`. -/
def byteAt (code : Bytes) (index : ℕ) : Stmt UInt8 :=
  match code[index]? with
  | some b => pure b
  | none => throw .undefined

/-- `bytecode[context.program_counter++]`. -/
def nextByte (code : Bytes) : Stmt UInt8 := do
  let c ← get
  let b ← byteAt code c.programCounter
  set { c with programCounter := c.programCounter + 1 }
  return b

/-- `if (context.stack.size() < count) return false`. -/
def needWords (count : ℕ) : Stmt Unit := do
  if (← get).stack.length < count then fail

/-- `push_word`. -/
def pushWord (w : Word) : Stmt Unit := modify (·.push w)

/-- `context.gas_used += cost`. -/
def charge (cost : UInt64) : Stmt Unit := modify (·.charge cost)

/-- `pop_word`. -/
def popWord : Stmt Word := do
  let c ← get
  match c.stack with
  | [] => throw (.thrown .popWord)
  | w :: stack =>
    set { c with stack }
    return w

/-- `peek_word`. -/
def peekWord (depth : ℕ) : Stmt Word := do
  match (← get).stack[depth]? with
  | none => throw (.thrown .peekWord)
  | some w => return w

/-- `context.stack.pop_back()`. -/
def popBack : Stmt Unit := do
  let c ← get
  match c.stack with
  | [] => throw .undefined
  | _ :: stack => set { c with stack }

/-- `std::swap` of the two words on top. -/
def swapTop : Stmt Unit := do
  let c ← get
  match c.stack with
  | b :: a :: stack => set { c with stack := a :: b :: stack }
  | _ => throw .undefined

/-- `load_word_from_memory`; the bound is computed in 32 bits. -/
def loadWordFromMemory (offset : UInt32) : Stmt Word := do
  let c ← get
  if (offset + 32).toNat > c.memory.length then throw (.thrown .loadWordFromMemory)
  match c.loadWordFromMemory offset.toNat with
  | none => throw .undefined
  | some w => return w

/-- `store_word_to_memory`. -/
def storeWordToMemory (offset : UInt32) (w : Word) : Stmt Unit := do
  let c ← get
  if (offset + 32).toNat > c.memory.length then throw (.thrown .storeWordToMemory)
  match c.storeWordToMemory offset.toNat w with
  | none => throw .undefined
  | some c' => set c'

/-- `jump`. -/
def jump (code : Bytes) (target : UInt32) : Stmt Unit := do
  if target.toNat ≥ code.length then throw (.thrown .jump)
  modify fun c => { c with programCounter := target.toNat }

/-- `left / right` and `left % right`. -/
def machineDivide (f : UInt64 → UInt64 → UInt64) (left right : UInt64) : Stmt UInt64 :=
  if right = 0 then throw .trapped else pure (f left right)

/-- `std::copy` of 32 bytes of the bytecode. -/
def copyWord (code : Bytes) (start : ℕ) : Stmt Word := do
  let bytes ← (List.range 32).mapM fun i => byteAt code (start + i)
  return Word.ofFront bytes

/-- Two words are popped and one is pushed. -/
def binary (cost : UInt64) (f : Word → Word → Word) : Stmt Unit := do
  needWords 2
  let b ← popWord
  let a ← popWord
  pushWord (f a b)
  charge cost

/-- The word that `DIV` and `MOD` push; the opcode is read again to tell them apart. -/
def quotient (code : Bytes) (dividend divisor : Word) : Stmt Word := do
  let zero := divisor.bytes.all (· == 0)
  if zero then return Word.zero
  let current ← byteAt code ((← get).programCounter - 1)
  let value ← machineDivide (if Opcode.ofByte current = some .div then (· / ·) else (· % ·))
    dividend.toUInt64 divisor.toUInt64
  return Word.ofUInt64 value

/-- The cases `DIV` and `MOD`. -/
def divide (G : GasSchedule) (code : Bytes) : Stmt Unit := do
  needWords 2
  let divisor ← popWord
  let dividend ← popWord
  pushWord (← quotient code dividend divisor)
  charge G.gasAdd

/-- The word that `LT`, `GT` and `EQ` push; the opcode is read again to tell them apart. -/
def comparison (code : Bytes) (left right : Word) : Stmt Word := do
  let equal : Bool := left = right
  let less : Bool := left.bytes < right.bytes
  let current ← byteAt code ((← get).programCounter - 1)
  return Word.ofBool (if Opcode.ofByte current = some .eq then equal
    else if Opcode.ofByte current = some .lt then less else !equal && !less)

/-- The cases `LT`, `GT` and `EQ`. -/
def compare (code : Bytes) : Stmt Unit := do
  needWords 2
  let right ← popWord
  let left ← popWord
  pushWord (← comparison code left right)

/-- The `switch`. -/
def switch (G : GasSchedule) (clock : ℕ → UInt64) (code : Bytes) : Option Opcode → Stmt Unit
  | some .push0 => do
    pushWord Word.zero
    charge G.gasPush
  | some .push1 => do
    if (← get).programCounter ≥ code.length then fail
    pushWord (Word.ofByte (← nextByte code))
    charge G.gasPush
  | some .push32 => do
    let c ← get
    if c.programCounter + 32 > code.length then fail
    let word ← copyWord code c.programCounter
    set { c with programCounter := c.programCounter + 32 }
    pushWord word
    charge G.gasPush
  | some .pop => do
    needWords 1
    popBack
  | some .add => binary G.gasAdd Word.add
  | some .mul => binary G.gasMul Word.mul
  | some .sub => binary G.gasAdd Word.sub
  | some .div => divide G code
  | some .mod => divide G code
  | some .dup1 => do
    pushWord (← peekWord 0)
  | some .swap1 => do
    needWords 2
    swapTop
  | some .lt => compare code
  | some .gt => compare code
  | some .eq => compare code
  | some .mload => do
    needWords 1
    let offset ← popWord
    pushWord (← loadWordFromMemory offset.low.toUInt32)
  | some .mstore => do
    needWords 2
    let offset ← popWord
    let value ← popWord
    storeWordToMemory offset.low.toUInt32 value
  | some .sload => do
    needWords 1
    let key ← popWord
    let value := (← get).loadFromStorage key.bytes
    pushWord (Word.ofBack value)
    charge G.gasSload
  | some .sstore => do
    needWords 2
    let key ← popWord
    let value ← popWord
    modify fun c => c.storeToStorage G key.bytes value.bytes
  | some .jmp => do
    needWords 1
    let target ← popWord
    jump code target.low.toUInt32
  | some .jmpi => do
    needWords 2
    let target ← popWord
    let condition ← popWord
    let nonzero := condition.bytes.any (· != 0)
    if nonzero then jump code target.low.toUInt32
  | some .caller => do
    pushWord (Word.ofFront (← get).callerAddress)
  | some .callvalue => do
    pushWord (Word.ofUInt64 (← get).callValue)
  | some .timestamp => do
    let c ← get
    set { c with ticks := c.ticks + 1 }
    pushWord (Word.ofUInt64 (clock c.ticks))
  | some .gaslimit => do
    let c ← get
    pushWord (Word.ofUInt64 (if c.gasLimit > c.gasUsed then c.gasLimit - c.gasUsed else 0))
  | some .ret => modify fun c => { c with halted := true }
  | some .revert => do
    modify fun c => { c with halted := true }
    modify fun c => { c with revertReason := "Contract reverted" }
    fail
  | some .stop => modify fun c => { c with halted := true }
  | none => do
    modify fun c => { c with revertReason := "Unknown opcode" }
    fail

/-- The handler of the exceptions around the `switch`. -/
def catching (body : Stmt Unit) : Stmt Unit :=
  tryCatch body fun
    | .thrown e => do
      modify fun c => { c with revertReason := e.what }
      throw (.returned false (some e))
    | leave => throw leave

/-- The body of the loop. -/
def round (G : GasSchedule) (clock : ℕ → UInt64) (code : Bytes) : Stmt Unit := do
  if ¬ (← get).checkGas 1 then
    modify fun c => { c with revertReason := "Out of gas" }
    fail
  let opcode := Opcode.ofByte (← nextByte code)
  catching (switch G clock code opcode)

end Stmt

/-- What a list of statements does to a run. -/
def Stmt.outcome (body : Stmt Unit) (c : Context) : Machine.Step Context (Leave × Context) :=
  match body.run c with
  | .ok _ c' => .next c'
  | .error leave c' => .stop (leave, c')

/-- One turn of the loop of `execute`, with its condition. -/
def turn (G : GasSchedule) (clock : ℕ → UInt64) (code : Bytes) (c : Context) :
    Machine.Step Context (Leave × Context) :=
  if ¬ c.halted ∧ c.programCounter < code.length then (Stmt.round G clock code).outcome c
  else .stop (.returned true none, c)

/-! ## The two levels -/

/-- The ways in which a round is ever left, with the outcome they are to `Vm.Machine`. -/
inductive Leave.Yields : Leave → Outcome → Prop
  | returned (ok : Bool) : Yields (.returned ok none) (.returned ok)
  | peekWord : Yields (.returned false (some .peekWord)) (.returned false)
  | jump : Yields (.returned false (some .jump)) (.returned false)
  | trapped : Yields .trapped .trapped

/-- The statements do what the meaning says. -/
inductive Agrees : Machine.Step Context (Leave × Context) → Step → Prop
  | next (c : Context) : Agrees (.next c) (.next c)
  | stop {leave : Leave} {o : Outcome} (c : Context) :
      leave.Yields o → Agrees (.stop (leave, c)) (.stop (o, c))

section Switch

open Stmt

variable {G : GasSchedule} {clock : ℕ → UInt64} {code : Bytes} {c : Context}

theorem byteAt_of_eq_some {index : ℕ} {b : UInt8} (h : code[index]? = some b) :
    byteAt code index = pure b := by
  rw [byteAt, h]

/-- The loop over the bytes of the divisor. -/
theorem all_zero_iff (w : Word) : w.bytes.all (· == 0) = true ↔ w = Word.zero := by
  rw [List.all_eq_true]
  constructor
  · intro h
    have hbytes : w.bytes = List.replicate 32 0 :=
      List.eq_replicate_iff.mpr ⟨w.length_eq, fun b hb => beq_iff_eq.mp (h b hb)⟩
    obtain ⟨bytes, hlen⟩ := w
    cases hbytes
    rfl
  · rintro rfl b hb
    have hrep : b ∈ List.replicate 32 (0 : UInt8) := hb
    exact beq_iff_eq.mpr (List.eq_of_mem_replicate hrep)

/-- The loop over the bytes of the condition. -/
theorem any_nonzero_iff (w : Word) : w.bytes.any (· != 0) = true ↔ w ≠ Word.zero := by
  rw [ne_eq, ← all_zero_iff, List.all_eq_true, List.any_eq_true]
  simp

/-- A statement that goes on to the next. -/
theorem outcome_bind {α : Type} {body : Stmt α} {rest : α → Stmt Unit} {a : α} {c' : Context}
    (h : body.run c = .ok a c') :
    (catching (body >>= rest)).outcome c = (catching (rest a)).outcome c' := by
  have hbind : (body >>= rest) c = rest a c' := by
    show EStateM.bind body rest c = rest a c'
    rw [EStateM.bind, show body c = .ok a c' from h]
  have hcatch : catching (body >>= rest) c = catching (rest a) c' := by
    show EStateM.tryCatch (body >>= rest) _ c = EStateM.tryCatch (rest a) _ c'
    unfold EStateM.tryCatch
    rw [hbind]
  rw [Stmt.outcome, Stmt.outcome, EStateM.run, EStateM.run, hcatch]

/-- A statement that ends the round with no exception. -/
theorem outcome_trapped {α : Type} {body : Stmt α} {rest : α → Stmt Unit} {c' : Context}
    (h : body.run c = .error .trapped c') :
    (catching (body >>= rest)).outcome c = .stop (.trapped, c') := by
  have hbind : (body >>= rest) c = .error .trapped c' := by
    show EStateM.bind body rest c = .error .trapped c'
    rw [EStateM.bind, show body c = .error .trapped c' from h]
  have hcatch : catching (body >>= rest) c = .error .trapped c' := by
    show EStateM.tryCatch (body >>= rest) _ c = .error .trapped c'
    unfold EStateM.tryCatch
    rw [hbind]
    rfl
  rw [Stmt.outcome, EStateM.run, hcatch]

theorem quotient_run {f : UInt64 → UInt64 → UInt64} {b : UInt8} (dividend divisor : Word)
    (hb : code[c.programCounter - 1]? = some b)
    (hf : (if Opcode.ofByte b = some .div then (· / ·) else (· % ·)) = f) :
    (quotient code dividend divisor).run c =
      if divisor = Word.zero then .ok Word.zero c
      else if divisor.toUInt64 = 0 then .error .trapped c
      else .ok (Word.ofUInt64 (f dividend.toUInt64 divisor.toUInt64)) c := by
  unfold quotient
  dsimp only
  by_cases hzero : divisor = Word.zero
  · rw [if_pos ((all_zero_iff divisor).mpr hzero), if_pos hzero]
    rfl
  · rw [if_neg (mt (all_zero_iff divisor).mp hzero), if_neg hzero, EStateM.run_bind]
    show (EStateM.run (byteAt code (c.programCounter - 1) >>= _) c) = _
    rw [byteAt_of_eq_some hb, pure_bind, hf, machineDivide]
    split_ifs
    · rfl
    · rfl

/-- The test and the pops of the cases with one operand. -/
theorem agrees_pop {rest : Word → Stmt Unit} {s : Step} (hnil : c.stack = [] → s = c.fail)
    (hcons : ∀ w stack, c.stack = w :: stack →
      Agrees ((catching (rest w)).outcome { c with stack }) s) :
    Agrees ((catching (do
      needWords 1
      let w ← popWord
      rest w)).outcome c) s := by
  obtain ⟨stack, memory⟩ := c
  match stack with
  | [] =>
    rw [hnil rfl]
    exact .stop _ (.returned false)
  | w :: stack => exact hcons w stack rfl

/-- The test and the pops of the cases with two operands. -/
theorem agrees_pop_pop {rest : Word → Word → Stmt Unit} {s : Step}
    (hnil : c.stack = [] → s = c.fail) (hone : ∀ a, c.stack = [a] → s = c.fail)
    (hcons : ∀ b a stack, c.stack = b :: a :: stack →
      Agrees ((catching (rest b a)).outcome { c with stack }) s) :
    Agrees ((catching (do
      needWords 2
      let b ← popWord
      let a ← popWord
      rest b a)).outcome c) s := by
  obtain ⟨stack, memory⟩ := c
  match stack with
  | [] =>
    rw [hnil rfl]
    exact .stop _ (.returned false)
  | [a] =>
    rw [hone a rfl]
    exact .stop _ (.returned false)
  | b :: a :: stack => exact hcons b a stack rfl

theorem binary_agrees (cost : UInt64) (f : Word → Word → Word) (c : Context) :
    Agrees ((catching (Stmt.binary cost f)).outcome c) (Vm.binary cost f c) := by
  refine agrees_pop_pop (fun hs => ?_) (fun a hs => ?_) fun b a stack hs => ?_
  · rw [Vm.binary, hs]
  · rw [Vm.binary, hs]
  · rw [Vm.binary, hs]
    exact .next _

theorem divide_agrees {f : UInt64 → UInt64 → UInt64} {b : UInt8}
    (hb : code[c.programCounter - 1]? = some b)
    (hf : (if Opcode.ofByte b = some .div then (· / ·) else (· % ·)) = f) :
    Agrees ((catching (Stmt.divide G code)).outcome c) (Vm.divide G f c) := by
  refine agrees_pop_pop (fun hs => ?_) (fun a hs => ?_) fun divisor dividend stack hs => ?_
  · rw [Vm.divide, hs]
  · rw [Vm.divide, hs]
  · have hrun := quotient_run (c := { c with stack }) dividend divisor hb hf
    rw [Vm.divide, hs]
    dsimp only
    split_ifs at hrun ⊢
    · rw [outcome_bind hrun]
      exact .next _
    · rw [outcome_trapped hrun]
      exact .stop _ .trapped
    · rw [outcome_bind hrun]
      exact .next _

theorem charge_zero (c : Context) : c.charge 0 = c := by rw [Context.charge, UInt64.add_zero]

theorem comparison_run {b : UInt8} (left right : Word) (hb : code[c.programCounter - 1]? = some b) :
    (comparison code left right).run c =
      .ok (Word.ofBool (if Opcode.ofByte b = some .eq then decide (left = right)
        else if Opcode.ofByte b = some .lt then decide (left.bytes < right.bytes)
        else !decide (left = right) && !decide (left.bytes < right.bytes))) c := by
  unfold comparison
  show (EStateM.run (byteAt code (c.programCounter - 1) >>= _) c) = _
  rw [byteAt_of_eq_some hb, pure_bind]
  rfl

theorem compare_agrees {f : Word → Word → Word} {b : UInt8}
    (hb : code[c.programCounter - 1]? = some b)
    (hf : ∀ left right, Word.ofBool (if Opcode.ofByte b = some .eq then decide (left = right)
      else if Opcode.ofByte b = some .lt then decide (left.bytes < right.bytes)
      else !decide (left = right) && !decide (left.bytes < right.bytes)) = f left right) :
    Agrees ((catching (Stmt.compare code)).outcome c) (Vm.binary 0 f c) := by
  refine agrees_pop_pop (fun hs => ?_) (fun a hs => ?_) fun right left stack hs => ?_
  · rw [Vm.binary, hs]
  · rw [Vm.binary, hs]
  · have hrun := comparison_run (c := { c with stack }) left right hb
    rw [Vm.binary, hs, outcome_bind hrun, hf]
    dsimp only
    rw [charge_zero]
    exact .next _

/-! ## The other cases -/

theorem mapM_byteAt (code : Bytes) (start n : ℕ) (h : start + n ≤ code.length) :
    (List.range n).mapM (fun i => byteAt code (start + i)) = pure ((code.drop start).take n) := by
  induction n with
  | zero => simp
  | succ n ih =>
    have hlt : start + n < code.length := by omega
    have hget : code[start + n]? = some code[start + n] := List.getElem?_eq_getElem hlt
    rw [List.range_succ, List.mapM_append, ih (by omega), pure_bind, List.mapM_cons,
      byteAt_of_eq_some hget, List.take_add_one, List.getElem?_drop, hget]
    simp

/-- The copy of 32 bytes that lie inside the bytecode. -/
theorem copyWord_run {start : ℕ} (h : start + 32 ≤ code.length)
    (hlen : ((code.drop start).take 32).length = 32) :
    (copyWord code start).run c = .ok ⟨(code.drop start).take 32, hlen⟩ c := by
  have hword : Word.ofFront ((code.drop start).take 32) = ⟨(code.drop start).take 32, hlen⟩ := by
    unfold Word.ofFront
    congr 1
    rw [List.takeD_eq_take _ (by rw [hlen]), List.take_of_length_le (by rw [hlen])]
  rw [copyWord, mapM_byteAt code start 32 h, pure_bind, hword]
  rfl

/-- One byte of a word and 32 more never leave 32 bits. -/
theorem offset_add (b : UInt8) : (b.toUInt32 + 32).toNat = b.toNat + 32 := by
  have := b.toNat_lt
  rw [UInt32.toNat_add, UInt8.toNat_toUInt32]
  show (b.toNat + 32) % 2 ^ 32 = b.toNat + 32
  omega

theorem jump_agrees (code : Bytes) (c : Context) (target : UInt8) :
    Agrees ((catching (Stmt.jump code target.toUInt32)).outcome c) (c.jump code target.toNat) := by
  unfold Stmt.jump Context.jump
  rw [UInt8.toNat_toUInt32]
  by_cases hlt : target.toNat < code.length
  · rw [if_neg (not_le.mpr hlt), if_pos hlt]
    exact .next _
  · rw [if_pos (not_lt.mp hlt), if_neg hlt]
    exact .stop _ .jump

/-- The memory is long enough for every offset of one byte. -/
theorem loadWordFromMemory_run (hmem : c.memory.length = 65536) (offset : UInt8) :
    ∃ w, c.loadWordFromMemory offset.toNat = some w ∧
      (Stmt.loadWordFromMemory offset.toUInt32).run c = .ok w c := by
  have hoffset := offset.toNat_lt
  have hin : offset.toNat + 32 ≤ c.memory.length := by omega
  refine ⟨_, dif_pos hin, ?_⟩
  unfold Stmt.loadWordFromMemory
  simp only [EStateM.run_bind, EStateM.run_get, offset_add, UInt8.toNat_toUInt32]
  rw [if_neg (not_lt.mpr hin), Context.loadWordFromMemory, dif_pos hin]
  rfl

theorem storeWordToMemory_run (hmem : c.memory.length = 65536) (offset : UInt8) (w : Word) :
    ∃ c', c.storeWordToMemory offset.toNat w = some c' ∧
      (Stmt.storeWordToMemory offset.toUInt32 w).run c = .ok () c' := by
  have hoffset := offset.toNat_lt
  have hin : offset.toNat + 32 ≤ c.memory.length := by omega
  refine ⟨_, if_pos hin, ?_⟩
  unfold Stmt.storeWordToMemory
  simp only [EStateM.run_bind, EStateM.run_get, offset_add, UInt8.toNat_toUInt32]
  rw [if_neg (not_lt.mpr hin), Context.storeWordToMemory, if_pos hin]
  rfl

theorem nextByte_run {b : UInt8} (hb : code[c.programCounter]? = some b) :
    (nextByte code).run c = .ok b { c with programCounter := c.programCounter + 1 } := by
  unfold nextByte
  simp only [EStateM.run_bind, EStateM.run_get, byteAt_of_eq_some hb]
  rfl

theorem push1_agrees (c : Context) :
    Agrees ((catching (switch G clock code (some .push1))).outcome c)
      (execOpcode G clock code c .push1) := by
  have hget : (get : Stmt Context).run c = .ok c c := rfl
  rw [switch, outcome_bind hget, execOpcode]
  dsimp only
  cases hb : code[c.programCounter]? with
  | none =>
    rw [if_pos (List.getElem?_eq_none_iff.mp hb)]
    exact .stop _ (.returned false)
  | some b =>
    rw [if_neg (not_le.mpr (List.getElem?_eq_some_iff.mp hb).1), outcome_bind (nextByte_run hb)]
    exact .next _

theorem push32_agrees (c : Context) :
    Agrees ((catching (switch G clock code (some .push32))).outcome c)
      (execOpcode G clock code c .push32) := by
  have hget : (get : Stmt Context).run c = .ok c c := rfl
  rw [switch, outcome_bind hget, execOpcode]
  dsimp only
  by_cases hin : c.programCounter + 32 ≤ code.length
  · rw [if_neg (not_lt.mpr hin), dif_pos hin, outcome_bind (copyWord_run hin _)]
    exact .next _
  · rw [if_pos (not_le.mp hin), dif_neg hin]
    exact .stop _ (.returned false)

theorem mload_agrees (hmem : c.memory.length = 65536) :
    Agrees ((catching (switch G clock code (some .mload))).outcome c)
      (execOpcode G clock code c .mload) := by
  refine agrees_pop (fun hs => ?_) fun offset stack hs => ?_
  · rw [execOpcode, hs]
  · obtain ⟨w, hload, hrun⟩ := loadWordFromMemory_run (c := { c with stack }) hmem offset.low
    rw [execOpcode, hs, outcome_bind hrun]
    dsimp only
    rw [hload]
    exact .next _

theorem mstore_agrees (hmem : c.memory.length = 65536) :
    Agrees ((catching (switch G clock code (some .mstore))).outcome c)
      (execOpcode G clock code c .mstore) := by
  refine agrees_pop_pop (fun hs => ?_) (fun a hs => ?_) fun offset value stack hs => ?_
  · rw [execOpcode, hs]
  · rw [execOpcode, hs]
  · obtain ⟨c', hstore, hrun⟩ :=
      storeWordToMemory_run (c := { c with stack }) hmem offset.low value
    rw [execOpcode, hs, ← bind_pure (Stmt.storeWordToMemory _ _), outcome_bind hrun]
    dsimp only
    rw [hstore]
    exact .next _

theorem jmpi_agrees (c : Context) :
    Agrees ((catching (switch G clock code (some .jmpi))).outcome c)
      (execOpcode G clock code c .jmpi) := by
  refine agrees_pop_pop (fun hs => ?_) (fun a hs => ?_) fun target condition stack hs => ?_
  · rw [execOpcode, hs]
  · rw [execOpcode, hs]
  · rw [execOpcode, hs]
    dsimp only
    by_cases hcond : condition ≠ Word.zero
    · rw [if_pos ((any_nonzero_iff condition).mpr hcond), if_pos hcond]
      exact jump_agrees code _ target.low
    · rw [if_neg (mt (any_nonzero_iff condition).mp hcond), if_neg hcond]
      exact .next _

/-- **The `switch`**: the statements of each case do what the case means, as long as the memory has
its size. -/
theorem switch_agrees {op : Opcode} (hmem : c.memory.length = 65536)
    (hb : code[c.programCounter - 1]? = some op.byte) :
    Agrees ((catching (switch G clock code (some op))).outcome c) (execOpcode G clock code c op) := by
  cases op with
  | push0 | caller | callvalue | timestamp | gaslimit | ret | stop => exact .next _
  | revert => exact .stop _ (.returned false)
  | add | mul | sub => exact binary_agrees _ _ c
  | div | mod => exact divide_agrees hb rfl
  | lt | eq => exact compare_agrees hb fun left right => rfl
  | gt =>
    refine compare_agrees hb fun left right => ?_
    show Word.ofBool (!decide (left = right) && !decide (left.bytes < right.bytes)) =
      Word.ofBool (¬ left = right ∧ ¬ left.bytes < right.bytes)
    rw [Bool.decide_and, decide_not, decide_not]
  | push1 => exact push1_agrees c
  | push32 => exact push32_agrees c
  | pop =>
    obtain ⟨stack, memory⟩ := c
    cases stack with
    | nil => exact .stop _ (.returned false)
    | cons w stack => exact .next _
  | dup1 =>
    obtain ⟨stack, memory⟩ := c
    cases stack with
    | nil => exact .stop _ .peekWord
    | cons w stack => exact .next _
  | swap1 =>
    obtain ⟨stack, memory⟩ := c
    match stack with
    | [] => exact .stop _ (.returned false)
    | [a] => exact .stop _ (.returned false)
    | b :: a :: stack => exact .next _
  | mload => exact mload_agrees hmem
  | mstore => exact mstore_agrees hmem
  | sload =>
    refine agrees_pop (fun hs => ?_) fun key stack hs => ?_
    · rw [execOpcode, hs]
    · rw [execOpcode, hs]
      exact .next _
  | sstore =>
    refine agrees_pop_pop (fun hs => ?_) (fun a hs => ?_) fun key value stack hs => ?_
    · rw [execOpcode, hs]
    · rw [execOpcode, hs]
    · rw [execOpcode, hs]
      exact .next _
  | jmp =>
    refine agrees_pop (fun hs => ?_) fun target stack hs => ?_
    · rw [execOpcode, hs]
    · rw [execOpcode, hs]
      exact jump_agrees code _ target.low
  | jmpi => exact jmpi_agrees c

end Switch

/-! ## A turn -/

theorem Opcode.byte_of_ofByte {b : UInt8} {op : Opcode} (h : Opcode.ofByte b = some op) :
    b = op.byte := by
  unfold Opcode.ofByte at h
  split at h <;> cases h <;> rfl

section Turn

variable {G : GasSchedule} {clock : ℕ → UInt64} {code : Bytes} {c c' : Context}

theorem round_outOfGas (h : ¬ c.checkGas 1 = true) :
    (Stmt.round G clock code).outcome c =
      .stop (.returned false none, { c with revertReason := "Out of gas" }) := by
  unfold Stmt.round Stmt.outcome
  simp only [EStateM.run_bind, EStateM.run_get, if_pos h]
  rfl

theorem round_byte {b : UInt8} (h : c.checkGas 1 = true) (hb : code[c.programCounter]? = some b) :
    (Stmt.round G clock code).outcome c =
      (Stmt.catching (Stmt.switch G clock code (Opcode.ofByte b))).outcome
        { c with programCounter := c.programCounter + 1 } := by
  unfold Stmt.round Stmt.outcome
  simp only [EStateM.run_bind, EStateM.run_get, if_neg (not_not.mpr h), nextByte_run hb]

/-- **One turn**: the statements of the loop do what a round means. -/
theorem turn_agrees (hmem : c.memory.length = 65536) :
    Agrees (turn G clock code c) (step G clock code c) := by
  unfold turn step
  cases hb : code[c.programCounter]? with
  | none =>
    have hge := List.getElem?_eq_none_iff.mp hb
    rw [if_neg fun hcond => absurd hcond.2 (not_lt.mpr hge)]
    exact .stop _ (.returned true)
  | some b =>
    have hlt := (List.getElem?_eq_some_iff.mp hb).1
    dsimp only
    by_cases hhalt : c.halted = true
    · rw [if_neg fun hcond => hcond.1 hhalt, if_pos hhalt]
      exact .stop _ (.returned true)
    rw [if_pos ⟨hhalt, hlt⟩, if_neg hhalt]
    by_cases hgas : c.checkGas 1 = true
    · rw [if_neg (not_not.mpr hgas), round_byte hgas hb]
      cases hop : Opcode.ofByte b with
      | none => exact .stop _ (.returned false)
      | some op =>
        have hread : code[c.programCounter + 1 - 1]? = some op.byte := by
          rw [Nat.add_sub_cancel, hb, Opcode.byte_of_ofByte hop]
        exact switch_agrees (c := { c with programCounter := c.programCounter + 1 }) hmem hread
    · rw [if_pos hgas, round_outOfGas hgas]
      exact .stop _ (.returned false)

/-- What a turn does under the memory that the constructor makes: it moves on like a round, or it is
left in one of the ways that occur. -/
theorem turn_cases (hmem : c.memory.length = 65536) :
    (∃ c', turn G clock code c = .next c' ∧ step G clock code c = .next c' ∧
      c'.memory.length = 65536) ∨
    ∃ leave o c', turn G clock code c = .stop (leave, c') ∧ step G clock code c = .stop (o, c') ∧
      leave.Yields o ∧ c'.memory.length = 65536 := by
  have hagrees : Agrees (turn G clock code c) (step G clock code c) := turn_agrees hmem
  generalize hturn : turn G clock code c = t at hagrees
  generalize hstep : step G clock code c = s at hagrees
  cases hagrees with
  | next c' =>
    obtain ⟨-, -, -, -, -, hmemory⟩ := step_next hstep
    exact .inl ⟨c', rfl, rfl, hmemory.trans hmem⟩
  | stop c' hyields => exact .inr ⟨_, _, c', rfl, rfl, hyields, (step_stop hstep).2.trans hmem⟩

end Turn

/-! ## Runs -/

section Run

variable (G : GasSchedule) (clock : ℕ → UInt64) (code : Bytes) (ctx : Context)

theorem start_memory : ctx.start.memory.length = 65536 := List.takeD_length ..

/-- The statements and the rounds of `execute` have the same runs. -/
theorem execute_statements (fuel : ℕ) :
    Option.Rel (fun r r' => r.1.Yields r'.1 ∧ r.2 = r'.2)
      (Machine.run (turn G clock code) fuel ctx.start) (execute G clock code ctx fuel) := by
  refine Machine.run_lockstep (fun c => c.memory.length = 65536) _ (fun c hmem => ?_)
    (start_memory ctx) fuel
  rcases @turn_cases G clock code c hmem with
    ⟨c', hturn, hstep, hmem'⟩ | ⟨leave, o, c', hturn, hstep, hyields, -⟩
  · exact .inl ⟨c', hturn, hstep, hmem'⟩
  · exact .inr ⟨(leave, c'), (o, c'), hturn, hstep, hyields, rfl⟩

theorem reaches_memory {c : Context} (hc : Machine.Reaches (turn G clock code) ctx.start c) :
    c.memory.length = 65536 := by
  refine hc.invariant (fun t => t.memory.length = 65536) (start_memory ctx) fun t t' ht hturn => ?_
  rcases turn_cases ht with ⟨c', hturn', -, hmem'⟩ | ⟨leave, o, c', hturn', -⟩
  · rw [hturn] at hturn'
    cases hturn'
    exact hmem'
  · rw [hturn] at hturn'
    cases hturn'

/-- **Bounds**: in every state of every run the memory has 65536 bytes, and a turn that stops is left
neither by a read outside the bytecode, nor by `pop_word` on an empty stack, nor by an access outside
the memory, nor by an exception that nobody catches; division by zero apart it is a `return`, of false
unless the loop is over. -/
theorem execute_in_bounds {c : Context} (hc : Machine.Reaches (turn G clock code) ctx.start c) :
    c.memory.length = 65536 ∧
    ∀ leave c', turn G clock code c = .stop (leave, c') →
      c'.memory.length = 65536 ∧
      leave ≠ .undefined ∧
      (∀ ok, leave ≠ .returned ok (some .popWord)) ∧
      (∀ ok, leave ≠ .returned ok (some .loadWordFromMemory)) ∧
      (∀ ok, leave ≠ .returned ok (some .storeWordToMemory)) ∧
      (∀ e, leave ≠ .thrown e) ∧
      (leave = .trapped ∨ (∃ caught, leave = .returned false caught) ∨
        leave = .returned true none ∧ (c.halted = true ∨ code.length ≤ c.programCounter)) := by
  have hmem := reaches_memory G clock code ctx hc
  refine ⟨hmem, fun leave c' hstop => ?_⟩
  rcases @turn_cases G clock code c hmem with
    ⟨d, hturn, -⟩ | ⟨leave', o, d, hturn, hstep, hyields, hmem'⟩
  · rw [hturn] at hstop
    cases hstop
  rw [hturn] at hstop
  cases hstop
  refine ⟨hmem', ?_⟩
  cases hyields with
  | returned ok =>
    cases ok with
    | false => simp
    | true => simpa using (step_returned_true hstep).2.2
  | peekWord => simp
  | jump => simp
  | trapped => simp

/-- `PUSH0 POP POP` fails at its last opcode, before the stack is touched. -/
theorem execute_in_bounds_pop :
    ∃ c leave c', Machine.Reaches (turn explorerGas (fun _ => 0) [0x00, 0x50, 0x50])
      (Context.start { gasLimit := 10 }) c ∧
      turn explorerGas (fun _ => 0) [0x00, 0x50, 0x50] c = .stop (leave, c') ∧
      leave = .returned false none ∧ leave ≠ .undefined := by
  let start := Context.start { gasLimit := 10 }
  let pushed : Context := { start with stack := [Word.zero], gasUsed := 3, programCounter := 1 }
  let popped : Context := { start with gasUsed := 3, programCounter := 2 }
  have hpush : turn explorerGas (fun _ => 0) [0x00, 0x50, 0x50] start = .next pushed := rfl
  have hpop : turn explorerGas (fun _ => 0) [0x00, 0x50, 0x50] pushed = .next popped := rfl
  have hreach : Machine.Reaches (turn explorerGas (fun _ => 0) [0x00, 0x50, 0x50]) start popped :=
    .tail (.tail .refl hpush) hpop
  exact ⟨popped, _, _, hreach, rfl, rfl,
    ((execute_in_bounds explorerGas (fun _ => 0) [0x00, 0x50, 0x50] _ hreach).2 _ _ rfl).2.1⟩

end Run

end Mermai.Vm
