import Mermai.Vm.Arith
import Mermai.Vm.Effect

/-!
# Vm.Debugger — the debugger of the explorer

`vmReset`, `vmStep` and `vmRunAll` of the explorer's page are a second interpreter of the bytecode.  It parts
from the virtual machine in three places.  `JMP` and `JMPI` read their target behind the opcode, where the
machine takes it from the stack; `SSTORE` takes the value from the top of the stack and the key below it,
where the machine takes the key first; and its numbers do not end at 256 bits.  The two agree after every
round exactly when no round of the machine meets one of these (`debugger_agrees`).
-/

namespace Mermai.Vm

/-! ## The debugger -/

/-- `vmState`; the top of the stack comes first, and `ticks` counts the readings of the clock. -/
structure VmState where
  pc : ℕ := 0
  gasUsed : ℕ := 0
  stack : List ℕ := []
  memory : Bytes := List.replicate 1024 0
  storage : Bytes → Option Bytes := fun _ => none
  halted : Bool := false
  ticks : ℕ := 0

/-- `BigInt` of a text of decimal digits; that of an empty text is zero. -/
def bigInt (text : Bytes) : ℕ := text.foldl (fun v b => v * 10 + (b.toNat - 48)) 0

namespace VmState

def push (s : VmState) (n : ℕ) : VmState := { s with stack := n :: s.stack }

def charge (s : VmState) (gas : ℕ) : VmState := { s with gasUsed := s.gasUsed + gas }

/-- `vmState.stack.pop() || 0n`, for its value. -/
def top (s : VmState) : ℕ := s.stack.headD 0

/-- `vmState.stack.pop()`, for its effect; nothing on an empty stack. -/
def pop (s : VmState) : VmState := { s with stack := s.stack.tail }

/-- The cases that take two numbers and push one: `b` is on top of `a`. -/
def binary (s : VmState) (f : ℕ → ℕ → ℕ) (gas : ℕ) : VmState :=
  (s.pop.pop.push (f s.pop.top s.top)).charge gas

/-- `vmState.bytecode[vmState.pc] || 0`. -/
def operand (s : VmState) (code : Bytes) : ℕ := (code[s.pc]?.getD 0).toNat

/-- The `switch` of `vmStep`, with the program counter behind the opcode. -/
def exec (now : ℕ → ℕ) (code : Bytes) (s : VmState) : Opcode → VmState
  | .push0 => (s.push 0).charge 3
  | .push1 => ({ s with pc := s.pc + 1 }.push (s.operand code)).charge 3
  | .pop => s.pop.charge 2
  | .dup1 => (if s.stack = [] then s else s.push s.top).charge 3
  | .add => s.binary (· + ·) 3
  -- a difference below zero is zero
  | .sub => s.binary (· - ·) 3
  | .mul => s.binary (· * ·) 5
  | .eq => s.binary (fun a b => if a = b then 1 else 0) 3
  | .gt => s.binary (fun a b => if b < a then 1 else 0) 3
  | .lt => s.binary (fun a b => if a < b then 1 else 0) 3
  | .sstore =>
    let val := s.top
    let key := s.pop.top
    { s.pop.pop with storage := Function.update s.storage (decimal key) (some (decimal val)) }.charge 20000
  | .sload => (s.pop.push (bigInt ((s.storage (decimal s.top)).getD [48]))).charge 50
  | .mstore =>
    let val := s.top
    let offset := s.pop.top
    -- nothing behind the end of the memory
    { s.pop.pop with memory := s.memory.set offset (UInt8.ofNat val) }.charge 3
  | .jmp => { s with pc := s.operand code }.charge 8
  | .jmpi => { s.pop with pc := if s.top ≠ 0 then s.operand code else s.pc + 1 }.charge 10
  | .caller => (s.push 0xDEADBEEF).charge 2
  | .timestamp => ({ s with ticks := s.ticks + 1 }.push (now s.ticks)).charge 2
  | .stop | .revert => { s with halted := true }
  | _ => s

/-- `vmStep`. -/
def vmStep (now : ℕ → ℕ) (code : Bytes) (s : VmState) : VmState :=
  if s.halted ∨ code.length ≤ s.pc then { s with halted := true }
  else
    let s' := { s with pc := s.pc + 1 }
    match code[s.pc]?.bind Opcode.ofByte with
    | some op => s'.exec now code op
    | none => s'

/-- `vmReset`. -/
def vmReset : VmState := {}

/-- The run is over. -/
def Ended (code : Bytes) (s : VmState) : Prop := s.halted = true ∨ code.length ≤ s.pc

instance (code : Bytes) (s : VmState) : Decidable (s.Ended code) := inferInstanceAs (Decidable (_ ∨ _))

/-- The loop of `vmRunAll`, for a number of steps. -/
def runSteps (now : ℕ → ℕ) (code : Bytes) : ℕ → VmState → VmState
  | 0, s => s
  | n + 1, s => if s.Ended code then s else runSteps now code n (s.vmStep now code)

/-- `vmRunAll`. -/
def vmRunAll (now : ℕ → ℕ) (code : Bytes) (s : VmState) : VmState := s.runSteps now code 10000

end VmState

/-! ## The code -/

/-- The opcodes that the two interpreters are compared on. -/
def sharedOpcodes : List Opcode :=
  [.push0, .push1, .pop, .dup1, .add, .eq, .lt, .gt, .sstore, .sload, .jmp, .jmpi, .stop]

/-- Bytecode made of shared opcodes.  The machine reads no operand behind a jump and the debugger does, so a
jump stands with or without one; a `PUSH1` has one unless it is the last byte. -/
inductive MadeOf : Bytes → Prop
  | nil : MadeOf []
  | plain {op : Opcode} {rest : Bytes} (hop : op ∈ sharedOpcodes) (hpush : op ≠ .push1)
      (h : MadeOf rest) : MadeOf (op.byte :: rest)
  | operand {op : Opcode} {b : UInt8} {rest : Bytes} (hop : op ∈ [.push1, .jmp, .jmpi])
      (h : MadeOf rest) : MadeOf (op.byte :: b :: rest)
  | truncated : MadeOf [Opcode.push1.byte]

theorem MadeOf.head {b : UInt8} {rest : Bytes} (h : MadeOf (b :: rest)) :
    ∃ op ∈ sharedOpcodes, Opcode.ofByte b = some op := by
  cases h with
  | @plain op rest hop => exact ⟨op, hop, op.ofByte_byte⟩
  | @operand op b rest hop =>
    have hshared : [.push1, .jmp, .jmpi] ⊆ sharedOpcodes := by decide
    exact ⟨op, hshared hop, op.ofByte_byte⟩
  | truncated => exact ⟨.push1, by decide, rfl⟩

/-- Behind an opcode without an operand. -/
theorem MadeOf.tail {b : UInt8} {op : Opcode} {rest : Bytes} (h : MadeOf (b :: rest))
    (hb : Opcode.ofByte b = some op) (hop : op ∉ [Opcode.push1, .jmp, .jmpi]) : MadeOf rest := by
  cases h with
  | plain _ _ h => exact h
  | operand hop' =>
    rw [Opcode.ofByte_byte] at hb
    exact absurd (Option.some.inj hb ▸ hop') hop
  | truncated => exact .nil

/-- Behind `PUSH1` and its operand. -/
theorem MadeOf.tail_push1 {b x : UInt8} {rest : Bytes} (h : MadeOf (b :: x :: rest))
    (hb : Opcode.ofByte b = some .push1) : MadeOf rest := by
  cases h with
  | plain _ hpush =>
    rw [Opcode.ofByte_byte] at hb
    exact absurd (Option.some.inj hb) hpush
  | operand _ h => exact h

/-! ## The storage read as numbers -/

/-- The storage holds a value under a key, both read as numbers. -/
def Holds (read : Bytes → ℕ) (storage : Bytes → Option Bytes) (key value : ℕ) : Prop :=
  ∃ k v, storage k = some v ∧ read k = key ∧ read v = value

/-- The storage is that of a map of words, with keys and values in an encoding. -/
structure StoresAs (enc : Word → Bytes) (words : Word → Option Word) (storage : Bytes → Option Bytes) :
    Prop where
  stored : ∀ k, storage (enc k) = (words k).map enc
  keys : ∀ key value, storage key = some value → ∃ k, enc k = key

section Storage

variable {enc : Word → Bytes} {words : Word → Option Word} {storage : Bytes → Option Bytes}

theorem StoresAs.update (hinj : Function.Injective enc) (h : StoresAs enc words storage) (k v : Word) :
    StoresAs enc (Function.update words k (some v)) (Function.update storage (enc k) (some (enc v))) where
  stored k' := by
    by_cases hk : k' = k
    · rw [hk, Function.update_self, Function.update_self, Option.map_some]
    · rw [Function.update_of_ne hk, Function.update_of_ne (hinj.ne hk), h.stored]
  keys key value hvalue := by
    by_cases hkey : key = enc k
    · exact ⟨k, hkey.symm⟩
    · rw [Function.update_of_ne hkey] at hvalue
      exact h.keys key value hvalue

theorem StoresAs.holds_iff {read : Bytes → ℕ} (hread : ∀ k, read (enc k) = k.value)
    (h : StoresAs enc words storage) (m n : ℕ) :
    Holds read storage m n ↔ ∃ k v, words k = some v ∧ k.value = m ∧ v.value = n := by
  constructor
  · rintro ⟨key, value, hvalue, rfl, rfl⟩
    obtain ⟨k, rfl⟩ := h.keys key value hvalue
    rw [h.stored] at hvalue
    obtain ⟨v, hv, rfl⟩ := Option.map_eq_some_iff.mp hvalue
    exact ⟨k, v, hv, (hread k).symm, (hread v).symm⟩
  · rintro ⟨k, v, hv, rfl, rfl⟩
    exact ⟨enc k, enc v, by rw [h.stored, hv]; rfl, hread k, hread v⟩

theorem storesAs_empty : StoresAs enc (fun _ => none) fun _ => none where
  stored _ := rfl
  keys _ _ h := by cases h

end Storage

/-- The text of a word in the debugger. -/
def Word.text (w : Word) : Bytes := decimal w.value

theorem Word.bytes_injective : Function.Injective Word.bytes := by
  intro a b h
  cases a
  cases b
  cases h
  rfl

theorem Word.text_injective : Function.Injective Word.text :=
  fun _ _ h => Word.value_inj.mp (decimal_injective h)

theorem Word.bigInt_text (w : Word) : bigInt w.text = w.value := foldl_decimal w.value

/-- A word that was stored is loaded whole. -/
theorem Word.ofBack_bytes (w : Word) : Word.ofBack w.bytes = w := by
  refine Word.bytes_injective ?_
  have hlength : w.bytes.reverse.length = 32 := by rw [List.length_reverse, w.length_eq]
  show (w.bytes.reverse.takeD 32 0).reverse = w.bytes
  rw [List.takeD_eq_take _ hlength.ge, List.take_of_length_le hlength.le, List.reverse_reverse]

/-! ## Agreement -/

/-- The same stack and the same storage, read as numbers. -/
structure Matches (c : Context) (s : VmState) : Prop where
  stack : s.stack = c.stack.map Word.value
  storage : ∀ key value, Holds Codec.ofBE c.storage key value ↔ Holds bigInt s.storage key value

/-- A condition on the two words on top of the stack, the upper one first; nothing on a smaller stack. -/
def OnTop (p : Word → Word → Prop) : List Word → Prop
  | b :: a :: _ => p b a
  | _ => True

instance (p : Word → Word → Prop) [∀ b a, Decidable (p b a)] : ∀ stack, Decidable (OnTop p stack)
  | b :: a :: _ => inferInstanceAs (Decidable (p b a))
  | [] | [_] => inferInstanceAs (Decidable True)

/-- The next round of the machine is one that the debugger follows: it does not jump, a sum fits 256 bits,
and a value is stored under itself. -/
@[mk_iff] structure Fits (code : Bytes) (c : Context) : Prop where
  jmp : c.current code ≠ some .jmp
  jmpi : c.current code ≠ some .jmpi
  sum : c.current code = some .add → OnTop (fun b a => a.value + b.value < 2 ^ 256) c.stack
  store : c.current code = some .sstore → OnTop (fun key value => key = value) c.stack

instance (code : Bytes) (c : Context) : Decidable (Fits code c) := decidable_of_iff' _ (fits_iff code c)

/-- The states of the two in a run without a difference; a storage of such a run holds its keys. -/
structure Related (code : Bytes) (c : Context) (s : VmState) : Prop where
  pc : s.pc = c.programCounter
  halted : s.halted = c.halted
  stack : s.stack = c.stack.map Word.value
  made : MadeOf (code.drop c.programCounter)
  storage : ∃ words : Word → Option Word, StoresAs Word.bytes words c.storage ∧
    StoresAs Word.text words s.storage ∧ ∀ k v, words k = some v → v = k

theorem Related.matches {code : Bytes} {c : Context} {s : VmState} (h : Related code c s) : Matches c s := by
  obtain ⟨words, hbytes, htext, -⟩ := h.storage
  refine ⟨h.stack, fun key value => ?_⟩
  rw [hbytes.holds_iff (fun _ => rfl), htext.holds_iff Word.bigInt_text]

/-! ## One round -/

section Round

variable {G : GasSchedule} {clock : ℕ → UInt64} {now : ℕ → ℕ} {code : Bytes} {c c' : Context}
  {s s' : VmState} {op : Opcode}

theorem current_eq_some (h : c.current code = some op) :
    c.halted = false ∧ ∃ b, code[c.programCounter]? = some b ∧ Opcode.ofByte b = some op := by
  unfold Context.current at h
  split_ifs at h with hstop
  rw [not_or] at hstop
  exact ⟨Bool.eq_false_iff.mpr hstop.1, Option.bind_eq_some_iff.mp h⟩

/-- The debugger executes the same opcode. -/
theorem Related.vmStep_eq (h : Related code c s) (hop : c.current code = some op) :
    s.vmStep now code = { s with pc := s.pc + 1 }.exec now code op := by
  obtain ⟨hhalted, b, hb, hofByte⟩ := current_eq_some hop
  rw [← h.pc] at hb
  have hlt := (List.getElem?_eq_some_iff.mp hb).1
  have hrun : ¬ (s.halted ∨ code.length ≤ s.pc) := by
    rw [h.halted, hhalted, not_or]
    exact ⟨by decide, not_le.mpr hlt⟩
  rw [VmState.vmStep, if_neg hrun, hb, Option.bind_some, hofByte]

theorem Related.shared (h : Related code c s) (hop : c.current code = some op) : op ∈ sharedOpcodes := by
  obtain ⟨-, b, hb, hofByte⟩ := current_eq_some hop
  have hmade := h.made
  rw [drop_of_getElem? hb] at hmade
  obtain ⟨op', hop', hofByte'⟩ := hmade.head
  rw [hofByte] at hofByte'
  cases hofByte'
  exact hop'

theorem Related.made_next (h : Related code c s) (hop : c.current code = some op)
    (hplain : op ∉ [Opcode.push1, .jmp, .jmpi]) : MadeOf (code.drop (c.programCounter + 1)) := by
  obtain ⟨-, b, hb, hofByte⟩ := current_eq_some hop
  have hmade := h.made
  rw [drop_of_getElem? hb] at hmade
  exact hmade.tail hofByte hplain

theorem Related.made_push1 (h : Related code c s) (hop : c.current code = some .push1) {x : UInt8}
    (hx : code[c.programCounter + 1]? = some x) : MadeOf (code.drop (c.programCounter + 2)) := by
  obtain ⟨-, b, hb, hofByte⟩ := current_eq_some hop
  have hmade := h.made
  rw [drop_of_getElem? hb, drop_of_getElem? hx] at hmade
  exact hmade.tail_push1 hofByte

/-- A round that leaves the storage alone. -/
theorem Related.moved (h : Related code c s) (hpc : s'.pc = c'.programCounter)
    (hhalted : s'.halted = c'.halted) (hstack : s'.stack = c'.stack.map Word.value)
    (hmade : MadeOf (code.drop c'.programCounter)) (hc : c'.storage = c.storage)
    (hs : s'.storage = s.storage) : Related code c' s' where
  pc := hpc
  halted := hhalted
  stack := hstack
  made := hmade
  storage := by
    rw [hc, hs]
    exact h.storage

theorem binary_eq_next {cost : UInt64} {f : Word → Word → Word} (h : binary cost f c = .next c') :
    ∃ b a stack, c.stack = b :: a :: stack ∧ c' = { c with stack := f a b :: stack }.charge cost := by
  unfold binary at h
  split at h
  · rename_i b a stack hs
    cases h
    exact ⟨b, a, stack, hs, rfl⟩
  · cases h

/-- The cases that take two numbers and push one agree where the functions do. -/
theorem Related.pushes (h : Related code c s) (hop : c.current code = some op)
    (hplain : op ∉ [Opcode.push1, .jmp, .jmpi]) {cost : UInt64} {f : Word → Word → Word}
    {g : ℕ → ℕ → ℕ} {gas : ℕ}
    (hnext : binary cost f { c with programCounter := c.programCounter + 1 } = .next c')
    (hfg : ∀ b a stack, c.stack = b :: a :: stack → (f a b).value = g a.value b.value) :
    Related code c' ({ s with pc := s.pc + 1 }.binary g gas) := by
  obtain ⟨b, a, stack, hstack, rfl⟩ := binary_eq_next hnext
  dsimp only at hstack
  refine h.moved (congrArg (· + 1) h.pc) h.halted ?_ (h.made_next hop hplain) rfl rfl
  have hs := h.stack
  rw [hstack, List.map_cons, List.map_cons] at hs
  simp only [VmState.binary, VmState.push, VmState.pop, VmState.top, VmState.charge, hs,
    List.tail_cons, List.headD_cons, Context.charge, List.map_cons, hfg b a stack hstack]

/-- The two load the same number. -/
theorem Related.load (h : Related code c s) (key : Word) :
    bigInt ((s.storage (decimal key.value)).getD [48]) =
      (Word.ofBack (c.loadFromStorage key.bytes)).value := by
  obtain ⟨words, hbytes, htext, -⟩ := h.storage
  have hc := hbytes.stored key
  have hs := htext.stored key
  rw [Context.loadFromStorage, hc, ← Word.text, hs]
  cases words key with
  | none => rfl
  | some v =>
    rw [Option.map_some, Option.map_some, Option.getD_some, Option.getD_some, Word.ofBack_bytes,
      Word.bigInt_text]

/-- A value stored under itself is stored by the two alike. -/
theorem Related.stores (h : Related code c s) (hop : c.current code = some .sstore)
    (hfits : Fits code c)
    (hnext : execOpcode G clock code { c with programCounter := c.programCounter + 1 } .sstore = .next c') :
    Related code c' ({ s with pc := s.pc + 1 }.exec now code .sstore) := by
  have hs := h.stack
  simp only [execOpcode] at hnext
  split at hnext
  · rename_i key value stack hstack
    cases hnext
    have hsame := hfits.store hop
    rw [hstack] at hsame
    obtain rfl : key = value := hsame
    rw [hstack, List.map_cons, List.map_cons] at hs
    obtain ⟨words, hbytes, htext, hdiagonal⟩ := h.storage
    refine ⟨congrArg (· + 1) h.pc, h.halted, ?_, h.made_next hop (by decide), ?_⟩
    · simp [VmState.exec, VmState.pop, VmState.charge, Context.storeToStorage, Context.charge, hs]
    · refine ⟨Function.update words key (some key), hbytes.update Word.bytes_injective key key, ?_, ?_⟩
      · have hstorage := htext.update Word.text_injective key key
        simpa [VmState.exec, VmState.pop, VmState.top, VmState.charge, hs, Word.text] using hstorage
      · intro k v hv
        by_cases hk : k = key
        · rw [hk, Function.update_self] at hv
          rw [hk, Option.some.inj hv]
        · rw [Function.update_of_ne hk] at hv
          exact hdiagonal k v hv
  · cases hnext

/-- **One round**: the debugger follows a round that fits. -/
theorem Related.follows (h : Related code c s) (hfits : Fits code c)
    (hnext : step G clock code c = .next c') : Related code c' (s.vmStep now code) := by
  obtain ⟨op, hop, -⟩ := step_next hnext
  rw [step_of_current hop] at hnext
  rw [h.vmStep_eq hop]
  have hshared := h.shared hop
  have hpc := h.pc
  have hs := h.stack
  cases op with
  | push0 =>
    cases hnext
    refine h.moved (congrArg (· + 1) hpc) h.halted ?_ (h.made_next hop (by decide)) rfl rfl
    simp [VmState.exec, VmState.push, VmState.charge, Context.push, Context.charge, hs, Word.zero]
  | push1 =>
    simp only [execOpcode] at hnext
    split at hnext
    · cases hnext
    · rename_i x hx
      cases hnext
      refine h.moved (congrArg (· + 2) hpc) h.halted ?_ (h.made_push1 hop hx) rfl rfl
      simp [VmState.exec, VmState.push, VmState.charge, VmState.operand, Context.push, Context.charge,
        hs, hpc, hx]
  | pop =>
    simp only [execOpcode] at hnext
    split at hnext
    · cases hnext
    · rename_i w stack hstack
      cases hnext
      refine h.moved (congrArg (· + 1) hpc) h.halted ?_ (h.made_next hop (by decide)) rfl rfl
      simp [VmState.exec, VmState.pop, VmState.charge, hs, hstack]
  | dup1 =>
    simp only [execOpcode] at hnext
    split at hnext
    · cases hnext
    · rename_i w stack hstack
      cases hnext
      have hnonempty : s.stack ≠ [] := by simp [hs, hstack]
      have hexec : ({ s with pc := s.pc + 1 } : VmState).exec now code .dup1 =
          ({ s with pc := s.pc + 1 }.push s.top).charge 3 := by
        rw [VmState.exec, if_neg hnonempty]
        rfl
      rw [hexec]
      refine h.moved (congrArg (· + 1) hpc) h.halted ?_ (h.made_next hop (by decide)) rfl rfl
      simp [VmState.push, VmState.charge, VmState.top, Context.push, hs, hstack]
  | add =>
    refine h.pushes hop (by decide) hnext fun b a stack hstack => ?_
    have hsum := hfits.sum hop
    rw [hstack] at hsum
    rw [Word.add_value]
    exact Nat.mod_eq_of_lt hsum
  | eq =>
    rw [VmState.exec]
    refine h.pushes hop (by decide) hnext fun b a stack _ => ?_
    exact Word.value_ofBool Word.value_inj.symm
  | lt =>
    rw [VmState.exec]
    refine h.pushes hop (by decide) hnext fun b a stack _ => ?_
    exact Word.value_ofBool (Word.value_lt_iff a b).symm
  | gt =>
    rw [VmState.exec]
    refine h.pushes hop (by decide) hnext fun b a stack _ => ?_
    refine Word.value_ofBool ?_
    rw [← Word.value_lt_iff, ← Word.value_inj]
    omega
  | sstore => exact h.stores hop hfits hnext
  | sload =>
    simp only [execOpcode] at hnext
    split at hnext
    · cases hnext
    · rename_i key stack hstack
      cases hnext
      rw [hstack, List.map_cons] at hs
      have hload := h.load key
      refine h.moved (congrArg (· + 1) hpc) h.halted ?_ (h.made_next hop (by decide)) rfl rfl
      simp only [VmState.exec, VmState.push, VmState.pop, VmState.top, VmState.charge, Context.push,
        Context.charge, hs, List.tail_cons, List.headD_cons, List.map_cons]
      exact congrArg (· :: stack.map Word.value) hload
  | stop =>
    cases hnext
    exact h.moved (congrArg (· + 1) hpc) rfl hs (h.made_next hop (by decide)) rfl rfl
  | jmp => exact absurd hop hfits.jmp
  | jmpi => exact absurd hop hfits.jmpi
  | _ => exact absurd hshared (by decide)

theorem Related.height (h : Related code c s) (hop : c.current code = some op)
    (hmatches : Matches c' (s.vmStep now code)) :
    ({ s with pc := s.pc + 1 }.exec now code op).stack.length = c'.stack.length := by
  rw [← h.vmStep_eq hop, hmatches.stack, List.length_map]

/-- A taken or untaken jump leaves the stacks at different heights. -/
theorem Related.not_matches_jmp (h : Related code c s) (hop : c.current code = some .jmp)
    (hnext : step G clock code c = .next c') : ¬ Matches c' (s.vmStep now code) := by
  intro hmatches
  rw [step_of_current hop] at hnext
  have hheight := h.height hop hmatches
  simp only [execOpcode] at hnext
  split at hnext
  · cases hnext
  · rename_i target stack hstack
    cases jump_next hnext
    simp [VmState.exec, VmState.charge, h.stack, hstack] at hheight

theorem Related.not_matches_jmpi (h : Related code c s) (hop : c.current code = some .jmpi)
    (hnext : step G clock code c = .next c') : ¬ Matches c' (s.vmStep now code) := by
  intro hmatches
  rw [step_of_current hop] at hnext
  have hheight := h.height hop hmatches
  simp only [execOpcode] at hnext
  split at hnext
  · rename_i target condition stack hstack
    have hpopped : c'.stack = stack := by
      split_ifs at hnext
      · rw [jump_next hnext]
      · cases hnext
        rfl
    simp [VmState.exec, VmState.pop, VmState.charge, h.stack, hstack, hpopped] at hheight
  · cases hnext

/-- A sum of 256 bits or more is another number in the machine. -/
theorem Related.sum_lt (h : Related code c s) (hop : c.current code = some .add)
    (hnext : step G clock code c = .next c') (hmatches : Matches c' (s.vmStep now code)) {b a : Word}
    {stack : List Word} (hstack : c.stack = b :: a :: stack) : a.value + b.value < 2 ^ 256 := by
  rw [step_of_current hop] at hnext
  obtain ⟨b', a', stack', hstack', rfl⟩ := binary_eq_next hnext
  cases hstack.symm.trans hstack'
  have htop := hmatches.stack
  rw [h.vmStep_eq hop] at htop
  have hsum : a.value + b.value = (Word.add a b).value := by
    simp only [VmState.exec, VmState.binary, VmState.push, VmState.pop, VmState.top, VmState.charge,
      h.stack, hstack, List.map_cons, List.tail_cons, List.headD_cons, Context.charge] at htop
    exact (List.cons.inj htop).1
  rw [hsum]
  exact Word.value_lt _

/-- A value stored under another key is, in the debugger, a key stored under a value. -/
theorem Related.store_eq (h : Related code c s) (hop : c.current code = some .sstore)
    (hnext : step G clock code c = .next c') (hmatches : Matches c' (s.vmStep now code)) {key value : Word}
    {stack : List Word} (hstack : c.stack = key :: value :: stack) : key = value := by
  rw [step_of_current hop] at hnext
  simp only [execOpcode, hstack] at hnext
  cases hnext
  obtain ⟨words, hbytes, htext, hdiagonal⟩ := h.storage
  have hvm := hbytes.update Word.bytes_injective key value
  have hdebugger := htext.update Word.text_injective value key
  have hstored : Holds Codec.ofBE (Function.update c.storage key.bytes (some value.bytes))
      key.value value.value :=
    (hvm.holds_iff (fun _ => rfl) _ _).mpr ⟨key, value, by rw [Function.update_self], rfl, rfl⟩
  have hfound := (hmatches.storage key.value value.value).mp hstored
  have hstorage : (s.vmStep now code).storage =
      Function.update s.storage value.text (some key.text) := by
    rw [h.vmStep_eq hop]
    simp [VmState.exec, VmState.pop, VmState.top, VmState.charge, h.stack, hstack, Word.text]
  rw [hstorage, hdebugger.holds_iff Word.bigInt_text] at hfound
  obtain ⟨k, v, hkv, hk, hv⟩ := hfound
  rw [Word.value_inj] at hk hv
  subst hk
  subst hv
  by_cases hkey : k = v
  · exact hkey
  · rw [Function.update_of_ne hkey] at hkv
    exact (hdiagonal k v hkv).symm

/-- **A round that does not fit is seen**: where the two agree behind a round, it was one that fits. -/
theorem Related.fits (h : Related code c s) (hnext : step G clock code c = .next c')
    (hmatches : Matches c' (s.vmStep now code)) : Fits code c where
  jmp hop := h.not_matches_jmp hop hnext hmatches
  jmpi hop := h.not_matches_jmpi hop hnext hmatches
  sum hop := by
    unfold OnTop
    split
    · rename_i b a stack hstack
      exact h.sum_lt hop hnext hmatches hstack
    · trivial
  store hop := by
    unfold OnTop
    split
    · rename_i key value stack hstack
      exact h.store_eq hop hnext hmatches hstack
    · trivial

end Round

/-! ## Whole runs -/

section Run

variable {G : GasSchedule} {clock : ℕ → UInt64} {now : ℕ → ℕ} {code : Bytes}

/-- When nothing more is executed, nothing is to be compared. -/
theorem fits_of_none {c : Context} (h : c.current code = none) : Fits code c := by
  rw [fits_iff, h]
  exact ⟨nofun, nofun, nofun, nofun⟩

theorem related_start {ctx : Context} (hmade : MadeOf code) (hstack : ctx.stack = [])
    (hstorage : ctx.storage = fun _ => none) : Related code ctx.start VmState.vmReset where
  pc := rfl
  halted := rfl
  stack := by
    show [] = ctx.stack.map Word.value
    rw [hstack]
    rfl
  made := hmade
  storage := by
    refine ⟨fun _ => none, ?_, storesAs_empty, fun k v hv => by cases hv⟩
    show StoresAs Word.bytes (fun _ => none) ctx.storage
    rw [hstorage]
    exact storesAs_empty

/-- The loop of `vmRunAll` stops where `execute` does. -/
theorem related_runSteps {c d : Context} {s : VmState} {fuel n : ℕ} (h : Related code c s)
    (hrun : Machine.run (step G clock code) fuel c = some (.returned true, d))
    (hfits : ∀ c', Machine.Reaches (step G clock code) c c' → Fits code c')
    (hended : (s.runSteps now code n).Ended code) : Related code d (s.runSteps now code n) := by
  induction fuel generalizing c s n with
  | zero => cases hrun
  | succ fuel ih =>
    cases hstep : step G clock code c with
    | stop r =>
      rw [Machine.run_stop hstep] at hrun
      cases hrun
      obtain ⟨rfl, -, hover⟩ := step_returned_true hstep
      have hover' : s.Ended code := by
        rw [VmState.Ended, h.halted, h.pc]
        exact hover
      have hstays : s.runSteps now code n = s := by
        cases n with
        | zero => rfl
        | succ n => rw [VmState.runSteps, if_pos hover']
      rw [hstays]
      exact h
    | next c' =>
      rw [Machine.run_next hstep] at hrun
      obtain ⟨op, hop, -⟩ := step_next hstep
      obtain ⟨hhalted, b, hb, -⟩ := current_eq_some hop
      have hgoes : ¬ s.Ended code := by
        rw [VmState.Ended, h.halted, h.pc, hhalted, not_or]
        exact ⟨by decide, not_le.mpr (List.getElem?_eq_some_iff.mp hb).1⟩
      cases n with
      | zero => exact absurd hended hgoes
      | succ n =>
        rw [VmState.runSteps, if_neg hgoes] at hended ⊢
        have hnext : Related code c' (s.vmStep now code) := h.follows (hfits c .refl) hstep
        exact ih hnext hrun (fun d hd => hfits d (.head hstep hd)) hended

/-- **The debugger agrees with the machine** after every round exactly when every round of the machine fits;
and then the two end with the same stack and the same storage. -/
theorem debugger_agrees {ctx c : Context} {fuel : ℕ} (hmade : MadeOf code) (hstack : ctx.stack = [])
    (hstorage : ctx.storage = fun _ => none)
    (hvm : execute G clock code ctx fuel = some (.returned true, c))
    (hdebugger : (VmState.vmReset.vmRunAll now code).Ended code) :
    ((∀ d s, Machine.Beside (step G clock code) (VmState.vmStep now code) ctx.start VmState.vmReset d s →
        Matches d s) ↔
      ∀ d, Machine.Reaches (step G clock code) ctx.start d → Fits code d) ∧
    ((∀ d, Machine.Reaches (step G clock code) ctx.start d → Fits code d) →
      Matches c (VmState.vmReset.vmRunAll now code)) := by
  have hstart := related_start hmade hstack hstorage
  refine ⟨?_, fun hfits => (related_runSteps hstart hvm hfits hdebugger).matches⟩
  refine Machine.agree_iff (fun _ _ h => h.matches) (fun _ _ _ h hnext hfits => h.follows hfits hnext)
    (fun _ _ _ h hnext hmatches => h.fits hnext hmatches) (fun d r hreaches hstop => ?_) hstart
  -- the run ends as `execute` does, so the last state executes nothing
  obtain ⟨fuel', hr⟩ := hreaches.run_eq hstop
  obtain rfl := Machine.run_unique hr hvm
  exact fits_of_none (step_returned_true hstop).2.1

end Run

/-- `PUSH1 3`, `PUSH1 4`, `ADD`, `DUP1`, `SSTORE`, `STOP`: both store seven under seven. -/
def sevenCode : Bytes := [0x01, 3, 0x01, 4, 0xA0, 0x80, 0xD1, 0xFF]

theorem madeOf_seven : MadeOf sevenCode := by
  have hstop : MadeOf [0xFF] := @MadeOf.plain .stop _ (by decide) (by decide) .nil
  have hstore : MadeOf [0x80, 0xD1, 0xFF] :=
    @MadeOf.plain .dup1 _ (by decide) (by decide) (@MadeOf.plain .sstore _ (by decide) (by decide) hstop)
  have hsum : MadeOf [0x01, 4, 0xA0, 0x80, 0xD1, 0xFF] :=
    @MadeOf.operand .push1 4 _ (by decide) (@MadeOf.plain .add _ (by decide) (by decide) hstore)
  exact @MadeOf.operand .push1 3 _ (by decide) hsum

theorem debugger_agrees_seven :
    ∃ c, execute explorerGas (fun _ => 0) sevenCode { gasLimit := 1000000 } 8 = some (.returned true, c) ∧
      Matches c (VmState.vmReset.vmRunAll (fun _ => 0) sevenCode) := by
  have hend : (execute explorerGas (fun _ => 0) sevenCode { gasLimit := 1000000 } 8).map Prod.fst =
      some (.returned true) := by decide +kernel
  obtain ⟨⟨_, c⟩, hvm, rfl⟩ := Option.map_eq_some_iff.mp hend
  have hended : (VmState.vmReset.vmRunAll (fun _ => 0) sevenCode).Ended sevenCode := by decide +kernel
  have hfits : Machine.everywhere (step explorerGas (fun _ => 0) sevenCode)
      (fun d => decide (Fits sevenCode d)) 8 (Context.start { gasLimit := 1000000 }) = true := by
    decide +kernel
  refine ⟨c, hvm, ?_⟩
  exact (debugger_agrees madeOf_seven rfl rfl hvm hended).2 fun d hd =>
    of_decide_eq_true (hd.of_everywhere hfits)

/-- `PUSH1 5`, `PUSH1 7`, `SSTORE`, `STOP`. -/
def swappedCode : Bytes := [0x01, 5, 0x01, 7, 0xD1, 0xFF]

/-- The machine stores five under seven, the debugger seven under five. -/
theorem swapped_disagrees :
    MadeOf swappedCode ∧
    ∃ c, execute explorerGas (fun _ => 0) swappedCode { gasLimit := 1000000 } 8 =
        some (.returned true, c) ∧
      (VmState.vmReset.vmRunAll (fun _ => 0) swappedCode).Ended swappedCode ∧
      Holds Codec.ofBE c.storage 7 5 ∧
      Holds bigInt (VmState.vmReset.vmRunAll (fun _ => 0) swappedCode).storage 5 7 ∧
      ¬ Matches c (VmState.vmReset.vmRunAll (fun _ => 0) swappedCode) := by
  have hmade : MadeOf swappedCode :=
    @MadeOf.operand .push1 5 _ (by decide) <| @MadeOf.operand .push1 7 _ (by decide) <|
      @MadeOf.plain .sstore _ (by decide) (by decide) <| @MadeOf.plain .stop _ (by decide) (by decide) .nil
  have hend : (execute explorerGas (fun _ => 0) swappedCode { gasLimit := 1000000 } 8).map
      (fun r => (r.1, r.2.storage (Word.ofByte 7).bytes)) =
        some (.returned true, some (Word.ofByte 5).bytes) := by decide +kernel
  obtain ⟨⟨o, c⟩, hvm, hstored⟩ := Option.map_eq_some_iff.mp hend
  obtain ⟨rfl, hstored⟩ := Prod.mk.inj hstored
  have hstorage : (VmState.vmReset.vmRunAll (fun _ => 0) swappedCode).storage =
      Function.update (fun _ => none) (decimal 5) (some (decimal 7)) := rfl
  have hvmHolds : Holds Codec.ofBE c.storage 7 5 := ⟨_, _, hstored, by decide +kernel, by decide +kernel⟩
  refine ⟨hmade, c, hvm, by decide +kernel, hvmHolds, ?_, fun hmatches => ?_⟩
  · rw [hstorage]
    exact ⟨decimal 5, decimal 7, Function.update_self .., foldl_decimal 5, foldl_decimal 7⟩
  · obtain ⟨key, value, hvalue, hkey, -⟩ := (hmatches.storage 7 5).mp hvmHolds
    rw [hstorage] at hvalue
    by_cases hfive : key = decimal 5
    · rw [hfive] at hkey
      exact absurd hkey (by decide)
    · rw [Function.update_of_ne hfive] at hvalue
      cases hvalue

end Mermai.Vm
