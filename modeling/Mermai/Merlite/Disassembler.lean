import Mermai.Lib.Sweep
import Mermai.Merlite.Token
import Mermai.Vm.Effect

/-!
# Merlite.Disassembler — `disassemble`

`merlite_compiler::disassemble` prints a line for every instruction.  It reads a byte behind `PUSH1`, as the
virtual machine does, and one behind `JMPI`, where the machine takes the target from the stack; it knows no
`PUSH32` and prints the 32 bytes behind one as instructions.  So its lines begin at the instructions of the
machine exactly when the machine meets neither of the two in front of another byte (`starts_iff`).
-/

namespace Mermai.Merlite

open Vm

/-! ## The disassembler -/

/-- What the `switch` does with an opcode. -/
inductive Form
  | plain (name : String)
  | operand (name : String)
  | unknown

def form : Option Opcode → Form
  | some .push0 => .plain "PUSH0"
  | some .push1 => .operand "PUSH1"
  | some .add => .plain "ADD"
  | some .sub => .plain "SUB"
  | some .mul => .plain "MUL"
  | some .sload => .plain "SLOAD"
  | some .sstore => .plain "SSTORE"
  | some .jmpi => .operand "JMPI"
  | some .caller => .plain "CALLER"
  | some .timestamp => .plain "TIMESTAMP"
  | some .revert => .plain "REVERT"
  | some .stop => .plain "STOP"
  | _ => .unknown

/-- A line of the disassembly, and the offset of its instruction. -/
structure Line where
  offset : ℕ
  text : Bytes

/-- `std::setw(4)` with `std::setfill('0')`. -/
def setw4 (text : Bytes) : Bytes := List.replicate (4 - text.length) 48 ++ text

/-- The line of an instruction.  `std::hex` stays on the stream: once it is written, the offsets are in
base 16 too. -/
def line (hex : Bool) (i : ℕ) (text : Bytes) : Line where
  offset := i
  text := setw4 (if hex then hexText i else decimal i) ++ ascii ": " ++ text ++ ascii "\n"

/-- The loop of `disassemble` from an offset. -/
def linesFrom (hex : Bool) (i : ℕ) : Bytes → List Line
  | [] => []
  | op :: rest =>
    match form (Opcode.ofByte op) with
    | .plain name => line hex i (ascii name) :: linesFrom hex (i + 1) rest
    | .unknown =>
      line hex i (ascii "UNKNOWN_OP (0x" ++ hexText op.toNat ++ ascii ")") :: linesFrom true (i + 1) rest
    | .operand name =>
      match rest with
      | [] => [line hex i (ascii name ++ ascii " <truncated>")]
      | b :: rest =>
        line hex i (ascii name ++ ascii " 0x" ++ hexText b.toNat) :: linesFrom true (i + 2) rest

/-- `disassemble`. -/
def disassemble (bytecode : Bytes) : Bytes := (linesFrom false 0 bytecode).flatMap Line.text

/-- The offsets at which `disassemble` starts an instruction. -/
def starts (bytecode : Bytes) : List ℕ := (linesFrom false 0 bytecode).map Line.offset

-- behind the first operand the offsets are no longer decimal
example : disassemble [0x01, 0x2a, 0xA0, 0x50] =
    ascii "0000: PUSH1 0x2a\n0002: ADD\n0003: UNKNOWN_OP (0x50)\n" := by decide

/-- The bytes that `disassemble` reads for an opcode. -/
def lineLength (op : UInt8) : ℕ :=
  match form (Opcode.ofByte op) with
  | .operand _ => 2
  | _ => 1

/-- One line, and those from the next instruction on. -/
theorem reached_lineLength {code : Bytes} {i : ℕ} {op : UInt8} {rest : Bytes}
    (hdrop : code.drop i = op :: rest) (j : ℕ) :
    Sweep.Reached (Sweep.follow lineLength code) (Sweep.inside code i) j ↔
      j = i ∨ Sweep.Reached (Sweep.follow lineLength code) (Sweep.inside code (i + lineLength op)) j := by
  have hop : code[i]? = some op := by
    rw [← List.head?_drop, hdrop]
    rfl
  have hlt : i < code.length := (List.getElem?_eq_some_iff.mp hop).1
  have hinside : Sweep.inside code i = some i := Sweep.inside_eq_some.mpr ⟨hlt, rfl⟩
  rw [hinside, Sweep.reached_some_iff, Sweep.follow, hop, Option.bind_some]

/-- The loop cuts the code by `lineLength`. -/
theorem mem_linesFrom {code : Bytes} (hex : Bool) (i : ℕ) (suffix : Bytes)
    (hdrop : code.drop i = suffix) (j : ℕ) :
    j ∈ (linesFrom hex i suffix).map Line.offset ↔
      Sweep.Reached (Sweep.follow lineLength code) (Sweep.inside code i) j := by
  have hbehind : ∀ {i : ℕ} (front rest : Bytes), code.drop i = front ++ rest →
      code.drop (i + front.length) = rest := by
    intro i front rest hfront
    rw [← List.drop_drop, hfront, List.drop_left]
  fun_induction linesFrom hex i suffix with
  | case1 hex i =>
    have hend : Sweep.inside code i = none := if_neg (by rw [List.drop_eq_nil_iff] at hdrop; omega)
    rw [hend]
    exact iff_of_false List.not_mem_nil (Sweep.not_reached_none j)
  | case2 hex i op rest name hform ih =>
    have hlength : lineLength op = 1 := by rw [lineLength, hform]
    have hrest : code.drop (i + 1) = rest := hbehind [op] rest hdrop
    rw [reached_lineLength hdrop, hlength]
    exact List.mem_cons.trans (or_congr_right (ih hrest))
  | case3 hex i op rest hform ih =>
    have hlength : lineLength op = 1 := by rw [lineLength, hform]
    have hrest : code.drop (i + 1) = rest := hbehind [op] rest hdrop
    rw [reached_lineLength hdrop, hlength]
    exact List.mem_cons.trans (or_congr_right (ih hrest))
  | case4 hex i op name hform =>
    have hlength : lineLength op = 2 := by rw [lineLength, hform]
    have hsize : code.length ≤ i + 1 := by
      rw [← List.drop_eq_nil_iff]
      exact hbehind [op] [] hdrop
    have hend : Sweep.inside code (i + 2) = none := if_neg (by omega)
    rw [reached_lineLength hdrop, hlength, hend, or_iff_left (Sweep.not_reached_none j)]
    exact List.mem_singleton
  | case5 hex i op name hform b rest ih =>
    have hlength : lineLength op = 2 := by rw [lineLength, hform]
    have hrest : code.drop (i + 2) = rest := hbehind [op, b] rest hdrop
    rw [reached_lineLength hdrop, hlength]
    exact List.mem_cons.trans (or_congr_right (ih hrest))

theorem mem_starts (bytecode : Bytes) (i : ℕ) :
    i ∈ starts bytecode ↔
      Sweep.Reached (Sweep.follow lineLength bytecode) (Sweep.inside bytecode 0) i :=
  mem_linesFrom false 0 bytecode rfl i

/-! ## The virtual machine -/

/-- The bytes behind the opcode that `execute` reads. -/
def immediates : Opcode → ℕ
  | .push1 => 1
  | .push32 => 32
  | _ => 0

/-- The bytes that `execute` consumes for an opcode; it reads nothing behind an unknown one. -/
def vmLength (op : UInt8) : ℕ := 1 + ((Opcode.ofByte op).map immediates).getD 0

/-- The instruction boundaries of the virtual machine. -/
def Boundary (code : Bytes) : ℕ → Prop :=
  Sweep.Reached (Sweep.follow vmLength code) (Sweep.inside code 0)

theorem immediates_of_flow (op : Opcode) :
    immediates op =
      match op.flow with
      | .charges n => n
      | _ => 0 := by
  cases op <;> rfl

/-- The `switch` moves the program counter over the immediates, unless it jumps. -/
theorem execOpcode_immediates {G : GasSchedule} {clock : ℕ → UInt64} {code : Bytes} {c c' : Context}
    {op : Opcode} (hop : code[c.programCounter]?.bind Opcode.ofByte = some op)
    (h : execOpcode G clock code { c with programCounter := c.programCounter + 1 } op = .next c') :
    c'.programCounter = c.programCounter + 1 + immediates op ∨
      jumpTarget code c = some c'.programCounter := by
  by_cases hends : op.flow = .ends
  · cases op with
    | ret | stop =>
      cases h
      exact .inl rfl
    | revert => cases h
    | _ => cases hends
  · obtain ⟨hmoves, -⟩ := execOpcode_moves hop h
    rw [immediates_of_flow]
    generalize op.flow = flow at hmoves hends ⊢
    cases hmoves with
    | charged cost _ _ hpc => exact .inl hpc
    | passed _ _ hpc => exact .inl hpc
    | jumped _ _ htarget => exact .inr htarget
    | branched _ _ htarget => exact .inr htarget
    | fell _ _ hpc => exact .inl hpc
    | ended => exact absurd rfl hends

/-- **The boundaries are those of the runs**: a round that begins at one and does not jump leaves the
program counter at another, or behind the code. -/
theorem boundary_step {G : GasSchedule} {clock : ℕ → UInt64} {code : Bytes} {c c' : Context}
    (hc : Boundary code c.programCounter) (h : step G clock code c = .next c') :
    Boundary code c'.programCounter ∨ code.length ≤ c'.programCounter ∨
      jumpTarget code c = some c'.programCounter := by
  obtain ⟨op, hcurrent, -⟩ := step_next h
  rw [step_of_current hcurrent] at h
  have hop : code[c.programCounter]?.bind Opcode.ofByte = some op := by
    unfold Context.current at hcurrent
    split_ifs at hcurrent
    exact hcurrent
  rcases execOpcode_immediates hop h with hpc | htarget
  · obtain ⟨b, hb, hofByte⟩ := Option.bind_eq_some_iff.mp hop
    have hlength : c.programCounter + vmLength b = c'.programCounter := by
      rw [hpc, vmLength, hofByte, Option.map_some, Option.getD_some]
      omega
    by_cases hlt : c'.programCounter < code.length
    · have hnext : Sweep.follow vmLength code c.programCounter = some c'.programCounter := by
        rw [Sweep.follow, hb, Option.bind_some, hlength]
        exact Sweep.inside_eq_some.mpr ⟨hlt, rfl⟩
      exact .inl (hc.next hnext)
    · exact .inr (.inl (not_lt.mp hlt))
  · exact .inr (.inr htarget)

/-! ## The same boundaries -/

theorem lineLength_pos (op : UInt8) : 0 < lineLength op := by
  unfold lineLength
  split <;> decide

theorem vmLength_pos (op : UInt8) : 0 < vmLength op := by
  unfold vmLength
  omega

/-- The two read alike but for `PUSH32` and `JMPI`. -/
theorem lineLength_eq (op : UInt8) :
    lineLength op = vmLength op ∨ (op = Opcode.push32.byte ∧ lineLength op = 1 ∧ vmLength op = 33) ∨
      (op = Opcode.jmpi.byte ∧ lineLength op = 2 ∧ vmLength op = 1) := by
  have key : ∀ n < 256, lineLength (UInt8.ofNat n) = vmLength (UInt8.ofNat n) ∨
      (UInt8.ofNat n = Opcode.push32.byte ∧ lineLength (UInt8.ofNat n) = 1 ∧
        vmLength (UInt8.ofNat n) = 33) ∨
      (UInt8.ofNat n = Opcode.jmpi.byte ∧ lineLength (UInt8.ofNat n) = 2 ∧
        vmLength (UInt8.ofNat n) = 1) := by decide +kernel
  have hop := key op.toNat op.toNat_lt
  rwa [UInt8.ofNat_toNat] at hop

/-- At an offset in the code the two go on alike unless a `PUSH32` or a `JMPI` has a byte behind it. -/
theorem lineLength_agrees_iff {size i : ℕ} (hlt : i < size) (op : UInt8) :
    (lineLength op = vmLength op ∨ (size ≤ i + lineLength op ∧ size ≤ i + vmLength op)) ↔
      (op = Opcode.push32.byte ∨ op = Opcode.jmpi.byte → i + 1 = size) := by
  rcases lineLength_eq op with heq | ⟨rfl, hline, hvm⟩ | ⟨rfl, hline, hvm⟩
  · refine iff_of_true (.inl heq) ?_
    rintro (rfl | rfl)
    · exact absurd heq (by decide)
    · exact absurd heq (by decide)
  · rw [hline, hvm]
    simp
    omega
  · rw [hline, hvm]
    simp
    omega

/-- **The disassembler follows the machine exactly when** no instruction of the machine but one in the last
byte is a `PUSH32` or a `JMPI`. -/
theorem starts_iff (bytecode : Bytes) :
    (∀ i, i ∈ starts bytecode ↔ Boundary bytecode i) ↔
      ∀ i op, Boundary bytecode i → bytecode[i]? = some op →
        op = Opcode.push32.byte ∨ op = Opcode.jmpi.byte → i + 1 = bytecode.length := by
  simp only [mem_starts]
  refine (Sweep.reached_follow_iff vmLength_pos lineLength_pos bytecode).trans ?_
  constructor
  · intro h i op hi hop
    exact (lineLength_agrees_iff hi.lt_length op).mp (h i op hi hop)
  · intro h i op hi hop
    exact (lineLength_agrees_iff hi.lt_length op).mpr (h i op hi hop)

/-- The `STOP` behind a `JMPI` is an instruction of the machine, and an operand to the disassembler. -/
theorem jmpi_stop_starts :
    disassemble [0xE1, 0xFF] = ascii "0000: JMPI 0xff\n" ∧ starts [0xE1, 0xFF] = [0] ∧
      Boundary [0xE1, 0xFF] 1 ∧ ¬ ∀ i, i ∈ starts [0xE1, 0xFF] ↔ Boundary [0xE1, 0xFF] i := by
  have hboundary : Boundary [0xE1, 0xFF] 1 := (Sweep.Reached.first (i := 0) (by decide)).next (by decide)
  refine ⟨by decide, by decide, hboundary, fun h => ?_⟩
  exact absurd ((h 1).mpr hboundary) (by decide)

end Mermai.Merlite
