import Mermai.Vm.Machine
import Mathlib.Data.Prod.Lex

/-!
# Vm.Gas — which executions end

`check_gas` charges nothing, and a dozen opcodes charge nothing either, the jumps among them.  So a
contract can run in a loop without spending gas, as long as the loop leaves the stack as high as it
found it.  The code that a jump lands on decides: `freeReach` follows it up to the jumps it can reach
without a charge, and gives the height of the stack at the highest of them.

The measure of `runMeasure_lt` falls lexicographically: a charge lowers the gas that is left, a
jump lowers the height at which the next free jump can land, and every other step moves forward.
-/

namespace Mermai.Vm

/-! ## What an opcode does to the run -/

/-- The effect of an opcode on the gas, the height of the stack and the program counter. -/
inductive Flow
  /-- Charges gas and skips the bytes behind the opcode. -/
  | charges (immediates : ℕ)
  /-- Charges nothing, and changes the height of the stack. -/
  | free (effect : ℤ)
  /-- `JMP`, which takes a word from the stack. -/
  | jumps
  /-- `JMPI`, which takes two. -/
  | branches
  | ends
deriving DecidableEq

def Opcode.flow : Opcode → Flow
  | .push1 => .charges 1
  | .push32 => .charges 32
  | .push0 | .add | .sub | .mul | .div | .mod | .sload | .sstore => .charges 0
  | .pop | .lt | .gt | .eq => .free (-1)
  | .mstore => .free (-2)
  | .swap1 | .mload => .free 0
  | .dup1 | .caller | .callvalue | .timestamp | .gaslimit => .free 1
  | .jmp => .jumps
  | .jmpi => .branches
  | .ret | .revert | .stop => .ends

def GasSchedule.costs (G : GasSchedule) : List UInt64 :=
  [G.gasPush, G.gasAdd, G.gasMul, G.gasSload, G.gasSstore]

/-- Where the opcode at the program counter jumps to, if it does. -/
def jumpTarget (code : Bytes) (c : Context) : Option ℕ :=
  match code[c.programCounter]?.bind Opcode.ofByte, c.stack with
  | some .jmp, target :: _ => some target.low.toNat
  | some .jmpi, target :: condition :: _ =>
    if condition ≠ Word.zero then some target.low.toNat else none
  | _, _ => none

/-- A round that moves on, by the flow of its opcode. -/
inductive Moves (G : GasSchedule) (code : Bytes) (c c' : Context) : Flow → Prop
  | charged {n : ℕ} (cost : UInt64) : cost ∈ G.costs → c'.gasUsed = c.gasUsed + cost →
      c'.programCounter = c.programCounter + 1 + n → Moves G code c c' (.charges n)
  | passed {e : ℤ} : c'.gasUsed = c.gasUsed → (c'.stack.length : ℤ) = c.stack.length + e →
      c'.programCounter = c.programCounter + 1 → Moves G code c c' (.free e)
  | jumped : c'.gasUsed = c.gasUsed → (c'.stack.length : ℤ) = c.stack.length - 1 →
      jumpTarget code c = some c'.programCounter → Moves G code c c' .jumps
  | branched : c'.gasUsed = c.gasUsed → (c'.stack.length : ℤ) = c.stack.length - 2 →
      jumpTarget code c = some c'.programCounter → Moves G code c c' .branches
  | fell : c'.gasUsed = c.gasUsed → (c'.stack.length : ℤ) = c.stack.length - 2 →
      c'.programCounter = c.programCounter + 1 → Moves G code c c' .branches
  | ended : c'.halted = true → Moves G code c c' .ends

section Step

variable {G : GasSchedule} {clock : ℕ → UInt64} {code : Bytes} {c c' : Context}

theorem binary_next {cost : UInt64} {f : Word → Word → Word} (h : binary cost f c = .next c') :
    c'.gasLimit = c.gasLimit ∧ c'.gasUsed = c.gasUsed + cost ∧ c'.programCounter = c.programCounter ∧
      (c'.stack.length : ℤ) = c.stack.length + -1 := by
  unfold binary at h
  split at h
  · rename_i b a stack hs
    cases h
    exact ⟨rfl, rfl, rfl, by simp [Context.charge, hs]⟩
  · cases h

theorem divide_next {f : UInt64 → UInt64 → UInt64} (h : divide G f c = .next c') :
    c'.gasLimit = c.gasLimit ∧ c'.gasUsed = c.gasUsed + G.gasAdd ∧ c'.programCounter = c.programCounter := by
  unfold divide at h
  split at h
  · split_ifs at h
    · cases h
      exact ⟨rfl, rfl, rfl⟩
    · cases h
      exact ⟨rfl, rfl, rfl⟩
  · cases h

theorem jump_next {target : ℕ} (h : c.jump code target = .next c') :
    c' = { c with programCounter := target } := by
  unfold Context.jump at h
  split_ifs at h
  · cases h
    rfl
  · cases h

/-- **Inversion** of the `switch`. -/
theorem execOpcode_moves {op : Opcode} (hop : code[c.programCounter]?.bind Opcode.ofByte = some op)
    (h : execOpcode G clock code { c with programCounter := c.programCounter + 1 } op = .next c') :
    Moves G code c c' op.flow ∧ c'.gasLimit = c.gasLimit := by
  have hpush : G.gasPush ∈ G.costs := by simp [GasSchedule.costs]
  have hadd : G.gasAdd ∈ G.costs := by simp [GasSchedule.costs]
  have hmul : G.gasMul ∈ G.costs := by simp [GasSchedule.costs]
  have hsload : G.gasSload ∈ G.costs := by simp [GasSchedule.costs]
  have hsstore : G.gasSstore ∈ G.costs := by simp [GasSchedule.costs]
  cases op with
  | push0 =>
    cases h
    exact ⟨.charged _ hpush rfl rfl, rfl⟩
  | push1 =>
    simp only [execOpcode] at h
    split at h
    · cases h
    · cases h
      exact ⟨.charged _ hpush rfl rfl, rfl⟩
  | push32 =>
    simp only [execOpcode] at h
    split at h
    · cases h
      exact ⟨.charged _ hpush rfl rfl, rfl⟩
    · cases h
  | add | sub =>
    obtain ⟨hk, hg, hp, -⟩ := binary_next h
    exact ⟨.charged _ hadd hg hp, hk⟩
  | mul =>
    obtain ⟨hk, hg, hp, -⟩ := binary_next h
    exact ⟨.charged _ hmul hg hp, hk⟩
  | div | mod =>
    obtain ⟨hk, hg, hp⟩ := divide_next h
    exact ⟨.charged _ hadd hg hp, hk⟩
  | lt | gt | eq =>
    obtain ⟨hk, hg, hp, hs⟩ := binary_next h
    exact ⟨.passed (by rw [hg, UInt64.add_zero]) hs hp, hk⟩
  | pop =>
    simp only [execOpcode] at h
    split at h
    · cases h
    · rename_i w stack hs
      cases h
      exact ⟨.passed rfl (by simp [hs]) rfl, rfl⟩
  | dup1 =>
    simp only [execOpcode] at h
    split at h
    · cases h
    · cases h
      exact ⟨.passed rfl (by simp [Context.push]) rfl, rfl⟩
  | swap1 =>
    simp only [execOpcode] at h
    split at h
    · rename_i b a stack hs
      cases h
      exact ⟨.passed rfl (by simp [hs]) rfl, rfl⟩
    · cases h
  | mload =>
    simp only [execOpcode] at h
    split at h
    · cases h
    · rename_i w stack hs
      split at h
      · cases h
      · cases h
        exact ⟨.passed rfl (by simp [Context.push, hs]) rfl, rfl⟩
  | mstore =>
    simp only [execOpcode, Context.storeWordToMemory] at h
    split at h
    · rename_i offset value stack hs
      split at h
      · cases h
      · rename_i c'' hc
        cases h
        split_ifs at hc
        cases hc
        exact ⟨.passed rfl (by simp [hs]; omega) rfl, rfl⟩
    · cases h
  | sload =>
    simp only [execOpcode] at h
    split at h
    · cases h
    · cases h
      exact ⟨.charged _ hsload rfl rfl, rfl⟩
  | sstore =>
    simp only [execOpcode] at h
    split at h
    · cases h
      exact ⟨.charged _ hsstore rfl rfl, rfl⟩
    · cases h
  | jmp =>
    simp only [execOpcode] at h
    split at h
    · cases h
    · rename_i target stack hs
      cases jump_next h
      exact ⟨.jumped rfl (by simp [hs]) (by simp [jumpTarget, hop, hs]), rfl⟩
  | jmpi =>
    simp only [execOpcode] at h
    split at h
    · rename_i target condition stack hs
      split_ifs at h with hcond
      · cases jump_next h
        exact ⟨.branched rfl (by simp [hs]; omega) (by simp [jumpTarget, hop, hs, hcond]), rfl⟩
      · cases h
        exact ⟨.fell rfl (by simp [hs]; omega) rfl, rfl⟩
    · cases h
  | caller | callvalue | timestamp | gaslimit =>
    cases h
    exact ⟨.passed rfl (by simp [Context.push]) rfl, rfl⟩
  | ret | stop =>
    cases h
    exact ⟨.ended rfl, rfl⟩
  | revert => cases h

/-- **Inversion** of a round that moves on. -/
theorem step_moves (h : step G clock code c = .next c') :
    ∃ b, code[c.programCounter]? = some b ∧ c.halted = false ∧ c.checkGas 1 = true ∧
      ∃ op, Opcode.ofByte b = some op ∧ Moves G code c c' op.flow ∧
        c'.gasLimit = c.gasLimit := by
  unfold step at h
  split at h
  · cases h
  · rename_i b hb
    by_cases hhalt : c.halted = true
    · rw [if_pos hhalt] at h
      cases h
    by_cases hgas : c.checkGas 1 = true
    · rw [if_neg hhalt, if_neg (not_not.mpr hgas)] at h
      split at h
      · cases h
      · rename_i op hop
        have hbind : code[c.programCounter]?.bind Opcode.ofByte = some op := by rw [hb]; exact hop
        exact ⟨b, hb, Bool.eq_false_iff.mpr hhalt, hgas, op, hop, execOpcode_moves hbind h⟩
    · rw [if_neg hhalt, if_pos hgas] at h
      cases h

end Step

/-! ## Free loops -/

/-- The highest jump that the code reaches without a charge: the change of the height of the stack
up to it, its own words included. -/
def freeReach : Bytes → Option ℤ
  | [] => none
  | b :: rest =>
    match (Opcode.ofByte b).map Opcode.flow with
    | some (.free e) => (freeReach rest).map (e + ·)
    | some .jumps => some (-1)
    -- a branch that is not taken falls through without its two words
    | some .branches => some (max 0 ((freeReach rest).getD 0) - 2)
    | _ => none

/-- Every jump that the code at an offset reaches without a charge leaves the stack lower. -/
def Shrinks (code : Bytes) (p : ℕ) : Prop := ∀ r ∈ freeReach (code.drop p), r < 0

instance (code : Bytes) (p : ℕ) : Decidable (Shrinks code p) :=
  inferInstanceAs (Decidable (∀ r ∈ freeReach (code.drop p), r < 0))

/-- A gas limit that `gas_used` cannot step over by wrapping around. -/
def GasSchedule.Bounds (G : GasSchedule) (gasLimit : UInt64) : Prop :=
  ∀ cost ∈ G.costs, gasLimit.toNat + cost.toNat < 2 ^ 64

instance (G : GasSchedule) (gasLimit : UInt64) : Decidable (G.Bounds gasLimit) :=
  List.decidableBAll (fun cost : UInt64 => gasLimit.toNat + cost.toNat < 2 ^ 64) G.costs

/-- A jump from `c` to `c'` lands where free jumps shrink the stack, under a sound limit. -/
def MeteredJump (G : GasSchedule) (code : Bytes) (c c' : Context) : Prop :=
  jumpTarget code c = some c'.programCounter →
    Shrinks code c'.programCounter ∧ G.Bounds c.gasLimit

/-- Every jump that the run takes from a state on is metered. -/
def MeteredFrom (G : GasSchedule) (clock : ℕ → UInt64) (code : Bytes) (start : Context) : Prop :=
  ∀ c c', Machine.Reaches (step G clock code) start c → step G clock code c = .next c' →
    MeteredJump G code c c'

/-! ## The measure -/

/-- One more than the height at which a jump can land, and 0 when there is none. -/
def landing (height : ℕ) : Option ℤ → ℕ
  | none => 0
  | some r => (height + r + 1).toNat

def Context.gasLeft (c : Context) : ℕ := c.gasLimit.toNat + 1 - (c.gasUsed + 1).toNat

/-- The measure: gas, then the height of the next landing, then the code ahead. -/
def runMeasure (code : Bytes) (c : Context) : ℕ ×ₗ ℕ ×ₗ ℕ :=
  if c.halted then toLex (0, toLex (0, 0))
  else toLex (c.gasLeft, toLex (landing c.stack.length (freeReach (code.drop c.programCounter)),
    code.length - c.programCounter))

section Measure

variable {G : GasSchedule} {clock : ℕ → UInt64} {code : Bytes} {c c' : Context}

theorem checkGas_iff : c.checkGas 1 = true ↔ (c.gasUsed + 1).toNat ≤ c.gasLimit.toNat := by
  rw [Context.checkGas, decide_eq_true_eq, UInt64.le_iff_toNat_le]

/-- A charge that does not wrap lowers the gas that is left. -/
theorem gasLeft_charge {cost : UInt64} (hgas : c.checkGas 1 = true) (hmem : cost ∈ G.costs)
    (hbound : G.Bounds c.gasLimit) (hlimit : c'.gasLimit = c.gasLimit)
    (hused : c'.gasUsed = c.gasUsed + cost) : c'.gasLeft < c.gasLeft := by
  have hle := checkGas_iff.mp hgas
  have hsum := hbound cost hmem
  have hpos : 0 < cost.toNat := UInt64.lt_iff_toNat_lt.mp (G.pos cost hmem)
  have hcharge : (c'.gasUsed + 1).toNat = (c.gasUsed + 1).toNat + cost.toNat := by
    have hcomm : c'.gasUsed + 1 = c.gasUsed + 1 + cost := by
      rw [hused, UInt64.add_assoc, UInt64.add_comm cost 1, ← UInt64.add_assoc]
    rw [hcomm, UInt64.toNat_add, Nat.mod_eq_of_lt (by omega)]
  rw [Context.gasLeft, Context.gasLeft, hlimit, hcharge]
  omega

theorem landing_add {h h' : ℕ} {e : ℤ} (he : (h' : ℤ) = h + e) (r : Option ℤ) :
    landing h (r.map (e + ·)) = landing h' r := by
  cases r with
  | none => rfl
  | some r =>
    simp only [Option.map_some, landing, he]
    ring_nf

/-- A branch that is not taken leaves the landings behind it. -/
theorem landing_fell {h h' : ℕ} (he : (h' : ℤ) = h - 2) (r : Option ℤ) :
    landing h' r ≤ landing h (some (max 0 (r.getD 0) - 2)) := by
  cases r with
  | none => exact Nat.zero_le _
  | some r =>
    simp only [landing, Option.getD_some]
    omega

/-- A landing in code that shrinks the stack comes below the height of the stack. -/
theorem landing_le {p : ℕ} (h : Shrinks code p) (height : ℕ) :
    landing height (freeReach (code.drop p)) ≤ height := by
  cases hr : freeReach (code.drop p) with
  | none => exact Nat.zero_le _
  | some r =>
    have := h r hr
    simp only [landing]
    omega

/-- **One round** lowers the measure, when the jump it takes is metered. -/
theorem runMeasure_lt (hbound : G.Bounds c.gasLimit) (hjump : MeteredJump G code c c')
    (h : step G clock code c = .next c') : runMeasure code c' < runMeasure code c := by
  obtain ⟨b, hb, hhalt, hgas, op, hop, hmoves, hlimit⟩ := step_moves h
  have hlt : c.programCounter < code.length := (List.getElem?_eq_some_iff.mp hb).1
  have hleft : 0 < c.gasLeft := by
    have := checkGas_iff.mp hgas
    simp only [Context.gasLeft]
    omega
  by_cases hend : c'.halted = true
  · rw [runMeasure, if_pos hend, runMeasure, hhalt, if_neg Bool.false_ne_true]
    exact Prod.Lex.toLex_lt_toLex.mpr (.inl hleft)
  have hreach : freeReach (code.drop c.programCounter) =
      freeReach (b :: code.drop (c.programCounter + 1)) :=
    congrArg freeReach (drop_of_getElem? hb)
  have hsame : c'.gasUsed = c.gasUsed → c'.gasLeft = c.gasLeft := by
    intro hused
    rw [Context.gasLeft, Context.gasLeft, hlimit, hused]
  rw [runMeasure, if_neg hend, runMeasure, hhalt, if_neg Bool.false_ne_true, hreach]
  simp only [freeReach, hop, Option.map_some]
  generalize op.flow = flow at hmoves ⊢
  cases hmoves with
  | charged cost hmem hused hpc =>
    exact Prod.Lex.toLex_lt_toLex.mpr (.inl (gasLeft_charge hgas hmem hbound hlimit hused))
  | passed hused hstack hpc =>
    refine Prod.Lex.toLex_lt_toLex.mpr (.inr ⟨hsame hused, ?_⟩)
    refine Prod.Lex.toLex_lt_toLex.mpr (.inr ⟨?_, ?_⟩)
    · rw [hpc]
      exact (landing_add hstack _).symm
    · rw [hpc]
      exact Nat.sub_succ_lt_self _ _ hlt
  | jumped hused hstack htarget =>
    refine Prod.Lex.toLex_lt_toLex.mpr (.inr ⟨hsame hused, ?_⟩)
    refine Prod.Lex.toLex_lt_toLex.mpr (.inl ?_)
    refine (landing_le (hjump htarget).1 c'.stack.length).trans_lt ?_
    simp only [landing]
    omega
  | branched hused hstack htarget =>
    refine Prod.Lex.toLex_lt_toLex.mpr (.inr ⟨hsame hused, ?_⟩)
    refine Prod.Lex.toLex_lt_toLex.mpr (.inl ?_)
    refine (landing_le (hjump htarget).1 c'.stack.length).trans_lt ?_
    simp only [landing]
    omega
  | fell hused hstack hpc =>
    refine Prod.Lex.toLex_lt_toLex.mpr (.inr ⟨hsame hused, ?_⟩)
    have hle := landing_fell hstack (freeReach (code.drop (c.programCounter + 1)))
    refine Prod.Lex.toLex_lt_toLex.mpr (hle.lt_or_eq.imp ?_ ?_)
    · intro hlanding
      rw [hpc]
      exact hlanding
    · intro hlanding
      rw [hpc]
      exact ⟨hlanding, Nat.sub_succ_lt_self _ _ hlt⟩
  | ended hhalted => exact absurd hhalted hend

end Measure

/-! ## Termination -/

/-- A run without jumps only moves forward. -/
theorem programCounter_lt {G : GasSchedule} {clock : ℕ → UInt64} {code : Bytes} {c c' : Context}
    (hjump : jumpTarget code c ≠ some c'.programCounter) (h : step G clock code c = .next c') :
    c.programCounter < code.length ∧ (c.programCounter < c'.programCounter ∨ c'.halted = true) := by
  obtain ⟨b, hb, -, -, op, -, hmoves, -⟩ := step_moves h
  refine ⟨(List.getElem?_eq_some_iff.mp hb).1, ?_⟩
  generalize op.flow = flow at hmoves
  cases hmoves with
  | charged cost hmem hused hpc => exact .inl (by omega)
  | passed hused hstack hpc => exact .inl (by omega)
  | jumped hused hstack htarget => exact absurd htarget hjump
  | branched hused hstack htarget => exact absurd htarget hjump
  | fell hused hstack hpc => exact .inl (by omega)
  | ended hhalted => exact .inr hhalted

theorem gasLimit_of_reaches {G : GasSchedule} {clock : ℕ → UInt64} {code : Bytes} {c c' : Context}
    (h : Machine.Reaches (step G clock code) c c') : c'.gasLimit = c.gasLimit := by
  refine h.invariant (fun t => t.gasLimit = c.gasLimit) rfl fun t t' ht hstep => ?_
  obtain ⟨-, -, -, -, -, -, -, hkeep⟩ := step_moves hstep
  rw [hkeep, ht]

/-- **Metered runs end**: a charge lowers the gas and a metered jump the stack. -/
theorem halts_of_meteredFrom {G : GasSchedule} {clock : ℕ → UInt64} {code : Bytes} {start : Context}
    (h : MeteredFrom G clock code start) : Machine.Halts (step G clock code) start := by
  by_cases hbound : G.Bounds start.gasLimit
  · refine Machine.halts_of_measure wellFounded_lt (runMeasure code) ?_
    intro c c' hc hstep
    exact runMeasure_lt (gasLimit_of_reaches hc ▸ hbound) (h c c' hc hstep) hstep
  · -- the limit is no bound, so the run takes no jump
    refine Machine.halts_of_measure wellFounded_lt
      (fun c => if c.halted then 0 else code.length - c.programCounter) fun c c' hc hstep => ?_
    have hjump : jumpTarget code c ≠ some c'.programCounter := fun htarget =>
      hbound (gasLimit_of_reaches hc ▸ (h c c' hc hstep htarget).2)
    obtain ⟨-, -, hhalt, -⟩ := step_moves hstep
    obtain ⟨hlt, hpc⟩ := programCounter_lt hjump hstep
    simp only [hhalt, Bool.false_eq_true, if_false]
    split_ifs with hend
    · omega
    · have := hpc.resolve_right hend
      omega

theorem jumpTarget_lt {code : Bytes} {c : Context} {p : ℕ} (h : jumpTarget code c = some p) :
    p < 256 := by
  unfold jumpTarget at h
  split at h
  · cases h
    exact UInt8.toNat_lt _
  · split at h
    · cases h
      exact UInt8.toNat_lt _
    · cases h
  · cases h

/-- **Termination**: `execute` returns exactly when it reaches a state from which on every jump it
takes is metered; whatever the context, it does when no offset that a jump can name starts a free
loop and `gas_used` cannot wrap past the limit. -/
theorem execute_terminates (G : GasSchedule) (clock : ℕ → UInt64) (code : Bytes) (ctx : Context) :
    ((∃ fuel r, execute G clock code ctx fuel = some r) ↔
      ∃ c, Machine.Reaches (step G clock code) ctx.start c ∧ MeteredFrom G clock code c) ∧
    ((∀ p < 256, Shrinks code p) → G.Bounds ctx.gasLimit →
      ∃ fuel r, execute G clock code ctx fuel = some r) := by
  refine ⟨⟨fun h => ?_, ?_⟩, fun hshrinks hbound => halts_of_meteredFrom ?_⟩
  · obtain ⟨c, r, hc, hstop⟩ := Machine.Halts.last h
    refine ⟨c, hc, ?_⟩
    intro t t' ht hstep
    rw [ht.eq_of_stop hstop, hstop] at hstep
    cases hstep
  · rintro ⟨c, hc, hmetered⟩
    exact (halts_of_meteredFrom hmetered).of_reaches hc
  · intro c c' hc hstep htarget
    have hlimit : c.gasLimit = ctx.start.gasLimit := gasLimit_of_reaches hc
    exact ⟨hshrinks _ (jumpTarget_lt htarget), hlimit ▸ hbound⟩

/-- The prices of the explorer. -/
def explorerGas : GasSchedule where
  gasPush := 3
  gasAdd := 3
  gasMul := 5
  gasSload := 50
  gasSstore := 20000
  pos := by simp

/-- `PUSH1 0 JMP` runs in a loop until the gas is spent. -/
theorem execute_terminates_push :
    ∃ fuel r, execute explorerGas (fun _ => 0) [0x01, 0x00, 0xE0] { gasLimit := 1000000 } fuel =
      some r :=
  (execute_terminates explorerGas _ _ _).2 (by decide +kernel) (by decide +kernel)

/-- `CALLER JMP`. -/
def callerLoop : Bytes := [0xF0, 0xE0]

/-- A caller whose address has byte 31 zero, or fewer bytes, keeps `CALLER JMP` in a loop under any
gas limit. -/
theorem callerLoop_runs (G : GasSchedule) (clock : ℕ → UInt64) {ctx : Context}
    (hcaller : (Word.ofFront ctx.callerAddress).low = 0) (hgas : ctx.checkGas 1 = true) :
    ¬ Machine.Halts (step G clock callerLoop) ctx.start := by
  have hcheck : ¬ ¬ ctx.checkGas 1 = true := not_not.mpr hgas
  let looped : Context := { ctx.start with
    programCounter := 1, stack := Word.ofFront ctx.callerAddress :: ctx.stack }
  refine Machine.not_halts_of_invariant (fun c => c = ctx.start ∨ c = looped) (fun c hc => ?_)
    (.inl rfl)
  rcases hc with rfl | rfl
  · exact ⟨looped, if_neg hcheck, .inr rfl⟩
  · refine ⟨ctx.start, ?_, .inl rfl⟩
    have hjump : step G clock callerLoop looped =
        { looped with programCounter := 2, stack := ctx.stack }.jump callerLoop
          (Word.ofFront ctx.callerAddress).low.toNat := if_neg hcheck
    rw [hjump, hcaller]
    rfl

theorem callerLoop_forever :
    ¬ ∃ fuel r, execute explorerGas (fun _ => 0) callerLoop { gasLimit := 1000000 } fuel = some r :=
  callerLoop_runs explorerGas _ (by decide +kernel) (by decide +kernel)

end Mermai.Vm
