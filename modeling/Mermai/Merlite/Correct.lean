import Mermai.Lib.Run
import Mermai.Merlite.Program
import Mermai.Vm.Gas

/-!
# Merlite.Correct — what the code of a program stores

A program denotes a table: every variable it assigns has the number it assigned last.  The compiler
means the machine to end with that table in storage, by slots.  The machine runs the code of
every program to its end (`execute_code`), but each store has its operands the other way round: `SSTORE`
takes the key from the top of the stack, where the code has left the value.  So the table in storage is
that of the swapped pairs, cut to a byte each, and `storesValues_iff` says when the two are the same.
-/

namespace Mermai.Merlite

open Vm (Opcode Context GasSchedule Word)

/-! ## Gas -/

/-- There is gas left for `n`. -/
def HasGas (c : Context) (n : ℕ) : Prop := c.gasUsed.toNat + n ≤ c.gasLimit.toNat

theorem HasGas.checkGas {c : Context} {n : ℕ} (h : HasGas c (n + 1)) : c.checkGas 1 = true := by
  unfold HasGas at h
  have hlt := c.gasLimit.toNat_lt
  rw [Vm.checkGas_iff, UInt64.toNat_add, UInt64.toNat_one, Nat.mod_eq_of_lt (by omega)]
  omega

/-- With gas left, `gas_used` does not wrap. -/
theorem HasGas.charge {c : Context} {cost : UInt64} {n : ℕ} (h : HasGas c (cost.toNat + n)) :
    HasGas (c.charge cost) n := by
  unfold HasGas at *
  have hlt := c.gasLimit.toNat_lt
  show (c.gasUsed + cost).toNat + n ≤ c.gasLimit.toNat
  rw [UInt64.toNat_add, Nat.mod_eq_of_lt (by omega)]
  omega

/-! ## One store -/

section Store

variable (G : GasSchedule)

/-- The gas of one store. -/
def storeGas : ℕ := G.gasPush.toNat + (G.gasPush.toNat + G.gasSstore.toNat)

/-- The key and the value that the code of an assignment stores: the low bytes of the number and of
the slot. -/
def storedPair (slot : Bytes → UInt32) (a : Assignment) : UInt8 × UInt8 :=
  ((a.literal.read &&& 0xFF).toUInt8, (slot a.target).toUInt8)

/-- The bytes of the word that `PUSH1` makes of a byte. -/
def byteWord (b : UInt8) : Bytes := (Word.ofByte b).bytes

/-- The context behind the code of one store: the byte of the slot under the byte of the value. -/
def afterStore (c : Context) (slot : UInt32) (val : UInt64) : Context :=
  { c with
    programCounter := c.programCounter + 5
    storage := Run.write c.storage (byteWord (val &&& 0xFF).toUInt8, byteWord slot.toUInt8)
    gasUsed := c.gasUsed + G.gasPush + G.gasPush + G.gasSstore }

/-- The context behind the code of a list of stores. -/
def afterStores (c : Context) (ps : List (UInt32 × UInt64)) : Context :=
  ps.foldl (fun c p => afterStore G c p.1 p.2) c

variable {G} (clock : ℕ → UInt64) {code rest : Bytes} {c : Context}

/-- A round of `PUSH1`. -/
theorem step_push1 {b : UInt8} {n : ℕ} (hop : code[c.programCounter]? = some Opcode.push1.byte)
    (hb : code[c.programCounter + 1]? = some b) (hrun : c.halted = false) (hgas : HasGas c (n + 1)) :
    Vm.step G clock code c =
      .next (({ c with programCounter := c.programCounter + 2 }.push (Word.ofByte b)).charge
        G.gasPush) := by
  rw [Vm.step_opcode hop hrun hgas.checkGas]
  simp only [Vm.execOpcode, hb]

/-- **One store**: three rounds, after which there is gas for the rest. -/
theorem reaches_store {slot : UInt32} {val : UInt64} {n : ℕ}
    (hcode : code.drop c.programCounter = Pass.storeCode slot val ++ rest)
    (hrun : c.halted = false) (hgas : HasGas c (storeGas G + (n + 1))) :
    Machine.Reaches (Vm.step G clock code) c (afterStore G c slot val) ∧
      HasGas (afterStore G c slot val) (n + 1) := by
  have hbyte : ∀ i, code[c.programCounter + i]? = (Pass.storeCode slot val ++ rest)[i]? := by
    intro i
    rw [← hcode, List.getElem?_drop]
  unfold storeGas at hgas
  rw [Nat.add_assoc, Nat.add_assoc] at hgas
  -- the slot, then the value, which ends on top
  set c₁ := ({ c with programCounter := c.programCounter + 2 }.push
    (Word.ofByte slot.toUInt8)).charge G.gasPush with hc₁
  set c₂ := ({ c₁ with programCounter := c₁.programCounter + 2 }.push
    (Word.ofByte (val &&& 0xFF).toUInt8)).charge G.gasPush with hc₂
  have hgas₁ : HasGas c₁ (G.gasPush.toNat + (G.gasSstore.toNat + (n + 1))) := hgas.charge
  have hgas₂ : HasGas c₂ (G.gasSstore.toNat + (n + 1)) := hgas₁.charge
  have hgas₃ : HasGas (afterStore G c slot val) (n + 1) := hgas₂.charge
  have h₁ : Vm.step G clock code c = .next c₁ := step_push1 clock (hbyte 0) (hbyte 1) hrun hgas
  have h₂ : Vm.step G clock code c₁ = .next c₂ := step_push1 clock (hbyte 2) (hbyte 3) hrun hgas₁
  have hop : code[c₂.programCounter]? = some Opcode.sstore.byte := hbyte 4
  have h₃ : Vm.step G clock code c₂ = .next (afterStore G c slot val) := by
    rw [Vm.step_opcode hop hrun hgas₂.checkGas]
    rfl
  exact ⟨.head h₁ (.head h₂ (.single h₃)), hgas₃⟩

/-- Every store of a list, one after the other. -/
theorem reaches_stores (ps : List (UInt32 × UInt64)) {n : ℕ}
    (hcode : code.drop c.programCounter = ps.flatMap (fun p => Pass.storeCode p.1 p.2) ++ rest)
    (hrun : c.halted = false) (hgas : HasGas c (ps.length * storeGas G + (n + 1))) :
    Machine.Reaches (Vm.step G clock code) c (afterStores G c ps) ∧
      HasGas (afterStores G c ps) (n + 1) := by
  induction ps generalizing c with
  | nil =>
    rw [List.length_nil, Nat.zero_mul, Nat.zero_add] at hgas
    exact ⟨.refl, hgas⟩
  | cons p ps ih =>
    rw [List.flatMap_cons, List.append_assoc] at hcode
    rw [List.length_cons, Nat.succ_mul, Nat.add_comm (ps.length * _), Nat.add_assoc] at hgas
    obtain ⟨hreach, hgas'⟩ := reaches_store clock hcode hrun hgas
    have hcode' : code.drop (afterStore G c p.1 p.2).programCounter =
        ps.flatMap (fun p => Pass.storeCode p.1 p.2) ++ rest := by
      show code.drop (c.programCounter + 5) = _
      rw [← List.drop_drop, hcode]
      rfl
    obtain ⟨hreach', hgas''⟩ := ih hcode' hrun hgas'
    exact ⟨hreach.trans hreach', hgas''⟩

/-- The stores leave the stack alone and move behind their code. -/
theorem afterStores_frame (ps : List (UInt32 × UInt64)) :
    (afterStores G c ps).stack = c.stack ∧ (afterStores G c ps).halted = c.halted ∧
      (afterStores G c ps).programCounter =
        c.programCounter + (ps.flatMap fun p => Pass.storeCode p.1 p.2).length ∧
      (afterStores G c ps).storage = (ps.map fun p =>
        (byteWord (p.2 &&& 0xFF).toUInt8, byteWord p.1.toUInt8)).foldl Run.write c.storage := by
  induction ps generalizing c with
  | nil => exact ⟨rfl, rfl, rfl, rfl⟩
  | cons p ps ih =>
    obtain ⟨hstack, hhalted, hcounter, hstorage⟩ := ih (c := afterStore G c p.1 p.2)
    refine ⟨hstack, hhalted, hcounter.trans ?_, hstorage⟩
    rw [List.flatMap_cons, List.length_append, ← Nat.add_assoc]
    rfl

/-- The code behind the stores is what the machine goes on with. -/
theorem afterStores_drop {ps : List (UInt32 × UInt64)}
    (hcode : code.drop c.programCounter = ps.flatMap (fun p => Pass.storeCode p.1 p.2) ++ rest) :
    code.drop (afterStores G c ps).programCounter = rest := by
  obtain ⟨-, -, hcounter, -⟩ := afterStores_frame (G := G) (c := c) ps
  rw [hcounter, ← List.drop_drop, hcode, List.drop_left]

/-- A round of `STOP` at the end of the code, and the end of the run. -/
theorem execute_stop {ctx : Context} (hcode : code.drop c.programCounter = [Opcode.stop.byte])
    (hreach : Machine.Reaches (Vm.step G clock code) ctx.start c) (hrun : c.halted = false)
    (hgas : HasGas c 1) :
    ∃ fuel, Vm.execute G clock code ctx fuel =
      some (.returned true, { c with programCounter := c.programCounter + 1, halted := true }) := by
  have hbyte : ∀ i, code[c.programCounter + i]? = [Opcode.stop.byte][i]? := by
    intro i
    rw [← hcode, List.getElem?_drop]
  set stopped : Context := { c with programCounter := c.programCounter + 1, halted := true }
  have hop : code[c.programCounter]? = some Opcode.stop.byte := hbyte 0
  have hstop : Vm.step G clock code c = .next stopped := Vm.step_opcode hop hrun hgas.checkGas
  have hend : Vm.step G clock code stopped = .stop (.returned true, stopped) := by
    have hnone : code[stopped.programCounter]? = none := hbyte 1
    unfold Vm.step
    rw [hnone]
  exact Machine.Reaches.run_eq (hreach.tail hstop) hend

end Store

/-! ## The whole code -/

/-- The slots and the numbers of the assignments of a program. -/
def Program.storePairs (prog : Program) : List (UInt32 × UInt64) :=
  prog.assignments.map fun a => (prog.slot a.target, a.literal.read)

/-- The machine runs the code of a program to its end. -/
theorem execute_code (prog : Program) (G : GasSchedule) (clock : ℕ → UInt64) {ctx : Context}
    (hgas : HasGas ctx (prog.assignments.length * storeGas G + 1)) :
    ∃ fuel final, Vm.execute G clock prog.code ctx fuel = some (.returned true, final) ∧
      final.storage = ((prog.assignments.map (storedPair prog.slot)).map
        (Prod.map byteWord byteWord)).foldl Run.write ctx.storage := by
  have hall : prog.code.drop ctx.start.programCounter =
      prog.storePairs.flatMap (fun p => Pass.storeCode p.1 p.2) ++ [Opcode.stop.byte] := by
    rw [Program.storePairs, List.flatMap_map]
    rfl
  have hstart : HasGas ctx.start (prog.storePairs.length * storeGas G + (0 + 1)) := by
    rw [Program.storePairs, List.length_map]
    exact hgas
  obtain ⟨hreach, hgas'⟩ := reaches_stores clock prog.storePairs hall rfl hstart
  obtain ⟨-, hrun, -, hstorage⟩ := afterStores_frame (G := G) (c := ctx.start) prog.storePairs
  obtain ⟨fuel, hfuel⟩ := execute_stop clock (afterStores_drop hall) hreach hrun hgas'
  refine ⟨fuel, _, hfuel, ?_⟩
  show (afterStores G ctx.start prog.storePairs).storage = _
  rw [hstorage, Program.storePairs, List.map_map, List.map_map]
  rfl

/-! ## The table of a program -/

namespace Program

variable (prog : Program)

/-- The number that a program assigns last to a variable. -/
def lastValue : Bytes → Option ℕ :=
  Run.written (prog.assignments.map fun a => (a.target, a.literal.value))

/-- Storage has, for exactly the assigned variables, the word of the last value under the word of the
slot. -/
def StoresValues (layout : Bytes → Option UInt32) (storage : Bytes → Option Bytes) : Prop :=
  ∀ key value, storage key = some value ↔ ∃ x slot m, layout x = some slot ∧
    prog.lastValue x = some m ∧ key = Codec.writeBE 32 slot.toNat ∧ value = Codec.writeBE 32 m

/-- The pairs of an assignment the other way round: the number, as the compiler reads it, and the slot,
cut to a byte each. -/
def swapped : List (ℕ × ℕ) :=
  prog.assignments.map fun a => (a.literal.read.toNat % 256, (prog.slot a.target).toNat % 256)

/-- The variable of a slot has this last value. -/
def Denotes (slot m : ℕ) : Prop := ∃ x, (prog.slot x).toNat = slot ∧ prog.lastValue x = some m

/-- The swapped pairs make the table of slots and last values. -/
def Symmetric : Prop := ∀ slot m, prog.Denotes slot m ↔ Run.written prog.swapped slot = some m

theorem lastValue_spec {x : Bytes} {m : ℕ} (h : prog.lastValue x = some m) :
    x ∈ prog.declarations.map Declaration.name ∧ m < 2 ^ 64 := by
  obtain ⟨a, ha, heq⟩ := List.mem_map.mp (Run.mem_of_written h)
  cases heq
  exact ⟨prog.declared a ha, a.literal.small⟩

theorem swapped_eq : prog.swapped =
    (prog.assignments.map (storedPair prog.slot)).map (Prod.map UInt8.toNat UInt8.toNat) := by
  rw [swapped, List.map_map]
  refine List.map_congr_left ?_
  intro a _
  have hmask : a.literal.read.toNat % 256 &&& 255 = a.literal.read.toNat % 256 := by
    have := Nat.and_two_pow_sub_one_eq_mod (a.literal.read.toNat % 256) 8
    rwa [Nat.mod_mod_of_dvd _ (by decide)] at this
  simp [storedPair, hmask]

/-- The bytes in storage are the words of the swapped table. -/
theorem stored_iff {key value : Bytes} :
    Run.written ((prog.assignments.map (storedPair prog.slot)).map (Prod.map byteWord byteWord)) key =
        some value ↔
      ∃ k m, Run.written prog.swapped k = some m ∧ Codec.writeBE 32 k = key ∧
        Codec.writeBE 32 m = value := by
  have hinj : Function.Injective byteWord := by
    intro b b' h
    exact List.singleton_inj.mp (List.append_cancel_left h)
  rw [Run.written_map hinj, swapped_eq]
  simp only [Run.written_map fun _ _ => UInt8.toNat_inj.mp, byteWord, Word.ofByte_bytes]
  constructor
  · rintro ⟨b, c, h, hkey, hvalue⟩
    exact ⟨_, _, ⟨b, c, h, rfl, rfl⟩, hkey, hvalue⟩
  · rintro ⟨_, _, ⟨b, c, h, rfl, rfl⟩, hkey, hvalue⟩
    exact ⟨b, c, h, hkey, hvalue⟩

theorem swapped_lt {k m : ℕ} (h : Run.written prog.swapped k = some m) :
    k < 2 ^ 64 ∧ m < 2 ^ 64 := by
  obtain ⟨a, -, heq⟩ := List.mem_map.mp (Run.mem_of_written h)
  cases heq
  omega

theorem denotes_lt {k m : ℕ} (h : prog.Denotes k m) : k < 2 ^ 64 ∧ m < 2 ^ 64 := by
  obtain ⟨x, rfl, hx⟩ := h
  exact ⟨(prog.slot x).toNat_lt.trans (by decide), (prog.lastValue_spec hx).2⟩

/-- With the layout of the compiler, the words in storage are those of the slots and last values. -/
theorem storesValues_iff {layout : Bytes → Option UInt32}
    (hlayout : ∀ x, layout x =
      if x ∈ prog.declarations.map Declaration.name then some (prog.slot x) else none)
    (storage : Bytes → Option Bytes) :
    prog.StoresValues layout storage ↔ ∀ key value, storage key = some value ↔
      Relation.Map prog.Denotes (Codec.writeBE 32) (Codec.writeBE 32) key value := by
  unfold StoresValues
  refine forall_congr' fun key => forall_congr' fun value => iff_congr Iff.rfl ?_
  constructor
  · rintro ⟨x, slot, m, hslot, hm, rfl, rfl⟩
    rw [hlayout, if_pos (prog.lastValue_spec hm).1] at hslot
    cases hslot
    exact ⟨_, m, ⟨x, rfl, hm⟩, rfl, rfl⟩
  · rintro ⟨_, m, ⟨x, rfl, hm⟩, rfl, rfl⟩
    exact ⟨x, prog.slot x, m, by rw [hlayout, if_pos (prog.lastValue_spec hm).1], hm, rfl, rfl⟩

end Program

/-- Words of numbers below 2⁶⁴ are different for different numbers. -/
theorem word_inj {m n : ℕ} (hm : m < 2 ^ 64) (hn : n < 2 ^ 64)
    (h : Codec.writeBE 32 m = Codec.writeBE 32 n) : m = n := by
  have hmod := congrArg Codec.ofBE h
  rw [Codec.ofBE_writeBE, Codec.ofBE_writeBE] at hmod
  rwa [Nat.mod_eq_of_lt (hm.trans (by decide)), Nat.mod_eq_of_lt (hn.trans (by decide))] at hmod

/-- Two relations on such numbers with the same words are the same. -/
theorem words_iff {R S : ℕ → ℕ → Prop} (hR : ∀ k m, R k m → k < 2 ^ 64 ∧ m < 2 ^ 64)
    (hS : ∀ k m, S k m → k < 2 ^ 64 ∧ m < 2 ^ 64) :
    (∀ key value, Relation.Map R (Codec.writeBE 32) (Codec.writeBE 32) key value ↔
      Relation.Map S (Codec.writeBE 32) (Codec.writeBE 32) key value) ↔ ∀ k m, R k m ↔ S k m := by
  have hback : ∀ {T : ℕ → ℕ → Prop}, (∀ k m, T k m → k < 2 ^ 64 ∧ m < 2 ^ 64) → ∀ {k m : ℕ},
      k < 2 ^ 64 → m < 2 ^ 64 →
      Relation.Map T (Codec.writeBE 32) (Codec.writeBE 32) (Codec.writeBE 32 k)
        (Codec.writeBE 32 m) → T k m := by
    rintro T hT k m hk hm ⟨k', m', h, hkey, hvalue⟩
    obtain ⟨hk', hm'⟩ := hT k' m' h
    rwa [word_inj hk' hk hkey, word_inj hm' hm hvalue] at h
  constructor
  · intro h k m
    constructor
    · intro hr
      exact hback hS (hR k m hr).1 (hR k m hr).2 ((h _ _).mp ⟨k, m, hr, rfl, rfl⟩)
    · intro hs
      exact hback hR (hS k m hs).1 (hS k m hs).2 ((h _ _).mpr ⟨k, m, hs, rfl, rfl⟩)
  · intro h key value
    simp only [Relation.Map, h]

/-! ## The stores that the assignments denote -/

/-- A run from an empty storage ends with the last values exactly when the tables are the same. -/
theorem storesValues_of_run {prog : Program} {s : Bytes} (hs : LaidOut prog.lexemes s)
    {G : GasSchedule} {clock : ℕ → UInt64} {ctx final : Context}
    (hempty : ctx.storage = fun _ => none)
    (hgas : HasGas ctx (prog.assignments.length * storeGas G + 1)) {fuel : ℕ}
    (hrun : Vm.execute G clock (compile s).bytecode ctx fuel = some (.returned true, final)) :
    prog.StoresValues (compile s).storageLayout final.storage ↔ prog.Symmetric := by
  obtain ⟨-, -, hcode, hlayout⟩ := compile_eq hs
  obtain ⟨fuel', final', hrun', hstorage⟩ := execute_code prog G clock hgas
  rw [hcode] at hrun
  cases Machine.run_unique hrun hrun'
  rw [prog.storesValues_iff hlayout, hstorage, hempty, Run.foldl_write]
  simp only [Option.or_none, prog.stored_iff]
  exact (words_iff (fun _ _ => prog.swapped_lt) fun _ _ => prog.denotes_lt).trans
    (forall_congr' fun _ => forall_congr' fun _ => Iff.comm)

/-- **Compiled stores**: compiled and run with enough gas on an empty storage, a program ends with its
last values under their slots exactly when its swapped pairs make the same table. -/
theorem compiled_stores_iff {prog : Program} {s : Bytes} (hs : LaidOut prog.lexemes s)
    (G : GasSchedule) (clock : ℕ → UInt64) {ctx : Context} (hempty : ctx.storage = fun _ => none)
    (hgas : HasGas ctx (prog.assignments.length * storeGas G + 1)) :
    ((compile s).success = true ∧ ∃ fuel final,
      Vm.execute G clock (compile s).bytecode ctx fuel = some (.returned true, final) ∧
        prog.StoresValues (compile s).storageLayout final.storage) ↔ prog.Symmetric := by
  obtain ⟨hsuccess, -, hcode, -⟩ := compile_eq hs
  constructor
  · rintro ⟨-, fuel, final, hrun, hstores⟩
    exact (storesValues_of_run hs hempty hgas hrun).mp hstores
  · intro hsym
    obtain ⟨fuel, final, hrun, -⟩ := execute_code prog G clock hgas
    rw [← hcode] at hrun
    exact ⟨hsuccess, fuel, final, hrun, (storesValues_of_run hs hempty hgas hrun).mpr hsym⟩

/-- A number of one digit. -/
def digitLiteral (d : Fin 10) : Literal where
  text := [chr '0' + d.val.toUInt8]
  number := .inl ⟨by simp, by decide +revert +kernel⟩
  small := by decide +revert +kernel

/-- A contract with two variables, which get a digit each. -/
def twoDigits (first second : Fin 10) : Program where
  name := ascii "C"
  declarations := [⟨.scalar .uint256, ascii "x"⟩, ⟨.scalar .uint256, ascii "y"⟩]
  isPublic := true
  function := ascii "set"
  parameters := []
  returns := none
  assignments := [⟨ascii "x", digitLiteral first⟩, ⟨ascii "y", digitLiteral second⟩]
  distinct := by decide
  declared := by simp
  closed := by simp

example : (twoDigits 7 0).print =
    ascii "contract C \x7b \nstate uint256 x ;\nstate uint256 y ;\n" ++
      ascii "pub fn set ( ) \x7b \nx = 7 ;\ny = 0 ;\n\x7d \n\x7d \n" := by
  decide +kernel

theorem twoDigits_laidOut (first second : Fin 10) :
    LaidOut (twoDigits first second).lexemes (twoDigits first second).print := by
  refine Program.laidOut_print ?_
  decide +revert +kernel

theorem twoDigits_denotes {first second : Fin 10} {slot m : ℕ} :
    (twoDigits first second).Denotes slot m ↔
      (slot = 0 ∧ m = first.val) ∨ (slot = 1 ∧ m = second.val) := by
  have hvalue : ∀ d : Fin 10, (digitLiteral d).value = d.val := by decide +kernel
  have hx : ((twoDigits first second).slot (ascii "x")).toNat = 0 := rfl
  have hy : ((twoDigits first second).slot (ascii "y")).toNat = 1 := rfl
  have hxy : ascii "x" ≠ ascii "y" := by decide
  have hlast : ∀ x, (twoDigits first second).lastValue x =
      if x = ascii "y" then some second.val else if x = ascii "x" then some first.val else none := by
    intro x
    rw [← hvalue first, ← hvalue second]
    exact (Run.written_concat [_] _ x).trans
      (congrArg (ite _ _) (Run.written_concat [] _ x))
  unfold Program.Denotes
  constructor
  · rintro ⟨x, rfl, hm⟩
    rw [hlast] at hm
    split_ifs at hm with h h' <;> subst x <;> cases hm
    · exact .inr ⟨hy, rfl⟩
    · exact .inl ⟨hx, rfl⟩
  · rintro (⟨rfl, rfl⟩ | ⟨rfl, rfl⟩)
    · exact ⟨ascii "x", hx, by rw [hlast, if_neg hxy, if_pos rfl]⟩
    · exact ⟨ascii "y", hy, by rw [hlast, if_pos rfl]⟩

theorem twoDigits_written (first second : Fin 10) (slot : ℕ) :
    Run.written (twoDigits first second).swapped slot =
      if slot = second.val then some 1 else if slot = first.val then some 0 else none := by
  have hswapped : (twoDigits first second).swapped = [(first.val, 0), (second.val, 1)] := by
    decide +revert +kernel
  rw [hswapped]
  exact (Run.written_concat [_] _ slot).trans (congrArg (ite _ _) (Run.written_concat [] _ slot))

theorem hasGas_twoDigits : HasGas { gasLimit := 1000000 } (2 * storeGas Vm.explorerGas + 1) := by
  unfold HasGas
  decide

/-- `x = 1` and `y = 0`, in the slots 0 and 1. -/
theorem compiled_stores_swap :
    (compile (twoDigits 1 0).print).success = true ∧ ∃ fuel final,
      Vm.execute Vm.explorerGas (fun _ => 0) (compile (twoDigits 1 0).print).bytecode
        { gasLimit := 1000000 } fuel = some (.returned true, final) ∧
      (twoDigits 1 0).StoresValues (compile (twoDigits 1 0).print).storageLayout final.storage := by
  refine (compiled_stores_iff (twoDigits_laidOut 1 0) Vm.explorerGas (fun _ => 0) rfl
    hasGas_twoDigits).mpr ?_
  intro slot m
  rw [twoDigits_denotes, twoDigits_written]
  simp only [Fin.val_zero, Fin.val_one]
  split_ifs with h0 h1
  · simp [h0, eq_comm]
  · simp [h1, eq_comm]
  · simp [h0, h1]

/-- `x = 7` and `y = 0`: storage ends with slot 0 under the key 7, and slot 1 under the key 0. -/
theorem seven_not_stored :
    LaidOut (twoDigits 7 0).lexemes (twoDigits 7 0).print ∧
      HasGas { gasLimit := 1000000 }
        ((twoDigits 7 0).assignments.length * storeGas Vm.explorerGas + 1) ∧
      ¬ ((compile (twoDigits 7 0).print).success = true ∧ ∃ fuel final,
        Vm.execute Vm.explorerGas (fun _ => 0) (compile (twoDigits 7 0).print).bytecode
          { gasLimit := 1000000 } fuel = some (.returned true, final) ∧
        (twoDigits 7 0).StoresValues (compile (twoDigits 7 0).print).storageLayout
          final.storage) := by
  refine ⟨twoDigits_laidOut 7 0, hasGas_twoDigits, ?_⟩
  rintro ⟨-, fuel, final, hrun, hstores⟩
  have hsym := (storesValues_of_run (twoDigits_laidOut 7 0) rfl hasGas_twoDigits hrun).mp hstores
  have hzero := (hsym 0 7).mp (twoDigits_denotes.mpr (.inl ⟨rfl, rfl⟩))
  rw [twoDigits_written] at hzero
  cases hzero

end Mermai.Merlite
