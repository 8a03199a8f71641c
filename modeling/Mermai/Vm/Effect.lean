import Mermai.Lib.Run
import Mermai.Vm.Gas

/-!
# Vm.Effect — what a round leaves behind

The effect of a round on the gas, the storage and the memory, and the one way in which the processor
traps (`Effect`); it is the same for every opcode but for its price and for what `SSTORE` writes.  Three
questions about whole runs are read off it: when no division traps, what a run that fails leaves in the
storage, and when a run that succeeds has spent no more than its limit.
-/

namespace Mermai.Vm

/-! ## One opcode -/

/-- What a case of the `switch` adds to `gas_used`. -/
def Opcode.price (G : GasSchedule) : Opcode → UInt64
  | .push0 | .push1 | .push32 => G.gasPush
  | .add | .sub | .div | .mod => G.gasAdd
  | .mul => G.gasMul
  | .sload => G.gasSload
  | .sstore => G.gasSstore
  | _ => 0

/-- What a case of the `switch` writes to the storage. -/
def Opcode.writes : Opcode → List Word → List (Bytes × Bytes)
  | .sstore, key :: value :: _ => [(key.bytes, value.bytes)]
  | _, _ => []

/-- What a case of the `switch` can do. -/
inductive Effect (G : GasSchedule) (c : Context) (op : Opcode) : Step → Prop
  | moves {c' : Context} : c'.gasUsed = c.gasUsed + op.price G → c'.gasLimit = c.gasLimit →
      c'.storage = (op.writes c.stack).foldl Run.write c.storage →
      c'.memory.length = c.memory.length → Effect G c op (.next c')
  | fails {c' : Context} : c'.storage = c.storage → c'.memory.length = c.memory.length →
      Effect G c op (.stop (.returned false, c'))
  | traps {divisor dividend : Word} {stack : List Word} : op = .div ∨ op = .mod →
      c.stack = divisor :: dividend :: stack → divisor ≠ Word.zero → divisor.toUInt64 = 0 →
      Effect G c op (.stop (.trapped, { c with stack }))

section Opcode

variable {G : GasSchedule} {clock : ℕ → UInt64} {code : Bytes} {c : Context}

theorem fail_effect (op : Opcode) : Effect G c op c.fail := .fails rfl rfl

theorem binary_effect {op : Opcode} (f : Word → Word → Word)
    (hwrites : op.writes c.stack = []) : Effect G c op (binary (op.price G) f c) := by
  unfold binary
  split
  · exact .moves rfl rfl (by rw [hwrites]; rfl) rfl
  · exact fail_effect op

theorem divide_effect {op : Opcode} (f : UInt64 → UInt64 → UInt64) (hop : op = .div ∨ op = .mod) :
    Effect G c op (divide G f c) := by
  have hprice : op.price G = G.gasAdd := by rcases hop with rfl | rfl <;> rfl
  have hwrites : op.writes c.stack = [] := by rcases hop with rfl | rfl <;> rfl
  unfold divide
  split
  · rename_i divisor dividend stack hs
    split_ifs with hzero htrap
    · exact .moves (by rw [hprice]; rfl) rfl (by rw [hwrites]; rfl) rfl
    · exact .traps hop hs hzero htrap
    · exact .moves (by rw [hprice]; rfl) rfl (by rw [hwrites]; rfl) rfl
  · exact fail_effect op

theorem free_effect {op : Opcode} {c' : Context} (hfree : op.price G = 0)
    (hwrites : op.writes c.stack = []) (hgas : c'.gasUsed = c.gasUsed)
    (hlimit : c'.gasLimit = c.gasLimit) (hstorage : c'.storage = c.storage)
    (hmemory : c'.memory.length = c.memory.length) : Effect G c op (.next c') := by
  refine .moves ?_ hlimit ?_ hmemory
  · rw [hgas, hfree, UInt64.add_zero]
  · rw [hstorage, hwrites]
    rfl

theorem jump_effect {op : Opcode} {stack : List Word} (hfree : op.price G = 0)
    (hwrites : op.writes c.stack = []) (target : ℕ) :
    Effect G c op ({ c with stack }.jump code target) := by
  unfold Context.jump
  split_ifs
  · exact free_effect hfree hwrites rfl rfl rfl rfl
  · exact .fails rfl rfl

theorem storeWordToMemory_some {c' : Context} {offset : ℕ} {w : Word}
    (h : c.storeWordToMemory offset w = some c') :
    c'.gasUsed = c.gasUsed ∧ c'.gasLimit = c.gasLimit ∧ c'.storage = c.storage ∧
      c'.memory.length = c.memory.length := by
  unfold Context.storeWordToMemory at h
  split_ifs at h with hin
  cases h
  refine ⟨rfl, rfl, rfl, ?_⟩
  simp only [List.length_append, List.length_take, List.length_drop, w.length_eq]
  omega

/-- **The effect** of every case of the `switch`. -/
theorem execOpcode_effect (op : Opcode) : Effect G c op (execOpcode G clock code c op) := by
  cases op with
  | push0 => exact .moves rfl rfl rfl rfl
  | caller | callvalue | timestamp | gaslimit | ret | stop =>
    exact free_effect rfl rfl rfl rfl rfl rfl
  | revert => exact .fails rfl rfl
  | add | mul | sub | lt | gt | eq => exact binary_effect _ rfl
  | div => exact divide_effect _ (.inl rfl)
  | mod => exact divide_effect _ (.inr rfl)
  | push1 =>
    simp only [execOpcode]
    split
    · exact fail_effect _
    · exact .moves rfl rfl rfl rfl
  | push32 =>
    simp only [execOpcode]
    split_ifs
    · exact .moves rfl rfl rfl rfl
    · exact fail_effect _
  | pop =>
    simp only [execOpcode]
    split
    · exact fail_effect _
    · exact free_effect rfl rfl rfl rfl rfl rfl
  | dup1 =>
    simp only [execOpcode]
    split
    · exact .fails rfl rfl
    · exact free_effect rfl rfl rfl rfl rfl rfl
  | swap1 =>
    simp only [execOpcode]
    split
    · exact free_effect rfl rfl rfl rfl rfl rfl
    · exact fail_effect _
  | mload =>
    simp only [execOpcode]
    split
    · exact fail_effect _
    · split
      · exact .fails rfl rfl
      · exact free_effect rfl rfl rfl rfl rfl rfl
  | mstore =>
    simp only [execOpcode]
    split
    · split
      · exact .fails rfl rfl
      · rename_i hstore
        obtain ⟨hgas, hlimit, hstorage, hmemory⟩ := storeWordToMemory_some hstore
        exact free_effect rfl rfl hgas hlimit hstorage hmemory
    · exact fail_effect _
  | sload =>
    simp only [execOpcode]
    split
    · exact fail_effect _
    · exact .moves rfl rfl rfl rfl
  | sstore =>
    simp only [execOpcode]
    split
    · rename_i key value stack hs
      refine .moves rfl rfl ?_ rfl
      rw [hs]
      rfl
    · exact fail_effect _
  | jmp =>
    simp only [execOpcode]
    split
    · exact fail_effect _
    · exact jump_effect rfl rfl _
  | jmpi =>
    simp only [execOpcode]
    split
    · split_ifs
      · exact jump_effect rfl rfl _
      · exact free_effect rfl rfl rfl rfl rfl rfl
    · exact fail_effect _

end Opcode

/-! ## One round -/

/-- The opcode that the next round executes. -/
def Context.current (code : Bytes) (c : Context) : Option Opcode :=
  if c.halted ∨ ¬ c.checkGas 1 then none else code[c.programCounter]?.bind Opcode.ofByte

/-- What a round can do. -/
inductive Round (G : GasSchedule) (code : Bytes) (c : Context) : Step → Prop
  | ended : c.current code = none → c.halted = true ∨ code.length ≤ c.programCounter →
      Round G code c (.stop (.returned true, c))
  /-- Out of gas, or no opcode. -/
  | refused {c' : Context} : c.current code = none → c'.storage = c.storage →
      c'.memory.length = c.memory.length → Round G code c (.stop (.returned false, c'))
  | executed {op : Opcode} {s : Step} : c.current code = some op →
      Effect G { c with programCounter := c.programCounter + 1 } op s → Round G code c s

section Round

variable {G : GasSchedule} {clock : ℕ → UInt64} {code : Bytes} {c c' : Context}

theorem step_of_current {op : Opcode} (h : c.current code = some op) :
    step G clock code c =
      execOpcode G clock code { c with programCounter := c.programCounter + 1 } op := by
  unfold Context.current at h
  split_ifs at h with hstop
  rw [not_or, not_not] at hstop
  obtain ⟨b, hb, hop⟩ := Option.bind_eq_some_iff.mp h
  unfold step
  rw [hb]
  dsimp only
  rw [if_neg hstop.1, if_neg (not_not.mpr hstop.2), hop]

/-- **Inversion** of a round. -/
theorem step_round (c : Context) : Round G code c (step G clock code c) := by
  cases hop : c.current code with
  | some op =>
    rw [step_of_current hop]
    exact .executed hop (execOpcode_effect op)
  | none =>
    have hcurrent := hop
    unfold Context.current at hop
    unfold step
    cases hb : code[c.programCounter]? with
    | none => exact .ended hcurrent (.inr (List.getElem?_eq_none_iff.mp hb))
    | some b =>
      dsimp only
      by_cases hhalt : c.halted = true
      · rw [if_pos hhalt]
        exact .ended hcurrent (.inl hhalt)
      rw [if_neg hhalt]
      by_cases hgas : c.checkGas 1 = true
      · rw [if_neg (by simp [hhalt, hgas]), hb] at hop
        rw [if_neg (not_not.mpr hgas), show Opcode.ofByte b = none from hop]
        exact .refused hcurrent rfl rfl
      · rw [if_pos hgas]
        exact .refused hcurrent rfl rfl

theorem round_of_step {s : Step} (h : step G clock code c = s) : Round G code c s := h ▸ step_round c

theorem step_next (h : step G clock code c = .next c') :
    ∃ op, c.current code = some op ∧ c'.gasUsed = c.gasUsed + op.price G ∧
      c'.gasLimit = c.gasLimit ∧ c'.storage = (op.writes c.stack).foldl Run.write c.storage ∧
      c'.memory.length = c.memory.length := by
  cases round_of_step h with
  | executed hop heffect =>
    cases heffect with
    | moves hgas hlimit hstorage hmemory => exact ⟨_, hop, hgas, hlimit, hstorage, hmemory⟩

theorem step_stop {o : Outcome} (h : step G clock code c = .stop (o, c')) :
    c'.storage = c.storage ∧ c'.memory.length = c.memory.length := by
  cases round_of_step h with
  | ended => exact ⟨rfl, rfl⟩
  | refused _ hstorage hmemory => exact ⟨hstorage, hmemory⟩
  | executed _ heffect =>
    cases heffect with
    | fails hstorage hmemory => exact ⟨hstorage, hmemory⟩
    | traps => exact ⟨rfl, rfl⟩

/-- `execute` returns true only where its loop is over. -/
theorem step_returned_true (h : step G clock code c = .stop (.returned true, c')) :
    c' = c ∧ c.current code = none ∧ (c.halted = true ∨ code.length ≤ c.programCounter) := by
  cases round_of_step h with
  | ended hcurrent hend => exact ⟨rfl, hcurrent, hend⟩
  | executed _ heffect => cases heffect

/-! ## Division -/

/-- A round traps exactly at a division by a word that is not zero and whose last eight bytes are. -/
theorem step_trapped_iff :
    (∃ c', step G clock code c = .stop (.trapped, c')) ↔
    ∃ op divisor dividend stack, c.current code = some op ∧ (op = .div ∨ op = .mod) ∧
      c.stack = divisor :: dividend :: stack ∧ divisor ≠ Word.zero ∧ divisor.toUInt64 = 0 := by
  constructor
  · rintro ⟨c', h⟩
    cases round_of_step h with
    | executed hop heffect =>
      cases heffect with
      | traps hdiv hs hzero htrap => exact ⟨_, _, _, _, hop, hdiv, hs, hzero, htrap⟩
  · rintro ⟨op, divisor, dividend, stack, hop, hdiv, hs, hzero, htrap⟩
    have hdivide : ∀ f, divide G f { c with programCounter := c.programCounter + 1 } =
        .stop (.trapped, { c with programCounter := c.programCounter + 1, stack }) := by
      intro f
      rw [divide, hs]
      dsimp only
      rw [if_neg hzero, if_pos htrap]
    refine ⟨{ c with programCounter := c.programCounter + 1, stack }, ?_⟩
    rw [step_of_current hop]
    rcases hdiv with rfl | rfl
    · exact hdivide _
    · exact hdivide _

end Round

section Run

variable (G : GasSchedule) (clock : ℕ → UInt64) (code : Bytes) (ctx : Context)

/-- **Traps**: no round of a run divides by zero exactly when every divisor that `DIV` or `MOD` meets
is the zero word or has a byte other than zero among its last eight. -/
theorem never_traps_iff :
    (∀ c c', Machine.Reaches (step G clock code) ctx.start c →
      step G clock code c ≠ .stop (.trapped, c')) ↔
    ∀ c op divisor dividend stack, Machine.Reaches (step G clock code) ctx.start c →
      c.current code = some op → op = .div ∨ op = .mod → c.stack = divisor :: dividend :: stack →
      divisor = Word.zero ∨ ∃ b ∈ divisor.bytes.drop 24, b ≠ 0 := by
  have hbytes : ∀ w : Word, (∃ b ∈ w.bytes.drop 24, b ≠ 0) ↔ w.toUInt64 ≠ 0 := by
    intro w
    rw [ne_eq, Word.toUInt64_eq_zero_iff]
    simp only [not_forall, exists_prop, ne_eq]
  constructor
  · intro h c op divisor dividend stack hc hop hdiv hs
    rw [hbytes]
    by_contra hbad
    rw [not_or, not_not] at hbad
    obtain ⟨c', htrap⟩ := (step_trapped_iff (G := G)).mpr
      ⟨op, divisor, dividend, stack, hop, hdiv, hs, hbad.1, hbad.2⟩
    exact h c c' hc htrap
  · intro h c c' hc htrap
    obtain ⟨op, divisor, dividend, stack, hop, hdiv, hs, hzero, hlow⟩ :=
      step_trapped_iff.mp ⟨c', htrap⟩
    rcases h c op divisor dividend stack hc hop hdiv hs with hw | hw
    · exact hzero hw
    · exact (hbytes divisor).mp hw hlow

/-- `PUSH1 1 PUSH32 2⁶⁴ DIV`. -/
def divideTrap : Bytes := [0x01, 0x01, 0x1F] ++ Codec.writeBE 32 (2 ^ 64) ++ [0xA3]

theorem divideTrap_traps :
    ¬ ∀ c c', Machine.Reaches (step explorerGas (fun _ => 0) divideTrap)
      (Context.start { gasLimit := 1000 }) c →
        step explorerGas (fun _ => 0) divideTrap c ≠ .stop (.trapped, c') := by
  have hrun : (execute explorerGas (fun _ => 0) divideTrap { gasLimit := 1000 } 3).map Prod.fst =
      some .trapped := by decide +kernel
  obtain ⟨⟨o, c'⟩, hr, rfl⟩ := Option.map_eq_some_iff.mp hrun
  obtain ⟨c, hc, hstop⟩ := Machine.reaches_of_run hr
  exact fun h => h c c' hc hstop

/-! ## Storage -/

/-- What the next round writes to the storage. -/
def Context.stores (code : Bytes) (c : Context) : List (Bytes × Bytes) :=
  match c.current code with
  | none => []
  | some op => op.writes c.stack

/-- The `SSTORE`s of a run, in order. -/
def storesOf (fuel : ℕ) : List (Bytes × Bytes) :=
  Machine.trace (step G clock code) (Context.stores code) fuel ctx.start

/-- However a run ends, its storage is the one it started with and what it stored. -/
theorem execute_storage {fuel : ℕ} {o : Outcome} {c' : Context}
    (h : execute G clock code ctx fuel = some (o, c')) :
    c'.storage = (storesOf G clock code ctx fuel).foldl Run.write ctx.storage := by
  refine Machine.run_foldl_trace Context.storage (fun r => r.2.storage)
    (fun t t' hstep => ?_) (fun t r hstep => ?_) h
  · obtain ⟨op, hop, -, -, hstorage, -⟩ := step_next hstep
    rw [hstorage, Context.stores, hop]
  · exact (step_stop hstep).1

/-- **Failed runs**: when `execute` returns false, the storage is the one the machine was built with,
overwritten by the `SSTORE`s of the run; it is as before exactly when the last `SSTORE` under every key
wrote what was there. -/
theorem execute_false_storage (fuel : ℕ) {c' : Context}
    (h : execute G clock code ctx fuel = some (.returned false, c')) :
    (∀ key, c'.storage key =
      (Run.written (storesOf G clock code ctx fuel) key).or (ctx.storage key)) ∧
    (c'.storage = ctx.storage ↔ ∀ key value,
      Run.written (storesOf G clock code ctx fuel) key = some value →
        ctx.storage key = some value) := by
  have hstorage := execute_storage G clock code ctx h
  rw [Run.foldl_write] at hstorage
  refine ⟨fun key => congrFun hstorage key, ?_⟩
  rw [hstorage, funext_iff]
  refine forall_congr' fun key => ?_
  cases Run.written (storesOf G clock code ctx fuel) key with
  | none => simp
  | some value => simp [eq_comm]

/-- `PUSH0 PUSH0 SSTORE REVERT`. -/
def storeRevert : Bytes := [0x00, 0x00, 0xD1, 0xE4]

theorem storeRevert_keeps :
    ∃ fuel c', execute explorerGas (fun _ => 0) storeRevert { gasLimit := 1000000 } fuel =
      some (.returned false, c') ∧ c'.storage ≠ (Context.storage { gasLimit := 1000000 }) := by
  refine ⟨4, _, rfl, fun h => ?_⟩
  exact absurd (congrFun h Word.zero.bytes) (by decide +kernel)

theorem storeRevert_storage :
    ∃ c', execute explorerGas (fun _ => 0) storeRevert { gasLimit := 1000000 } 4 =
      some (.returned false, c') ∧ c'.storage Word.zero.bytes = some Word.zero.bytes := by
  have hrun : (execute explorerGas (fun _ => 0) storeRevert { gasLimit := 1000000 } 4).map Prod.fst =
      some (.returned false) := by decide +kernel
  obtain ⟨⟨o, c'⟩, hr, rfl⟩ := Option.map_eq_some_iff.mp hrun
  have hstorage := (execute_false_storage explorerGas (fun _ => 0) storeRevert _ 4 hr).1
  exact ⟨c', hr, (hstorage Word.zero.bytes).trans (by decide +kernel)⟩

/-! ## Gas -/

/-- Every opcode of the run is charged no more than what is left. -/
def Covered : Prop :=
  ∀ c op, Machine.Reaches (step G clock code) ctx.start c → c.current code = some op →
    c.gasUsed.toNat + (op.price G).toNat ≤ c.gasLimit.toNat

theorem checkGas_of_current {c : Context} {op : Opcode} (h : c.current code = some op) :
    (c.gasUsed + 1).toNat ≤ c.gasLimit.toNat := by
  unfold Context.current at h
  split_ifs at h with hstop
  rw [not_or, not_not] at hstop
  exact checkGas_iff.mp hstop.2

variable {G clock code ctx}

/-- Covered charges never pass the limit. -/
theorem Covered.gasUsed_le (h : Covered G clock code ctx) (hzero : ctx.gasUsed = 0) {c : Context}
    (hc : Machine.Reaches (step G clock code) ctx.start c) : c.gasUsed.toNat ≤ c.gasLimit.toNat := by
  induction hc with
  | refl =>
    show ctx.gasUsed.toNat ≤ ctx.gasLimit.toNat
    rw [hzero]
    exact Nat.zero_le _
  | tail ht hstep ih =>
    rename_i t t'
    obtain ⟨op, hop, hgas, hlimit, -⟩ := step_next hstep
    have hcover := h t op ht hop
    have hlt := t.gasLimit.toNat_lt
    rw [hgas, hlimit, UInt64.toNat_add, Nat.mod_eq_of_lt (by omega)]
    exact hcover

theorem price_toNat_lt {gasLimit : UInt64} (hbound : G.Bounds gasLimit) (op : Opcode) :
    gasLimit.toNat + (op.price G).toNat < 2 ^ 64 := by
  have hfree : gasLimit.toNat + (0 : UInt64).toNat < 2 ^ 64 := gasLimit.toNat_lt
  cases op with
  | push0 | push1 | push32 | add | sub | div | mod | mul | sload | sstore =>
    exact hbound _ (by simp [Opcode.price, GasSchedule.costs])
  | _ => exact hfree

theorem gasUsed_add_one {c : Context} (h : c.gasUsed.toNat + 1 < 2 ^ 64) :
    (c.gasUsed + 1).toNat = c.gasUsed.toNat + 1 := by
  rw [UInt64.toNat_add]
  exact Nat.mod_eq_of_lt h

/-- A charge under a sound limit is exact, and leaves room for one more unit. -/
theorem gasUsed_charge {c : Context} {op : Opcode} (hbound : G.Bounds c.gasLimit)
    (hlt : c.gasUsed.toNat + 1 < 2 ^ 64) (hop : c.current code = some op) :
    (c.gasUsed + op.price G).toNat = c.gasUsed.toNat + (op.price G).toNat ∧
      c.gasUsed.toNat + (op.price G).toNat + 1 < 2 ^ 64 := by
  have hcheck := checkGas_of_current code hop
  have hprice := price_toNat_lt hbound op
  rw [gasUsed_add_one hlt] at hcheck
  rw [UInt64.toNat_add, Nat.mod_eq_of_lt (by omega)]
  omega

/-- Under a sound limit `gas_used` never comes to the end of its 64 bits. -/
theorem gasUsed_lt (hbound : G.Bounds ctx.gasLimit) (hzero : ctx.gasUsed = 0) {c : Context}
    (hc : Machine.Reaches (step G clock code) ctx.start c) : c.gasUsed.toNat + 1 < 2 ^ 64 := by
  induction hc with
  | refl =>
    show ctx.gasUsed.toNat + 1 < 2 ^ 64
    rw [hzero]
    decide
  | tail ht hstep ih =>
    obtain ⟨op, hop, hgas, -⟩ := step_next hstep
    have hlimit : G.Bounds _ := (gasLimit_of_reaches ht).symm ▸ hbound
    obtain ⟨hexact, hroom⟩ := gasUsed_charge hlimit ih hop
    rw [hgas, hexact]
    exact hroom

/-- The last state of a run that returns true. -/
theorem eq_of_stop_of_execute {fuel : ℕ} {c c' : Context} {r : Outcome × Context}
    (h : execute G clock code ctx fuel = some (.returned true, c'))
    (hc : Machine.Reaches (step G clock code) ctx.start c) (hstop : step G clock code c = .stop r) :
    c' = c ∧ c.current code = none := by
  obtain ⟨fuel', hr⟩ := hc.run_eq hstop
  obtain rfl := Machine.run_unique h hr
  obtain ⟨heq, hnone, -⟩ := step_returned_true hstop
  exact ⟨heq, hnone⟩

/-- **Gas**: a run of a machine with no gas used that returns true has spent no more than its limit when
every opcode is covered before it is executed, and only then as long as `gas_used` cannot wrap. -/
theorem execute_true_gas (hzero : ctx.gasUsed = 0) {fuel : ℕ} {c' : Context}
    (h : execute G clock code ctx fuel = some (.returned true, c')) :
    (Covered G clock code ctx → c'.gasUsed ≤ ctx.gasLimit) ∧
    (G.Bounds ctx.gasLimit → (c'.gasUsed ≤ ctx.gasLimit ↔ Covered G clock code ctx)) := by
  obtain ⟨t, ht, hstop⟩ := Machine.reaches_of_run h
  obtain ⟨rfl, -⟩ := eq_of_stop_of_execute h ht hstop
  have hend : c'.gasLimit = ctx.start.gasLimit := gasLimit_of_reaches ht
  have hcovered : Covered G clock code ctx → c'.gasUsed ≤ ctx.gasLimit := by
    intro hcover
    have hle := hcover.gasUsed_le hzero ht
    rw [hend] at hle
    exact UInt64.le_iff_toNat_le.mpr hle
  refine ⟨hcovered, fun hbound => ⟨fun hle c op hc hop => ?_, hcovered⟩⟩
  by_contra hover
  have hlimit : c.gasLimit = ctx.start.gasLimit := gasLimit_of_reaches hc
  cases hstep : step G clock code c with
  | stop r =>
    have hnone := (eq_of_stop_of_execute h hc hstep).2
    rw [hop] at hnone
    cases hnone
  | next d =>
    -- the charge passes the limit, so `check_gas` stops the machine at once
    obtain ⟨op', hop', hgas, hkeep, -⟩ := step_next hstep
    obtain rfl : op = op' := Option.some.inj (hop.symm.trans hop')
    have hd : Machine.Reaches (step G clock code) ctx.start d := hc.tail hstep
    have hexact := (gasUsed_charge (hlimit ▸ hbound) (gasUsed_lt hbound hzero hc) hop).1
    have hpast : ctx.start.gasLimit.toNat < d.gasUsed.toNat := by
      rw [hgas, hexact, ← hlimit]
      omega
    cases hstep' : step G clock code d with
    | next e =>
      obtain ⟨op', hop', -⟩ := step_next hstep'
      have hcheck := checkGas_of_current code hop'
      rw [gasUsed_add_one (gasUsed_lt hbound hzero hd), hkeep, hlimit] at hcheck
      omega
    | stop r =>
      obtain ⟨rfl, -⟩ := eq_of_stop_of_execute h hd hstep'
      exact absurd (UInt64.le_iff_toNat_le.mp hle) (not_le.mpr hpast)

/-- `PUSH0` under a limit of ten units. -/
theorem push0_within_limit :
    ∃ c', execute explorerGas (fun _ => 0) [0x00] { gasLimit := 10 } 2 =
      some (.returned true, c') ∧ c'.gasUsed ≤ 10 := by
  have hcovered : Covered explorerGas (fun _ => 0) [0x00] { gasLimit := 10 } := by
    intro c op hc hop
    rcases hc.cases_head with rfl | ⟨d, hd, hrest⟩
    · cases hop
      decide +kernel
    · cases hd
      have hlast := Machine.Reaches.eq_of_stop hrest rfl
      rw [hlast] at hop
      cases hop
  have hrun : (execute explorerGas (fun _ => 0) [0x00] { gasLimit := 10 } 2).map Prod.fst =
      some (.returned true) := by decide +kernel
  obtain ⟨⟨o, c'⟩, hr, rfl⟩ := Option.map_eq_some_iff.mp hrun
  exact ⟨c', hr, (execute_true_gas rfl hr).1 hcovered⟩

/-- `PUSH0` under a limit of one unit is charged three. -/
theorem push0_passes_limit :
    ∃ c', execute explorerGas (fun _ => 0) [0x00] { gasLimit := 1 } 2 =
      some (.returned true, c') ∧ ¬ c'.gasUsed ≤ 1 :=
  ⟨_, rfl, by decide +kernel⟩

end Run

end Mermai.Vm
