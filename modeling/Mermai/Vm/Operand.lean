import Mermai.Vm.Arith

/-!
# Vm.Operand — memory offsets and jump targets

`JMP`, `JMPI`, `MLOAD` and `MSTORE` take their operand from the byte `[31]` of a word.  Each is
compared here with the operation that takes the word as a number: a jump goes on at the number or
fails (`JumpsTo`), and a word stored at a number leaves the words loaded 32 or more bytes away as they
were (`StoresApart`).
-/

namespace Mermai.Vm

theorem Word.low_toNat (w : Word) : w.low.toNat = w.value % 256 := by
  have hlen : 31 < w.bytes.length := by
    rw [w.length_eq]
    decide
  have hlast : w.bytes = w.bytes.take 31 ++ [w.low] := by
    conv_lhs => rw [← List.take_append_drop 31 w.bytes, List.drop_eq_getElem_cons hlen,
      List.drop_eq_nil_of_le (by rw [w.length_eq])]
    rfl
  rw [Word.value, hlast, Codec.ofBE_append]
  simp [Codec.ofBE]

section Operand

variable (G : GasSchedule) (clock : ℕ → UInt64) (code : Bytes)

/-! ## Jumps -/

/-- The round goes on at the position `w` of the code, or `execute` returns false. -/
def JumpsTo (w : Word) (s : Step) : Prop :=
  (∃ c', s = .next c' ∧ c'.programCounter = w.value ∧ w.value < code.length) ∨
  ∃ c', s = .stop (.returned false, c')

/-- A jump to the last byte of a word is a jump to the word when this has no other byte, or when the
code ends before the position in the last byte. -/
theorem jump_low_iff (c : Context) (w : Word) :
    JumpsTo code w (c.jump code w.low.toNat) ↔ w.value < 256 ∨ code.length ≤ w.value % 256 := by
  rw [Word.low_toNat, Context.jump]
  split_ifs with hlt
  · constructor
    · rintro (⟨c', hc', hpc, -⟩ | ⟨c', hc'⟩)
      · cases hc'
        have hval : w.value % 256 = w.value := hpc
        omega
      · cases hc'
    · intro h
      have hval : w.value % 256 = w.value := by omega
      exact .inl ⟨_, rfl, hval, by omega⟩
  · exact iff_of_true (.inr ⟨_, rfl⟩) (.inr (by omega))

/-! ## Memory -/

/-- `MSTORE` with the offset on top of the value. -/
def storeAt (c : Context) (w v : Word) : Step :=
  execOpcode G clock code { c with stack := w :: v :: c.stack } .mstore

/-- `MLOAD` with the offset on top of the stack. -/
def loadAt (c : Context) (w : Word) : Step := execOpcode G clock code (c.push w) .mload

/-- `MLOAD` with the offset `w` pushes the word `u`. -/
def Loads (c : Context) (w u : Word) : Prop :=
  ∃ c', loadAt G clock code c w = .next c' ∧ c'.stack = u :: c.stack

/-- `MSTORE` of `v` at `w` and then `MLOAD` at `w'`: one of them fails for an offset beyond the memory,
or for offsets 32 or more apart the word loaded is the one loaded without the `MSTORE`. -/
def StoresApart (c : Context) (w v w' : Word) : Prop :=
  (∃ c₁, storeAt G clock code c w v = .stop (.returned false, c₁) ∧
    c.memory.length < w.value + 32) ∨
  ∃ c₁, storeAt G clock code c w v = .next c₁ ∧
    ((∃ c₂, loadAt G clock code c₁ w' = .stop (.returned false, c₂) ∧
      c.memory.length < w'.value + 32) ∨
    ∃ u, Loads G clock code c₁ w' u ∧
      (w.value + 32 ≤ w'.value ∨ w'.value + 32 ≤ w.value → Loads G clock code c w' u))

variable {G clock code} {c c' : Context} {w v w' u : Word} {offset : ℕ}

/-- A stored word covers 32 bytes and leaves the others. -/
theorem getElem?_store {m : Bytes} (hin : offset + 32 ≤ m.length) (v : Word) (i : ℕ) :
    (m.take offset ++ v.bytes ++ m.drop (offset + 32))[i]? =
      if offset ≤ i ∧ i < offset + 32 then v.bytes[i - offset]? else m[i]? := by
  have htake : (m.take offset).length = offset := List.length_take_of_le (by omega)
  have hfront : (m.take offset ++ v.bytes).length = offset + 32 := by
    rw [List.length_append, htake, v.length_eq]
  split_ifs with hi
  · rw [List.getElem?_append_left (by omega), List.getElem?_append_right (by omega), htake]
  · by_cases hlt : i < offset
    · rw [List.getElem?_append_left (by omega), List.getElem?_append_left (by omega),
        List.getElem?_take_of_lt hlt]
    · rw [List.getElem?_append_right (by omega), hfront, List.getElem?_drop]
      congr 1
      omega

/-- After a store at `o` the load at `o'` gives the word it gave before when the bytes stored in both
ranges were there already. -/
theorem load_store_iff {m : Bytes} {o o' : ℕ} (ho : o + 32 ≤ m.length) (v : Word) :
    ((m.take o ++ v.bytes ++ m.drop (o + 32)).drop o').take 32 = (m.drop o').take 32 ↔
      ∀ i < 32, ∀ j < 32, o + i = o' + j → v.bytes[i]? = m[o' + j]? := by
  constructor
  · intro h i hi j hj hij
    have hbyte := congrArg (·[j]?) h
    simp only [List.getElem?_take_of_lt hj, List.getElem?_drop, getElem?_store ho] at hbyte
    rw [if_pos (by omega), ← hij, Nat.add_sub_cancel_left] at hbyte
    rw [hbyte, hij]
  · intro h
    apply List.ext_getElem?
    intro j
    by_cases hj : j < 32
    · rw [List.getElem?_take_of_lt hj, List.getElem?_take_of_lt hj, List.getElem?_drop,
        List.getElem?_drop, getElem?_store ho]
      split_ifs with hin
      · exact h _ (by omega) j hj (by omega)
      · rfl
    · rw [List.getElem?_take, List.getElem?_take, if_neg hj, if_neg hj]

theorem storeAt_of_le (hin : w.low.toNat + 32 ≤ c.memory.length) :
    storeAt G clock code c w v = .next { c with
      memory := c.memory.take w.low.toNat ++ v.bytes ++ c.memory.drop (w.low.toNat + 32) } := by
  simp only [storeAt, execOpcode, Context.storeWordToMemory, if_pos hin]

theorem storeAt_of_lt (hout : c.memory.length < w.low.toNat + 32) :
    storeAt G clock code c w v = c.failWith "Memory access out of bounds" := by
  simp only [storeAt, execOpcode, Context.storeWordToMemory, if_neg (not_le.mpr hout)]

theorem loadAt_eq : loadAt G clock code c w = match c.loadWordFromMemory w.low.toNat with
    | none => c.failWith "Memory access out of bounds"
    | some u => .next (c.push u) := rfl

theorem loadAt_of_lt (hout : c.memory.length < w.low.toNat + 32) :
    loadAt G clock code c w = c.failWith "Memory access out of bounds" := by
  rw [loadAt_eq, Context.loadWordFromMemory, dif_neg (not_le.mpr hout)]

theorem loads_iff (hin : w.low.toNat + 32 ≤ c.memory.length) :
    Loads G clock code c w u ↔ (c.memory.drop w.low.toNat).take 32 = u.bytes := by
  have hload : loadAt G clock code c w = .next (c.push
      ⟨(c.memory.drop w.low.toNat).take 32, by rw [List.length_take, List.length_drop]; omega⟩) := by
    rw [loadAt_eq, Context.loadWordFromMemory, dif_pos hin]
  rw [Loads, hload]
  obtain ⟨bytes, hlen⟩ := u
  constructor
  · rintro ⟨c', hc', hstack⟩
    cases hc'
    cases hstack
    rfl
  · rintro rfl
    exact ⟨_, rfl, rfl⟩

theorem length_store {m : Bytes} (hin : offset + 32 ≤ m.length) (v : Word) :
    (m.take offset ++ v.bytes ++ m.drop (offset + 32)).length = m.length := by
  simp only [List.length_append, List.length_take, List.length_drop, v.length_eq]
  omega

/-- With both last bytes inside the memory nothing fails. -/
theorem storesApart_of_le (hin : w.low.toNat + 32 ≤ c.memory.length)
    (hin' : w'.low.toNat + 32 ≤ c.memory.length) :
    StoresApart G clock code c w v w' ↔
      (w.value + 32 ≤ w'.value ∨ w'.value + 32 ≤ w.value →
        ∀ i < 32, ∀ j < 32, w.low.toNat + i = w'.low.toNat + j →
          v.bytes[i]? = c.memory[w'.low.toNat + j]?) := by
  have hlen := length_store hin v
  rw [← load_store_iff hin]
  have hnext : storeAt G clock code c w v = _ := storeAt_of_le hin
  generalize c.memory.take w.low.toNat ++ v.bytes ++ c.memory.drop (w.low.toNat + 32) = m at *
  have hbefore : ∀ u, Loads G clock code c w' u ↔ (c.memory.drop w'.low.toNat).take 32 = u.bytes :=
    fun _ => loads_iff hin'
  have hafter : ∀ u, Loads G clock code { c with memory := m } w' u ↔
      (m.drop w'.low.toNat).take 32 = u.bytes :=
    fun _ => loads_iff (le_of_le_of_eq hin' hlen.symm)
  have hloads : Loads G clock code { c with memory := m } w'
      ⟨(m.drop w'.low.toNat).take 32, by rw [List.length_take, List.length_drop]; omega⟩ :=
    (hafter _).mpr rfl
  constructor
  · rintro (⟨c₁, hstop, -⟩ | ⟨c₁, hc₁, hthen⟩) hapart
    · rw [hnext] at hstop
      cases hstop
    · rw [hnext] at hc₁
      cases hc₁
      rcases hthen with ⟨c₂, hstop, -⟩ | ⟨u, hu, hsame⟩
      · obtain ⟨_, hload, -⟩ := hloads
        rw [hload] at hstop
        cases hstop
      · rw [(hafter u).mp hu, (hbefore u).mp (hsame hapart)]
  · intro h
    exact .inr ⟨_, hnext, .inr ⟨_, hloads, fun hapart => (hbefore _).mpr (h hapart).symm⟩⟩

/-- The loads and stores of a word take its last byte, so they keep apart what is apart when the last
bytes do, or when what is written over was there already. -/
theorem storesApart_iff : StoresApart G clock code c w v w' ↔
    ¬ (w.value + 32 ≤ w'.value ∨ w'.value + 32 ≤ w.value) ∨
    c.memory.length < w.value % 256 + 32 ∨ c.memory.length < w'.value % 256 + 32 ∨
    ∀ i < 32, ∀ j < 32, w.value % 256 + i = w'.value % 256 + j →
      v.bytes[i]? = c.memory[w'.value % 256 + j]? := by
  have hlow := w.low_toNat
  have hlow' := w'.low_toNat
  rw [← hlow, ← hlow']
  rcases lt_or_ge c.memory.length (w.low.toNat + 32) with hout | hin
  · exact iff_of_true (.inl ⟨_, storeAt_of_lt hout, by omega⟩) (.inr (.inl hout))
  rcases lt_or_ge c.memory.length (w'.low.toNat + 32) with hout' | hin'
  · have hlen := length_store hin v
    have hfail : loadAt G clock code { c with memory := _ } w' = _ :=
      loadAt_of_lt (lt_of_eq_of_lt hlen hout')
    exact iff_of_true (.inr ⟨_, storeAt_of_le hin, .inl ⟨_, hfail, by omega⟩⟩)
      (.inr (.inr (.inl hout')))
  · rw [storesApart_of_le hin hin', imp_iff_not_or, iff_false_intro (not_lt.mpr hin),
      iff_false_intro (not_lt.mpr hin'), false_or, false_or]

end Operand

/-- **When operands are taken at full value**: a jump when its target is below 256 or its last byte is
beyond the code; a store and a load when the offsets are less than 32 apart, a last byte is beyond the
memory, or no byte is changed where the ranges of the last bytes meet. -/
theorem operands_full_iff (G : GasSchedule) (clock : ℕ → UInt64) (code : Bytes) (c : Context)
    (w : Word) (stack : List Word) :
    (JumpsTo code w (execOpcode G clock code { c with stack := w :: stack } .jmp) ↔
      w.value < 256 ∨ code.length ≤ w.value % 256) ∧
    (∀ condition, condition ≠ Word.zero →
      (JumpsTo code w
          (execOpcode G clock code { c with stack := w :: condition :: stack } .jmpi) ↔
        w.value < 256 ∨ code.length ≤ w.value % 256)) ∧
    ∀ v w', StoresApart G clock code c w v w' ↔
      ¬ (w.value + 32 ≤ w'.value ∨ w'.value + 32 ≤ w.value) ∨
      c.memory.length < w.value % 256 + 32 ∨ c.memory.length < w'.value % 256 + 32 ∨
      ∀ i < 32, ∀ j < 32, w.value % 256 + i = w'.value % 256 + j →
        v.bytes[i]? = c.memory[w'.value % 256 + j]? := by
  refine ⟨jump_low_iff code _ w, ?_, fun v w' => storesApart_iff⟩
  intro condition hne
  simp only [execOpcode, if_pos hne]
  exact jump_low_iff code _ w

/-- The word 256. -/
def word256 : Word := ⟨List.replicate 30 0 ++ [1, 0], by decide⟩

/-- `JMPI` to 255 goes there or fails. -/
theorem operands_full_jmpi :
    JumpsTo [0xE1] (Word.ofByte 255) (execOpcode explorerGas (fun _ => 0) [0xE1]
      { stack := [Word.ofByte 255, Word.ofByte 1] } .jmpi) :=
  ((operands_full_iff explorerGas (fun _ => 0) [0xE1] {} (Word.ofByte 255) []).2.1
    (Word.ofByte 1) (by decide)).mpr (.inl (by decide +kernel))

/-- `JMP` to 256 goes on at 0, and a word stored at 0 is loaded at 256. -/
theorem jump_and_store_at_256 :
    ¬ JumpsTo [0xE0] word256 (execOpcode explorerGas (fun _ => 0) [0xE0]
      { stack := [word256] } .jmp) ∧
    ¬ StoresApart explorerGas (fun _ => 0) [] { memory := List.replicate 65536 0 }
      (Word.ofByte 0) (Word.ofByte 1) word256 := by
  have hvalue : word256.value = 256 := by decide +kernel
  constructor
  · intro h
    have hfull := (jump_low_iff [0xE0] { stack := [] } word256).mp h
    rw [hvalue] at hfull
    revert hfull
    decide
  · rw [storesApart_iff, hvalue, Word.value_ofByte, List.length_replicate]
    rintro (hnear | hout | hout | hsame)
    · exact hnear (by decide)
    · revert hout
      decide
    · revert hout
      decide
    · -- the last byte of the stored word is not the zero that was there
      have hbyte := hsame 31 (by decide) 31 (by decide) rfl
      rw [List.getElem?_replicate_of_lt (by decide)] at hbyte
      revert hbyte
      decide

end Mermai.Vm
