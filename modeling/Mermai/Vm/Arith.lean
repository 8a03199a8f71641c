import Mermai.Vm.Gas
import Mathlib.Data.Int.ModEq
import Mathlib.Tactic.LinearCombination

/-!
# Vm.Arith — words as numbers

A word is a 256-bit number (`Word.value`).  `add` and `sub` are the operations of ℤ modulo `2 ^ 256`:
one induction over the loop `fromLast` conserves the number written so far and the carry, with the
sign of the carry as a parameter.  The comparisons are those of the numbers, because the order of the
bytes is lexicographic.

`mul`, `DIV` and `MOD` read and write the last eight bytes.  `Word.upper` and `Word.lower` are the two
parts of a word, and each operation is compared with that of the whole words by them.
-/

namespace Mermai.Vm

namespace Word

/-- The bytes as a number, most significant first. -/
def value (w : Word) : ℕ := Codec.ofBE w.bytes

theorem value_lt (w : Word) : w.value < 2 ^ 256 := by
  have h := Codec.ofBE_lt w.bytes
  rw [w.length_eq] at h
  exact lt_of_lt_of_eq h (by norm_num)

theorem value_inj {a b : Word} : a.value = b.value ↔ a = b := by
  rw [value, value, Codec.ofBE_inj (by rw [a.length_eq, b.length_eq])]
  obtain ⟨_, _⟩ := a
  obtain ⟨_, _⟩ := b
  rw [mk.injEq]

theorem value_lt_iff (a b : Word) : a.value < b.value ↔ a.bytes < b.bytes :=
  Codec.ofBE_lt_ofBE_iff (by rw [a.length_eq, b.length_eq])

@[simp] theorem value_ofByte (b : UInt8) : (ofByte b).value = b.toNat := by
  rw [value, ofByte_bytes, Codec.ofBE_writeBE]
  exact Nat.mod_eq_of_lt (lt_of_lt_of_le b.toNat_lt (by norm_num))

theorem value_ofBool {p q : Prop} [Decidable p] [Decidable q] (h : p ↔ q) :
    (ofBool (decide p)).value = if q then 1 else 0 := by
  rw [ofBool, value_ofByte, decide_eq_decide.mpr h]
  by_cases hq : q
  · rw [if_pos hq, decide_eq_true hq]
    rfl
  · rw [if_neg hq, decide_eq_false hq]
    rfl

theorem value_eq_zero_iff (w : Word) : w.value = 0 ↔ w = zero := by
  rw [← value_inj]
  simp [zero]

/-! ## Addition and subtraction -/

/-- A round keeps the digits and the carry, whose sign is `s`, and the carry is at most one. -/
def Conserves (s : ℤ) (digit : UInt8 → UInt8 → ℕ → UInt8 × ℕ) : Prop :=
  ∀ a b carry, carry ≤ 1 → (digit a b carry).2 ≤ 1 ∧
    ((digit a b carry).1.toNat : ℤ) + s * 256 * (digit a b carry).2 =
      a.toNat + s * (b.toNat + carry)

theorem addByte_conserves : Conserves 1 addByte := by
  intro a b carry h
  have ha := a.toNat_lt
  have hb := b.toNat_lt
  simp only [addByte, UInt8.toNat_ofNat']
  constructor
  · omega
  · omega

theorem subByte_conserves : Conserves (-1) subByte := by
  intro a b borrow h
  have ha := a.toNat_lt
  have hb := b.toNat_lt
  unfold subByte
  split_ifs with hlt
  · simp only [UInt8.toNat_ofNat']
    omega
  · simp only [UInt8.toNat_ofNat']
    omega

/-- **One loop**: what each round keeps, the whole loop keeps. -/
theorem fromLast_value {digit : UInt8 → UInt8 → ℕ → UInt8 × ℕ} {s : ℤ} (hdigit : Conserves s digit)
    {as bs : Bytes} (h : as.length = bs.length) :
    (fromLast digit as bs).2 ≤ 1 ∧
      (Codec.ofBE (fromLast digit as bs).1 : ℤ) + s * 256 ^ as.length * (fromLast digit as bs).2 =
        Codec.ofBE as + s * Codec.ofBE bs := by
  induction as generalizing bs with
  | nil =>
    cases bs with
    | nil => simp [fromLast, Codec.ofBE]
    | cons b bs => cases h
  | cons a as ih =>
    cases bs with
    | nil => cases h
    | cons b bs =>
      have hlen : as.length = bs.length := Nat.succ.inj h
      obtain ⟨hcarry, hrest⟩ := ih hlen
      obtain ⟨hnext, hround⟩ := hdigit a b _ hcarry
      refine ⟨hnext, ?_⟩
      rw [fromLast, Codec.ofBE_cons, Codec.ofBE_cons, Codec.ofBE_cons, fromLast_length digit hlen,
        List.length_cons, ← hlen]
      push_cast
      rw [pow_succ]
      linear_combination (256 : ℤ) ^ as.length * hround + hrest

/-- The carry out of the first byte is lost. -/
theorem zipFromLast_value {digit : UInt8 → UInt8 → ℕ → UInt8 × ℕ} {s : ℤ}
    (hdigit : Conserves s digit) (a b : Word) :
    ((zipFromLast digit a b).value : ℤ) = (a.value + s * b.value) % 2 ^ 256 := by
  obtain ⟨-, hloop⟩ := fromLast_value hdigit (show a.bytes.length = b.bytes.length by
    rw [a.length_eq, b.length_eq])
  have hlt : ((zipFromLast digit a b).value : ℤ) < 2 ^ 256 := by
    exact_mod_cast (zipFromLast digit a b).value_lt
  have hpow : (256 : ℤ) ^ 32 = 2 ^ 256 := by norm_num
  rw [a.length_eq, hpow] at hloop
  rw [value, value, value, ← hloop, mul_right_comm, Int.add_mul_emod_self_right]
  exact (Int.emod_eq_of_lt (Int.natCast_nonneg _) hlt).symm

/-- `add` is the sum modulo `2 ^ 256`. -/
theorem add_value (a b : Word) : (add a b).value = (a.value + b.value) % 2 ^ 256 := by
  have h := zipFromLast_value addByte_conserves a b
  rw [one_mul] at h
  exact_mod_cast h

/-- `sub` is the difference modulo `2 ^ 256`. -/
theorem sub_value (a b : Word) :
    ((sub a b).value : ℤ) = ((a.value : ℤ) - b.value) % 2 ^ 256 := by
  have h := zipFromLast_value subByte_conserves a b
  rw [neg_one_mul, ← sub_eq_add_neg] at h
  exact h

end Word

/-! ## What an opcode pushes -/

section Pushes

variable (G : GasSchedule) (clock : ℕ → UInt64) (code : Bytes)

/-- With `a` pushed before `b`, the opcode goes on with the number `n` in the place of the two. -/
def Pushes (op : Opcode) (a b : Word) (n : ℕ) : Prop :=
  ∀ (c : Context) (stack : List Word), ∃ c' w,
    execOpcode G clock code { c with stack := b :: a :: stack } op = .next c' ∧
      c'.stack = w :: stack ∧ w.value = n

variable {G clock code}

theorem pushes_binary {op : Opcode} {cost : UInt64} {f : Word → Word → Word}
    (hop : ∀ c, execOpcode G clock code c op = binary cost f c) (a b : Word) {n : ℕ} :
    Pushes G clock code op a b n ↔ (f a b).value = n := by
  constructor
  · intro h
    obtain ⟨c', w, hc', hstack, hw⟩ := h {} []
    rw [hop] at hc'
    cases hc'
    cases hstack
    exact hw
  · intro h c stack
    exact ⟨_, _, hop _, rfl, h⟩

end Pushes

/-- **`ADD`, `SUB`, `LT`, `GT` and `EQ` are exact**: they are the operations of unsigned 256-bit
numbers. -/
theorem add_sub_compare_exact (G : GasSchedule) (clock : ℕ → UInt64) (code : Bytes) (a b : Word) :
    (Word.add a b).value = (a.value + b.value) % 2 ^ 256 ∧
    ((Word.sub a b).value : ℤ) = ((a.value : ℤ) - b.value) % 2 ^ 256 ∧
    Pushes G clock code .add a b (Word.add a b).value ∧
    Pushes G clock code .sub a b (Word.sub a b).value ∧
    Pushes G clock code .lt a b (if a.value < b.value then 1 else 0) ∧
    Pushes G clock code .gt a b (if a.value > b.value then 1 else 0) ∧
    Pushes G clock code .eq a b (if a.value = b.value then 1 else 0) := by
  have hlt := Word.value_lt_iff a b
  have heq := Word.value_inj (a := a) (b := b)
  refine ⟨Word.add_value a b, Word.sub_value a b, ?_, ?_, ?_, ?_, ?_⟩
  · exact (pushes_binary (fun _ => rfl) a b).mpr rfl
  · exact (pushes_binary (fun _ => rfl) a b).mpr rfl
  · exact (pushes_binary (fun _ => rfl) a b).mpr (Word.value_ofBool hlt.symm)
  · have hgt : (¬ a = b ∧ ¬ a.bytes < b.bytes) ↔ a.value > b.value := by
      rw [← hlt, ← heq]
      omega
    exact (pushes_binary (fun _ => rfl) a b).mpr (Word.value_ofBool hgt)
  · exact (pushes_binary (fun _ => rfl) a b).mpr (Word.value_ofBool heq.symm)

/-! ## Multiplication and division -/

section TwoLimbs

variable {W a₁ a₀ b₁ b₀ : ℕ}

theorem two_limb_le_iff {u v : ℕ} (hv : v ≤ a₀) (ha : a₀ < W) :
    u * W + v ≤ a₁ * W + a₀ ↔ u ≤ a₁ := by
  constructor
  · intro h
    by_contra hlt
    have hunit : (a₁ + 1) * W ≤ u * W := Nat.mul_le_mul_right W (by omega)
    linarith
  · intro h
    have hupper : u * W ≤ a₁ * W := Nat.mul_le_mul_right W h
    linarith

theorem two_limb_lt_iff {u v : ℕ} (hv : a₀ < v) (hv' : v ≤ a₀ + W) :
    a₁ * W + a₀ < u * W + v ↔ a₁ ≤ u := by
  constructor
  · intro h
    by_contra hlt
    have hunit : (u + 1) * W ≤ a₁ * W := Nat.mul_le_mul_right W (by omega)
    linarith
  · intro h
    have hupper : a₁ * W ≤ u * W := Nat.mul_le_mul_right W h
    linarith

/-- The quotient of two numbers of two limbs is that of the lower limbs when every multiple of the
divisor compares with the dividend alike in both limbs. -/
theorem two_limb_div_iff (ha : a₀ < W) (hb : b₀ < W) (hpos : b₀ ≠ 0) :
    a₀ / b₀ = (a₁ * W + a₀) / (b₁ * W + b₀) ↔
      ∀ q, (q * b₀ ≤ a₀ → q * b₁ ≤ a₁) ∧ (a₀ < q * b₀ → a₁ ≤ q * b₁) := by
  have hb₀ : 0 < b₀ := Nat.pos_of_ne_zero hpos
  obtain ⟨m, hm⟩ : ∃ m, a₀ / b₀ = m := ⟨_, rfl⟩
  have hbelow : m * b₀ ≤ a₀ := (Nat.le_div_iff_mul_le hb₀).mp hm.ge
  have habove : a₀ < (m + 1) * b₀ := (Nat.div_lt_iff_lt_mul hb₀).mp (by omega)
  have hdivisor : 0 < b₁ * W + b₀ := by omega
  -- the quotient of the lower limbs is that of the numbers between these two comparisons
  have hle : m ≤ (a₁ * W + a₀) / (b₁ * W + b₀) ↔ m * b₁ ≤ a₁ := by
    rw [Nat.le_div_iff_mul_le hdivisor, mul_add, ← mul_assoc]
    exact two_limb_le_iff hbelow ha
  have hlt : (a₁ * W + a₀) / (b₁ * W + b₀) < m + 1 ↔ a₁ ≤ (m + 1) * b₁ := by
    rw [Nat.div_lt_iff_lt_mul hdivisor, mul_add, ← mul_assoc]
    exact two_limb_lt_iff habove (by linarith)
  rw [hm]
  constructor
  · intro h q
    constructor
    · intro hq
      have hqm : q ≤ m := by
        rw [← hm]
        exact (Nat.le_div_iff_mul_le hb₀).mpr hq
      exact le_trans (Nat.mul_le_mul_right b₁ hqm) (hle.mp h.le)
    · intro hq
      have hmq : m + 1 ≤ q := by
        have := (Nat.div_lt_iff_lt_mul hb₀).mpr hq
        omega
      exact le_trans (hlt.mp (by omega)) (Nat.mul_le_mul_right b₁ hmq)
  · intro h
    have h1 := hle.mpr ((h m).1 hbelow)
    have h2 := hlt.mpr ((h (m + 1)).2 habove)
    omega

/-- The remainder of two numbers of two limbs is that of the lower limbs when the divisor divides what
the quotient of the lower limbs leaves of the upper one. -/
theorem two_limb_mod_iff (hpos : b₀ ≠ 0) :
    a₀ % b₀ = (a₁ * W + a₀) % (b₁ * W + b₀) ↔
      ∀ q, q * b₀ ≤ a₀ → a₀ < (q + 1) * b₀ →
        ((b₁ * W + b₀ : ℕ) : ℤ) ∣ ((a₁ : ℤ) - q * b₁) * W := by
  have hb₀ : 0 < b₀ := Nat.pos_of_ne_zero hpos
  have hsmall : a₀ % b₀ < b₁ * W + b₀ := lt_of_lt_of_le (Nat.mod_lt _ hb₀) (by omega)
  -- the number without the remainder of the lower limbs
  have hrest : ((a₁ * W + a₀ : ℕ) : ℤ) - (a₀ % b₀ : ℕ) =
      ((a₁ : ℤ) - (a₀ / b₀ : ℕ) * b₁) * W + (a₀ / b₀ : ℕ) * (b₁ * W + b₀ : ℕ) := by
    have hdm : ((a₀ / b₀ : ℕ) : ℤ) * b₀ + (a₀ % b₀ : ℕ) = a₀ := by
      exact_mod_cast Nat.div_add_mod' a₀ b₀
    push_cast at hdm ⊢
    linear_combination -hdm
  have hmod : a₀ % b₀ = (a₁ * W + a₀) % (b₁ * W + b₀) ↔
      ((b₁ * W + b₀ : ℕ) : ℤ) ∣ ((a₁ : ℤ) - (a₀ / b₀ : ℕ) * b₁) * W := by
    rw [← Int.dvd_add_left (dvd_mul_left _ _), ← hrest, ← Nat.modEq_iff_dvd, Nat.ModEq,
      Nat.mod_eq_of_lt hsmall]
  rw [hmod]
  constructor
  · intro h q hle hlt
    have hq : a₀ / b₀ = q :=
      le_antisymm (Nat.le_of_lt_succ ((Nat.div_lt_iff_lt_mul hb₀).mpr hlt))
        ((Nat.le_div_iff_mul_le hb₀).mpr hle)
    rw [← hq]
    exact h
  · intro h
    exact h _ ((Nat.le_div_iff_mul_le hb₀).mp le_rfl)
      ((Nat.div_lt_iff_lt_mul hb₀).mp (Nat.lt_succ_self _))

end TwoLimbs

namespace Word

/-- The part of the number above the last eight bytes. -/
def upper (w : Word) : ℕ := w.value / 2 ^ 64

/-- The number in the last eight bytes. -/
def lower (w : Word) : ℕ := w.value % 2 ^ 64

theorem lower_lt (w : Word) : w.lower < 2 ^ 64 := Nat.mod_lt _ (by norm_num)

theorem value_eq (w : Word) : w.value = w.upper * 2 ^ 64 + w.lower :=
  (Nat.div_add_mod' w.value (2 ^ 64)).symm

theorem toUInt64_lower (w : Word) : w.toUInt64.toNat = w.lower := by
  have hlen : (w.bytes.drop 24).length = 8 := by rw [List.length_drop, w.length_eq]
  have hlt := Codec.ofBE_lt (w.bytes.drop 24)
  have hsplit := Codec.ofBE_append (w.bytes.take 24) (w.bytes.drop 24)
  have hpow : 256 ^ 8 = 2 ^ 64 := by norm_num
  rw [List.take_append_drop, hlen, hpow] at hsplit
  rw [hlen, hpow] at hlt
  rw [toUInt64_toNat, lower, value, hsplit, Nat.mul_add_mod_of_lt hlt]

theorem value_ofUInt64 (v : UInt64) : (ofUInt64 v).value = v.toNat := by
  have hzero : Codec.ofBE (List.replicate 24 0) = 0 := by decide
  rw [value, ofUInt64, Codec.ofBE_append, hzero, zero_mul, zero_add, Codec.ofBE_writeBE]
  exact Nat.mod_eq_of_lt (lt_of_lt_of_eq v.toNat_lt (by norm_num))

theorem mul_value (a b : Word) : (mul a b).value = a.lower * b.lower % 2 ^ 64 := by
  rw [mul, value_ofUInt64, UInt64.toNat_mul, toUInt64_lower, toUInt64_lower]

/-- `mul` is the product modulo `2 ^ 256` when that fits in the last eight bytes. -/
theorem mul_value_iff (a b : Word) :
    (mul a b).value = a.value * b.value % 2 ^ 256 ↔ a.value * b.value % 2 ^ 256 < 2 ^ 64 := by
  have hlow : a.value * b.value % 2 ^ 256 % 2 ^ 64 = a.lower * b.lower % 2 ^ 64 := by
    rw [Nat.mod_mod_of_dvd _ (Nat.pow_dvd_pow 2 (by decide : 64 ≤ 256)), Nat.mul_mod]
    rfl
  rw [mul_value, ← hlow]
  constructor
  · intro h
    rw [← h]
    exact Nat.mod_lt _ (by norm_num)
  · exact Nat.mod_eq_of_lt

end Word

section Divide

variable {G : GasSchedule} {clock : ℕ → UInt64} {code : Bytes}

/-- `DIV` and `MOD` push zero for a divisor of 32 zero bytes, and trap for another divisor whose last
eight bytes are zero. -/
theorem pushes_divide {op : Opcode} {f : UInt64 → UInt64 → UInt64}
    (hop : ∀ c, execOpcode G clock code c op = divide G f c) (a b : Word) {n : ℕ} :
    Pushes G clock code op a b (if b.value = 0 then 0 else n) ↔
      b.value = 0 ∨ b.lower ≠ 0 ∧ (f a.toUInt64 b.toUInt64).toNat = n := by
  have hlower : b.toUInt64 = 0 ↔ b.lower = 0 := by
    rw [← Word.toUInt64_lower, ← UInt64.toNat_inj]
    rfl
  constructor
  · intro h
    obtain ⟨c', w, hc', hstack, hw⟩ := h {} []
    rw [hop] at hc'
    by_cases hzero : b.value = 0
    · exact .inl hzero
    · rw [if_neg hzero] at hw
      simp only [divide, mt (Word.value_eq_zero_iff b).mpr hzero, if_false] at hc'
      split_ifs at hc' with htrap
      cases hc'
      cases hstack
      rw [Word.value_ofUInt64] at hw
      exact .inr ⟨mt hlower.mpr htrap, hw⟩
  · intro h c stack
    rw [hop]
    by_cases hzero : b.value = 0
    · have hrun : divide G f { c with stack := b :: a :: stack } =
          .next ({ c with stack := Word.zero :: stack }.charge G.gasAdd) := by
        simp only [divide, (Word.value_eq_zero_iff b).mp hzero, if_true]
      rw [if_pos hzero]
      exact ⟨_, Word.zero, hrun, rfl, (Word.value_eq_zero_iff _).mpr rfl⟩
    · obtain ⟨hne, hn⟩ := h.resolve_left hzero
      have hrun : divide G f { c with stack := b :: a :: stack } =
          .next ({ c with
            stack := Word.ofUInt64 (f a.toUInt64 b.toUInt64) :: stack }.charge G.gasAdd) := by
        simp only [divide, mt (Word.value_eq_zero_iff b).mpr hzero, mt hlower.mp hne, if_false]
      rw [if_neg hzero]
      exact ⟨_, _, hrun, rfl, by rw [Word.value_ofUInt64, hn]⟩

end Divide

/-- **When `MUL`, `DIV` and `MOD` work on whole words**: `MUL` when the product fits in eight bytes,
`DIV` and `MOD` for the divisor zero, and for a divisor with a part in the last eight bytes when the
upper parts of the words agree with the quotient of the lower ones. -/
theorem mul_div_mod_exact_iff (G : GasSchedule) (clock : ℕ → UInt64) (code : Bytes) (a b : Word) :
    (Pushes G clock code .mul a b (a.value * b.value % 2 ^ 256) ↔
      a.value * b.value % 2 ^ 256 < 2 ^ 64) ∧
    (Pushes G clock code .div a b (if b.value = 0 then 0 else a.value / b.value) ↔
      b.value = 0 ∨ b.lower ≠ 0 ∧ ∀ q, (q * b.lower ≤ a.lower → q * b.upper ≤ a.upper) ∧
        (a.lower < q * b.lower → a.upper ≤ q * b.upper)) ∧
    (Pushes G clock code .mod a b (if b.value = 0 then 0 else a.value % b.value) ↔
      b.value = 0 ∨ b.lower ≠ 0 ∧ ∀ q, q * b.lower ≤ a.lower → a.lower < (q + 1) * b.lower →
        (b.value : ℤ) ∣ ((a.upper : ℤ) - q * b.upper) * 2 ^ 64) := by
  refine ⟨?_, ?_, ?_⟩
  · exact (pushes_binary (fun _ => rfl) a b).trans (Word.mul_value_iff a b)
  · rw [pushes_divide (fun _ => rfl) a b, UInt64.toNat_div, Word.toUInt64_lower,
      Word.toUInt64_lower]
    refine or_congr_right (and_congr_right fun hne => ?_)
    rw [a.value_eq, b.value_eq]
    exact two_limb_div_iff a.lower_lt b.lower_lt hne
  · rw [pushes_divide (fun _ => rfl) a b, UInt64.toNat_mod, Word.toUInt64_lower,
      Word.toUInt64_lower]
    refine or_congr_right (and_congr_right fun hne => ?_)
    rw [a.value_eq, b.value_eq]
    exact two_limb_mod_iff hne

/-- The word `2 ^ 64`. -/
def twoPow64 : Word := ⟨List.replicate 23 0 ++ 1 :: List.replicate 8 0, by decide⟩

/-- `MUL` of `2 ^ 64` and one pushes zero, and so do `DIV` of `2 ^ 64` by one and `MOD` of it by
three. -/
theorem mul_div_mod_low :
    ¬ Pushes explorerGas (fun _ => 0) [] .mul twoPow64 (Word.ofByte 1)
      (twoPow64.value * (Word.ofByte 1).value % 2 ^ 256) ∧
    ¬ Pushes explorerGas (fun _ => 0) [] .div twoPow64 (Word.ofByte 1)
      (twoPow64.value / (Word.ofByte 1).value) ∧
    ¬ Pushes explorerGas (fun _ => 0) [] .mod twoPow64 (Word.ofByte 3)
      (twoPow64.value % (Word.ofByte 3).value) := by
  refine ⟨?_, ?_, ?_⟩
  · rw [pushes_binary (fun _ => rfl)]
    decide +kernel
  · intro h
    have := (pushes_divide (fun _ => rfl) twoPow64 (Word.ofByte 1)).mp h
    revert this
    decide +kernel
  · intro h
    have := (pushes_divide (fun _ => rfl) twoPow64 (Word.ofByte 3)).mp h
    revert this
    decide +kernel

end Mermai.Vm
