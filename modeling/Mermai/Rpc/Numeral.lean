import Mermai.Consensus.Stake
import Mermai.Lib.JsonText
import Mermai.Rpc.Text

/-!
# Rpc.Numeral — the numbers in the answers of the RPC server

What `std::to_string` and `std::ostream` write for a number: digits that a JSON parser reads, or a word for
what is no finite float.  The weight of a validator is a float, so its texts are a parameter `WeightText`; the
exact weights are an instance (`exactText`).
-/

namespace Mermai.Rpc

open Merlite (ascii)
open scoped Utf8

/-! ## Numerals -/

/-- The words for what is no finite number. -/
def notFinite : List Bytes := [ascii "inf", ascii "-inf", ascii "nan", ascii "-nan"]

/-- The text of a number, as the standard library writes it. -/
structure Numeral where
  text : Bytes
  shape : (text ≠ [] ∧ ∀ b ∈ text, Json.isNumberByte b = true) ∨ text ∈ notFinite

theorem isNumberByte_of_mem_decimal {b : UInt8} {n : ℕ} (h : b ∈ decimal n) :
    Json.isNumberByte b = true := decide_eq_true (.inl (isDecimalDigit_of_mem h))

/-- `std::to_string` of an unsigned number. -/
def Numeral.ofNat (n : ℕ) : Numeral :=
  ⟨decimal n, .inl ⟨decimal_ne_nil n, fun _ => isNumberByte_of_mem_decimal⟩⟩

/-- `std::to_string` of an `int`. -/
def Numeral.ofInt (n : ℤ) : Numeral where
  text := toString n
  shape := by
    refine .inl ?_
    unfold toString
    split_ifs
    · refine ⟨List.cons_ne_nil _ _, List.forall_mem_cons.mpr ⟨rfl, fun _ => isNumberByte_of_mem_decimal⟩⟩
    · exact ⟨decimal_ne_nil _, fun _ => isNumberByte_of_mem_decimal⟩

theorem Numeral.denotes (x : Numeral) :
    Json.Denotes Json.Stops Json.value x.text ((Json.number x.text).map .num) := by
  rcases x.shape with ⟨hne, hall⟩ | hword
  · exact Json.denotes_number hne hall
  · intro n t hn _
    obtain ⟨n, rfl⟩ := Nat.exists_eq_succ_of_ne_zero (by omega : n ≠ 0)
    simp only [notFinite, List.mem_cons, List.not_mem_nil, or_false] at hword
    rcases hword with h | h | h | h <;> rw [h] <;> rfl

theorem Numeral.valid (x : Numeral) : Utf8.Valid x.text := by
  refine Utf8.valid_of_ascii fun b hb => ?_
  have hascii : ∀ b : UInt8, Json.isNumberByte b = true → b < 0x80 := by
    intro b hb
    rcases of_decide_eq_true hb with hdigit | rfl | rfl | rfl | rfl | rfl
    · exact UInt8.lt_of_le_of_lt (of_decide_eq_true hdigit).2 (by decide)
    all_goals decide
  rcases x.shape with ⟨-, hall⟩ | hword
  · exact hascii b (hall b hb)
  · have hwords : ∀ w ∈ notFinite, ∀ c ∈ w, c < 0x80 := by decide
    exact hwords _ hword b hb

theorem unsigned_decimal (n : ℕ) :
    Json.unsigned (decimal n) = some (Json.digitsValue (decimal n) : ℚ) := by
  refine Json.unsigned_digits (decimal_ne_nil n) (fun b hb => isDecimalDigit_of_mem hb) fun h => ?_
  rw [eq_zero_of_decimal_head h]
  rfl

theorem isSome_number_decimal (n : ℕ) : (Json.number (decimal n)).isSome = true := by
  obtain ⟨c, s, hcons⟩ := List.exists_cons_of_ne_nil (decimal_ne_nil n)
  have hc : Json.isDigit c = true :=
    isDecimalDigit_of_mem (n := n) (hcons ▸ List.mem_cons_self)
  rw [hcons, Json.number_of_digit hc, ← hcons, unsigned_decimal]
  rfl

theorem isSome_number_toString (n : ℤ) : (Json.number (toString n)).isSome = true := by
  unfold toString
  split_ifs
  · show ((Json.unsigned (decimal n.natAbs)).map fun q => -q).isSome = true
    rw [unsigned_decimal]
    rfl
  · exact isSome_number_decimal _

/-! ## Weights -/

/-- A text of number bytes that a JSON parser reads. -/
def IsNumeral (text : Bytes) : Prop :=
  text ≠ [] ∧ (∀ b ∈ text, Json.isNumberByte b = true) ∧ (Json.number text).isSome = true

/-- The float operations with the texts of a weight: digits exactly for a finite one. -/
structure WeightText (F : Type) extends FloatOps F where
  /-- `std::to_string`. -/
  toText : F → Bytes
  finite : F → Bool
  print_finite : ∀ x, finite x = true → IsNumeral (print x)
  toText_finite : ∀ x, finite x = true → IsNumeral (toText x)
  print_infinite : ∀ x, finite x = false → print x ∈ notFinite
  toText_infinite : ∀ x, finite x = false → toText x ∈ notFinite

theorem isSome_exponent {pad : Bytes} (hpad : ∀ b ∈ pad, Json.isDigit b = true) (e : ℕ) :
    (Json.exponent ([101, 43] ++ (pad ++ decimal e))).isSome = true := by
  have hdigits : pad ++ decimal e ≠ [] ∧ (pad ++ decimal e).all Json.isDigit = true := by
    refine ⟨fun h => decimal_ne_nil e (List.append_eq_nil_iff.mp h).2, List.all_eq_true.mpr fun b hb => ?_⟩
    exact (List.mem_append.mp hb).elim (hpad b) isDecimalDigit_of_mem
  show ((Json.digits (pad ++ decimal e)).map fun n => (n : ℤ)).isSome = true
  rw [Json.digits, if_pos hdigits]
  rfl

theorem isNumberByte_of_isDigit {b : UInt8} (h : Json.isDigit b = true) : Json.isNumberByte b = true :=
  decide_eq_true (.inl h)

/-- Behind a digit no sign is looked for. -/
theorem isNumeral_of_digit {c : UInt8} (hc : Json.isDigit c = true) {s : Bytes}
    (hs : ∀ b ∈ s, Json.isNumberByte b = true) (h : (Json.unsigned (c :: s)).isSome = true) :
    IsNumeral (c :: s) := by
  refine ⟨List.cons_ne_nil c s, List.forall_mem_cons.mpr ⟨isNumberByte_of_isDigit hc, hs⟩, ?_⟩
  rw [Json.number_of_digit hc]
  exact h

/-- A digit, decimals if there are any, and an exponent. -/
theorem isNumeral_scientific {c : UInt8} (hc : Json.isDigit c = true) {tail pad : Bytes}
    (htail : ∀ b ∈ tail, Json.isDigit b = true) (hpad : ∀ b ∈ pad, Json.isDigit b = true) (e : ℕ) :
    IsNumeral ([c] ++ (if tail = [] then [] else 46 :: tail) ++ [101, 43] ++ pad ++ decimal e) := by
  have hexponent := isSome_exponent hpad e
  have hbytes : ∀ b ∈ [101, 43] ++ (pad ++ decimal e), Json.isNumberByte b = true := by
    have hsign : ∀ b ∈ ([101, 43] : Bytes), Json.isNumberByte b = true := by decide
    refine List.forall_mem_append.mpr ⟨hsign, List.forall_mem_append.mpr ⟨?_, ?_⟩⟩
    · exact fun b hb => isNumberByte_of_isDigit (hpad b hb)
    · exact fun b hb => isNumberByte_of_mem_decimal hb
  have hwhole : ∀ b ∈ [c], Json.isDigit b = true := List.forall_mem_singleton.mpr hc
  have hzero : [c].head? = some 48 → [c] = [48] := by
    rintro ⟨⟩
    rfl
  have hrest : ∀ b ∈ ([101, 43] ++ (pad ++ decimal e)).head?, Json.isDigit b = false ∧ b ≠ 46 := by
    rintro b ⟨⟩
    decide
  split_ifs with hnil
  · have hnumber := Json.isSome_unsigned (List.cons_ne_nil c []) hwhole hzero hrest hexponent
    simp only [List.append_assoc, List.append_nil]
    exact isNumeral_of_digit hc hbytes hnumber
  · have hnumber := Json.isSome_unsigned_point (List.cons_ne_nil c []) hwhole hzero hnil htail
      (fun b hb => (hrest b hb).1) hexponent
    simp only [List.append_assoc, List.cons_append, List.nil_append] at hnumber ⊢
    refine isNumeral_of_digit hc (List.forall_mem_cons.mpr ⟨rfl, ?_⟩) hnumber
    exact List.forall_mem_append.mpr ⟨fun b hb => isNumberByte_of_isDigit (htail b hb), hbytes⟩

/-- The `%g` form of a natural number is a number. -/
theorem isNumeral_printG (n : ℕ) : IsNumeral (printG n) := by
  unfold printG
  split_ifs with hsmall
  · exact ⟨decimal_ne_nil n, fun b hb => isNumberByte_of_mem_decimal hb, isSome_number_decimal n⟩
  · obtain ⟨c, ds, hcons⟩ := List.exists_cons_of_ne_nil (decimal_ne_nil n)
    have hdigits : ∀ b ∈ c :: ds, Json.isDigit b = true := fun b hb =>
      isDecimalDigit_of_mem (hcons ▸ hb)
    obtain ⟨hc, hds⟩ := List.forall_mem_cons.mp hdigits
    have htail : ∀ b ∈ (ds.reverse.dropWhile (· = 48)).reverse, Json.isDigit b = true := fun b hb =>
      hds b (List.mem_reverse.mp ((List.dropWhile_suffix _).subset (List.mem_reverse.mp hb)))
    have hpad : ∀ b ∈ (if (decimal n).length - 1 < 10 then [48] else [] : Bytes), Json.isDigit b = true := by
      split_ifs <;> decide
    dsimp only
    rw [hcons] at hpad ⊢
    exact isNumeral_scientific hc htail hpad _

/-- So is a natural number with six decimals. -/
theorem isNumeral_fixed (n : ℕ) : IsNumeral (decimal n ++ ascii ".000000") := by
  have hdigits : ∀ b ∈ decimal n, Json.isDigit b = true := fun b hb => isDecimalDigit_of_mem hb
  have hzero : (decimal n).head? = some 48 → decimal n = [48] := by
    intro h
    rw [eq_zero_of_decimal_head h]
    rfl
  have hpart : ∀ b ∈ List.replicate 6 (48 : UInt8), Json.isDigit b = true := by decide
  have hnumber : (Json.unsigned (decimal n ++ 46 :: (List.replicate 6 48 ++ []))).isSome = true :=
    Json.isSome_unsigned_point (decimal_ne_nil n) hdigits hzero (List.cons_ne_nil _ _) hpart
      (fun b hb => nomatch hb) rfl
  have htext : decimal n ++ ascii ".000000" = decimal n ++ 46 :: (List.replicate 6 48 ++ []) := rfl
  have hbytes : ∀ b ∈ decimal n ++ ascii ".000000", Json.isNumberByte b = true := by
    have hpoint : ∀ b ∈ ascii ".000000", Json.isNumberByte b = true := by decide
    exact List.forall_mem_append.mpr ⟨fun b hb => isNumberByte_of_mem_decimal hb, hpoint⟩
  rw [← htext] at hnumber
  obtain ⟨c, s, hcons⟩ := List.exists_cons_of_ne_nil (decimal_ne_nil n)
  rw [hcons, List.cons_append] at hnumber hbytes ⊢
  exact isNumeral_of_digit (hdigits c (hcons ▸ List.mem_cons_self)) (List.forall_mem_cons.mp hbytes).2 hnumber

/-- Exact weights, and their texts in digits. -/
def exactText : WeightText ℚ where
  toFloatOps := exactFloat
  toText x := decimal ⌊x⌋.toNat ++ ascii ".000000"
  finite _ := true
  print_finite x _ := isNumeral_printG ⌊x⌋.toNat
  toText_finite x _ := isNumeral_fixed ⌊x⌋.toNat
  print_infinite _ h := nomatch h
  toText_infinite _ h := nomatch h

/-- `std::ostream << float`. -/
def WeightText.printed (fl : WeightText F) (x : F) : Numeral where
  text := fl.print x
  shape := by
    cases hx : fl.finite x with
    | true => exact .inl ⟨(fl.print_finite x hx).1, (fl.print_finite x hx).2.1⟩
    | false => exact .inr (fl.print_infinite x hx)

/-- `std::to_string` of a float. -/
def WeightText.numeral (fl : WeightText F) (x : F) : Numeral where
  text := fl.toText x
  shape := by
    cases hx : fl.finite x with
    | true => exact .inl ⟨(fl.toText_finite x hx).1, (fl.toText_finite x hx).2.1⟩
    | false => exact .inr (fl.toText_infinite x hx)

end Mermai.Rpc
