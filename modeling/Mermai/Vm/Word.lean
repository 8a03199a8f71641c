import Mermai.Core.Prims
import Mathlib.Data.List.TakeDrop

/-!
# Vm.Word — the 32-byte words of the virtual machine

`std::array<uint8_t, 32>`, most significant byte first.  Addition and subtraction run over all the
bytes; multiplication, division and the conversions read and write the last eight only.
-/

namespace Mermai.Vm

/-- A word of 32 bytes. -/
structure Word where
  bytes : Bytes
  length_eq : bytes.length = 32
deriving DecidableEq

namespace Word

/-- The word with a byte in the last position. -/
def ofByte (b : UInt8) : Word := ⟨List.replicate 31 0 ++ [b], by simp⟩

theorem ofByte_bytes (b : UInt8) : (ofByte b).bytes = Codec.writeBE 32 b.toNat := by
  have hvalue : Codec.ofBE (ofByte b).bytes = b.toNat := by
    simp [ofByte, Codec.ofBE, List.replicate]
  rw [← hvalue, ← (ofByte b).length_eq, Codec.writeBE_ofBE]

def zero : Word := ofByte 0

/-- The last byte, at index 31. -/
def low (w : Word) : UInt8 := w.bytes.get ⟨31, by rw [w.length_eq]; decide⟩

/-- The loops that write a `uint64_t` into the bytes 24 to 31. -/
def ofUInt64 (v : UInt64) : Word where
  bytes := List.replicate 24 0 ++ Codec.writeBE 8 v.toNat
  length_eq := by rw [List.length_append, List.length_replicate, Codec.writeBE_length]

/-- The loops that read the bytes 24 to 31 into a `uint64_t`. -/
def toUInt64 (w : Word) : UInt64 :=
  (w.bytes.drop 24).foldl (fun value b => value <<< 8 ||| b.toUInt64) 0

theorem foldl_shift_toNat (l : Bytes) (value : UInt64)
    (h : value.toNat * 256 ^ l.length + 256 ^ l.length ≤ 2 ^ 64) :
    (l.foldl (fun (value : UInt64) b => value <<< 8 ||| b.toUInt64) value).toNat =
      value.toNat * 256 ^ l.length + Codec.ofBE l := by
  induction l generalizing value with
  | nil => simp [Codec.ofBE]
  | cons b l ih =>
    have hpos : 0 < 256 ^ l.length := Nat.pow_pos (by decide)
    have hb := b.toNat_lt
    rw [List.length_cons, pow_succ] at h
    have hsmall : value.toNat * 256 + 256 ≤ 2 ^ 64 := by nlinarith
    have hnext : (value <<< 8 ||| b.toUInt64).toNat = value.toNat * 256 + b.toNat := by
      rw [UInt64.toNat_or, UInt64.toNat_shiftLeft, UInt8.toNat_toUInt64, ← Codec.shift_or]
      congr 1
      show value.toNat <<< 8 % 2 ^ 64 = value.toNat <<< 8
      rw [Nat.shiftLeft_eq, Nat.mod_eq_of_lt (by omega)]
    have hfits : (value <<< 8 ||| b.toUInt64).toNat * 256 ^ l.length + 256 ^ l.length ≤ 2 ^ 64 := by
      rw [hnext]
      nlinarith
    rw [List.foldl_cons, ih _ hfits, hnext, Codec.ofBE_cons, List.length_cons, pow_succ]
    ring

theorem toUInt64_toNat (w : Word) : w.toUInt64.toNat = Codec.ofBE (w.bytes.drop 24) := by
  have hlen : (w.bytes.drop 24).length = 8 := by rw [List.length_drop, w.length_eq]
  rw [toUInt64, foldl_shift_toNat _ _ (by rw [hlen]; decide)]
  simp

/-- The number in the last eight bytes is zero when these are. -/
theorem toUInt64_eq_zero_iff (w : Word) : w.toUInt64 = 0 ↔ ∀ b ∈ w.bytes.drop 24, b = 0 := by
  rw [← Codec.ofBE_eq_zero_iff, ← toUInt64_toNat, ← UInt64.toNat_inj]
  rfl

/-- At most 32 bytes from the front of a string, and zeros behind them. -/
def ofFront (s : Bytes) : Word := ⟨s.takeD 32 0, List.takeD_length ..⟩

/-- At most 32 bytes from the end of a string, and zeros before them. -/
def ofBack (s : Bytes) : Word where
  bytes := (s.reverse.takeD 32 0).reverse
  length_eq := by rw [List.length_reverse, List.takeD_length]

/-- The loops of `add` and `sub`, from the last byte to the first: the bytes of the result, and the
carry or borrow out of the first byte. -/
def fromLast (digit : UInt8 → UInt8 → ℕ → UInt8 × ℕ) : Bytes → Bytes → Bytes × ℕ
  | a :: as, b :: bs =>
    let rest := fromLast digit as bs
    let d := digit a b rest.2
    (d.1 :: rest.1, d.2)
  | _, _ => ([], 0)

theorem fromLast_length (digit : UInt8 → UInt8 → ℕ → UInt8 × ℕ) {as bs : Bytes}
    (h : as.length = bs.length) : (fromLast digit as bs).1.length = as.length := by
  induction as generalizing bs with
  | nil => rfl
  | cons a as ih =>
    cases bs with
    | nil => cases h
    | cons b bs => rw [fromLast, List.length_cons, List.length_cons, ih (Nat.succ.inj h)]

/-- One round of the loop of `add`. -/
def addByte (a b : UInt8) (carry : ℕ) : UInt8 × ℕ :=
  let sum := a.toNat + b.toNat + carry
  (UInt8.ofNat sum, sum / 256)

/-- One round of the loop of `sub`. -/
def subByte (a b : UInt8) (borrow : ℕ) : UInt8 × ℕ :=
  if a.toNat < b.toNat + borrow then (UInt8.ofNat (a.toNat + 256 - b.toNat - borrow), 1)
  else (UInt8.ofNat (a.toNat - b.toNat - borrow), 0)

/-- Two words byte by byte, from the last. -/
def zipFromLast (digit : UInt8 → UInt8 → ℕ → UInt8 × ℕ) (a b : Word) : Word where
  bytes := (fromLast digit a.bytes b.bytes).1
  length_eq := by rw [fromLast_length digit (by rw [a.length_eq, b.length_eq]), a.length_eq]

/-- `mermai_vm::add`. -/
def add : Word → Word → Word := zipFromLast addByte

/-- `mermai_vm::sub`. -/
def sub : Word → Word → Word := zipFromLast subByte

/-- `mermai_vm::mul`: the product of the last eight bytes, as a `uint64_t`. -/
def mul (a b : Word) : Word := ofUInt64 (a.toUInt64 * b.toUInt64)

/-- The word that `LT`, `GT` and `EQ` push. -/
def ofBool (b : Bool) : Word := ofByte b.toNat.toUInt8

end Word

end Mermai.Vm
