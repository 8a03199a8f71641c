import Mermai.Lib.Codec
import Mathlib.Data.List.TakeWhile

/-!
# Core.Prims — byte strings and the OpenSSL primitives

`std::string` and `std::vector<uint8_t>` are byte strings (`Bytes`): ids, addresses and hashes are
free text and may hold any byte.  OpenSSL is a parameter: `Crypto` holds SHA-256, the DER parser of
public keys and signature verification.  What a result needs of them (SHA-256 does not collide on
the strings that are hashed) is a hypothesis of that result, never of the model.
-/

namespace Mermai

export Codec (Bytes)

/-- The OpenSSL functions the node calls. -/
structure Crypto where
  /-- `SHA256_Init`, `SHA256_Update`, `SHA256_Final`. -/
  sha256 : Bytes → Bytes
  /-- The digest fills the `SHA256_DIGEST_LENGTH` buffer. -/
  sha256_length : ∀ m, (sha256 m).length = 32
  /-- `d2i_PUBKEY`: the number of bytes of the key at the head of the string, if one parses. -/
  d2iPubkey : Bytes → Option ℕ
  /-- `EVP_DigestVerifyInit`, `Update`, `Final` for the key, the message and the signature. -/
  digestVerify : Bytes → Bytes → Bytes → Bool

/-- SHA-256 has no collision among the strings of `S`. -/
def Crypto.CollisionFreeOn (C : Crypto) (S : Set Bytes) : Prop :=
  ∀ m ∈ S, ∀ m' ∈ S, C.sha256 m = C.sha256 m' → m = m'

theorem Crypto.CollisionFreeOn.subset {C : Crypto} {S T : Set Bytes} (h : C.CollisionFreeOn S)
    (hsub : T ⊆ S) : C.CollisionFreeOn T := fun m hm m' hm' => h m (hsub hm) m' (hsub hm')

/-- A polynomial digest of 32 bytes. -/
def polyDigest (m : Bytes) : Bytes :=
  Codec.writeBE 32 (m.foldl (fun h b => (h * 263 + b.toNat + 1) % 2 ^ 256) 1)

theorem polyDigest_length (m : Bytes) : (polyDigest m).length = 32 := Codec.writeBE_length _ _

/-- An executable stand-in for OpenSSL, to run the model on concrete inputs: every non-empty string
is a key, and a signature is the digest of the key and the message. -/
def polyCrypto : Crypto where
  sha256 := polyDigest
  sha256_length := polyDigest_length
  d2iPubkey key := if key = [] then none else some key.length
  digestVerify key message signature := signature = polyDigest (key ++ message)

/-! ## Text -/

/-- A lowercase hexadecimal digit. -/
def hexDigit (n : ℕ) : UInt8 := UInt8.ofNat (if n < 10 then 48 + n else 87 + n)

/-- `hash_to_hex`, and `hash_text` of the database: two lowercase digits a byte. -/
def hashToHex (hash : Bytes) : Bytes :=
  hash.flatMap fun b => [hexDigit (b.toNat / 16), hexDigit (b.toNat % 16)]

/-- `std::to_string` of an unsigned number. -/
def decimal (n : ℕ) : Bytes := (Nat.toDigits 10 n).map fun c => UInt8.ofNat c.toNat

/-- `std::hex` of an unsigned number. -/
def hexText (n : ℕ) : Bytes := (Nat.toDigits 16 n).map fun c => UInt8.ofNat c.toNat

/-- The text that `sqlite3_bind_text` with length `-1` binds: up to the first NUL byte. -/
def cText (s : Bytes) : Bytes := s.takeWhile (· ≠ 0)

/-- `isspace`. -/
def isSpace (b : UInt8) : Bool := b = 32 ∨ (9 ≤ b ∧ b ≤ 13)

/-- `isdigit`. -/
def isDecimalDigit (b : UInt8) : Bool := 48 ≤ b ∧ b ≤ 57

/-- The all-zero hash text of the genesis block. -/
def zeroHash : Bytes := List.replicate 64 48

theorem hexDigit_inj {m n : ℕ} (hm : m < 16) (hn : n < 16) (h : hexDigit m = hexDigit n) :
    m = n := by
  have key : ∀ i < 16, ∀ j < 16, hexDigit i = hexDigit j → i = j := by decide
  exact key m hm n hn h

theorem hashToHex_injective : Function.Injective hashToHex := by
  intro s t h
  induction s generalizing t with
  | nil =>
    cases t with
    | nil => rfl
    | cons b t => simp [hashToHex] at h
  | cons a s ih =>
    cases t with
    | nil => simp [hashToHex] at h
    | cons b t =>
      simp only [hashToHex, List.flatMap_cons, List.cons_append, List.nil_append,
        List.cons.injEq] at h
      obtain ⟨h1, h2, h3⟩ := h
      have ha := a.toNat_lt
      have hb := b.toNat_lt
      have hd := hexDigit_inj (by omega) (by omega) h1
      have hm := hexDigit_inj (by omega) (by omega) h2
      have hab : a = b := UInt8.toNat_inj.mp (by omega)
      rw [hab, ih h3]

/-- The digits of a number in a base read back. -/
theorem foldl_digits {base : ℕ} (hbase : 1 < base) {value : UInt8 → ℕ}
    (hvalue : ∀ d < base, value (UInt8.ofNat d.digitChar.toNat) = d) (n : ℕ) :
    ((Nat.toDigits base n).map fun c => UInt8.ofNat c.toNat).foldl (fun v b => v * base + value b) 0 =
      n := by
  induction n using Nat.strongRecOn with
  | ind n ih =>
    rw [Nat.toDigits_eq_if hbase]
    split_ifs with hlt
    · simpa using hvalue n hlt
    · have hquot := ih (n / base) (Nat.div_lt_self (by omega) hbase)
      rw [List.map_append, List.foldl_append, hquot, List.map_singleton, List.foldl_cons,
        List.foldl_nil, hvalue _ (Nat.mod_lt _ (by omega))]
      exact Nat.div_add_mod' n base

theorem foldl_decimal (n : ℕ) : (decimal n).foldl (fun v b => v * 10 + (b.toNat - 48)) 0 = n :=
  foldl_digits (by decide) (by decide) n

theorem decimal_injective : Function.Injective decimal := by
  intro m n h
  rw [← foldl_decimal m, h, foldl_decimal]

theorem decimal_ne_nil (n : ℕ) : decimal n ≠ [] := by
  rw [decimal, Ne, List.map_eq_nil_iff]
  exact Nat.toDigits_ne_nil

theorem isDecimalDigit_of_mem {b : UInt8} {n : ℕ} (h : b ∈ decimal n) : isDecimalDigit b = true := by
  obtain ⟨c, hc, rfl⟩ := List.mem_map.mp h
  have hdigit := Nat.isDigit_of_mem_toDigits (by decide) (by decide) hc
  obtain ⟨hlow, hhigh⟩ : 48 ≤ c.toNat ∧ c.toNat ≤ 57 := by
    simpa [Char.isDigit, UInt32.le_iff_toNat_le] using hdigit
  have hbyte : (UInt8.ofNat c.toNat).toNat = c.toNat := by
    rw [UInt8.toNat_ofNat']
    exact Nat.mod_eq_of_lt (by omega)
  refine decide_eq_true ⟨?_, ?_⟩
  · rw [UInt8.le_iff_toNat_le, hbyte]
    exact hlow
  · rw [UInt8.le_iff_toNat_le, hbyte]
    exact hhigh

/-- The text of a number other than zero does not begin with one. -/
theorem eq_zero_of_decimal_head {n : ℕ} (h : (decimal n).head? = some 48) : n = 0 := by
  induction n using Nat.strongRecOn with
  | ind n ih =>
    by_cases hlt : n < 10
    · have key : ∀ m < 10, (decimal m).head? = some 48 → m = 0 := by decide
      exact key n hlt h
    · have hsplit : decimal n = decimal (n / 10) ++ [UInt8.ofNat (n % 10).digitChar.toNat] := by
        rw [decimal, Nat.toDigits_eq_if (by decide), if_neg hlt, List.map_append]
        rfl
      rw [hsplit, List.head?_append_of_ne_nil _ (decimal_ne_nil _)] at h
      have := ih (n / 10) (by omega) h
      omega

theorem hashToHex_length (s : Bytes) : (hashToHex s).length = 2 * s.length := by
  induction s with
  | nil => rfl
  | cons b s ih =>
    rw [hashToHex, List.flatMap_cons, List.length_append, ← hashToHex, ih, List.length_cons]
    simp only [List.length_cons, List.length_nil]
    omega

theorem exists_of_mem_hashToHex {s : Bytes} {b : UInt8} (h : b ∈ hashToHex s) :
    ∃ n < 16, b = hexDigit n := by
  obtain ⟨a, -, ha⟩ := List.mem_flatMap.mp h
  have hlt := a.toNat_lt
  simp only [List.mem_cons, List.not_mem_nil, or_false] at ha
  rcases ha with rfl | rfl
  · exact ⟨a.toNat / 16, by omega, rfl⟩
  · exact ⟨a.toNat % 16, by omega, rfl⟩

theorem notMem_hashToHex {b : UInt8} (hb : ∀ n < 16, b ≠ hexDigit n) (s : Bytes) :
    b ∉ hashToHex s := by
  intro h
  obtain ⟨n, hn, heq⟩ := exists_of_mem_hashToHex h
  exact hb n hn heq

theorem zero_notMem_hashToHex (s : Bytes) : 0 ∉ hashToHex s := notMem_hashToHex (by decide) s

theorem cText_of_notMem {s : Bytes} (h : 0 ∉ s) : cText s = s := by
  refine List.takeWhile_eq_self_iff.mpr ?_
  intro b hb
  have : b ≠ 0 := fun hb0 => h (hb0 ▸ hb)
  simpa using this

/-! ## Positions -/

theorem drop_of_getElem? {s : Bytes} {i : ℕ} {b : UInt8} (h : s[i]? = some b) :
    s.drop i = b :: s.drop (i + 1) := by
  obtain ⟨hlt, rfl⟩ := List.getElem?_eq_some_iff.mp h
  exact List.drop_eq_getElem_cons hlt

theorem drop_eq_nil_of_getElem? {s : Bytes} {i : ℕ} (h : s[i]? = none) : s.drop i = [] := by
  rw [List.drop_eq_nil_iff]
  exact List.getElem?_eq_none_iff.mp h

end Mermai
