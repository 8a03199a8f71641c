import Mermai.Core.FormatLaws
import Mermai.Core.Multisig

/-!
# Core.MultisigCodec — the texts of committee accounts and their transactions

`mermai_multisig_account` and `mermai_multisig_tx` are written with separators between their fields.
The reader of an account takes four fields and leaves the keys (`MultisigAccount.deserialize_serialize`);
the reader of a transaction cuts the binary encoding of the base transaction at the first byte that is
a `#` (`MultisigTx.deserialize_serialize_iff`).
-/

namespace Mermai

open Codec

/-! ## Numbers and lines -/

/-- What `std::stoul` and `std::stoull` throw. -/
inductive StdException
  | invalidArgument
  | outOfRange
deriving DecidableEq

/-- `std::stoul` and `std::stoull` for a type with the largest value `max`: white space, a sign, and
the digits up to the first byte that is none.  A minus sign negates in the type. -/
def stoulWith (max : ℕ) (s : Bytes) : Except StdException ℕ :=
  let text := s.dropWhile isSpace
  let unsigned := match text with
    | 43 :: rest | 45 :: rest => rest
    | _ => text
  let digits := unsigned.takeWhile isDecimalDigit
  let value := digits.foldl (fun v b => v * 10 + (b.toNat - 48)) 0
  if digits = [] then .error .invalidArgument
  else if max < value then .error .outOfRange
  else .ok (if text.head? = some 45 then (max + 1 - value) % (max + 1) else value)

/-- `std::stoul`; an `unsigned long` has 64 bits, or 32 on Windows. -/
def stoul (windows : Bool) : Bytes → Except StdException ℕ :=
  stoulWith (if windows then 2 ^ 32 - 1 else 2 ^ 64 - 1)

/-- `std::stoull`. -/
def stoull : Bytes → Except StdException ℕ := stoulWith (2 ^ 64 - 1)

/-- `std::getline` with the separator `|` from a `std::stringstream`, which is the text that is left, or
`none` after its end: the line, when there is one, and the stream behind it. -/
def getline : Option Bytes → Option Bytes × Option Bytes
  | none => (none, none)
  | some text =>
    match Delimited.cut 124 text with
    | some (seg, rest) => (some seg, some rest)
    | none => if text = [] then (none, none) else (some text, none)

theorem getline_append {seg : Bytes} (h : 124 ∉ seg) (rest : Bytes) :
    getline (some (seg ++ 124 :: rest)) = (some seg, some rest) := by
  rw [getline, Delimited.cut_append h]

/-- A byte from the digits on is neither white space nor a sign. -/
theorem isSpace_of_le {b : UInt8} (h : 48 ≤ b.toNat) : isSpace b = false ∧ b ≠ 43 ∧ b ≠ 45 := by
  refine ⟨decide_eq_false ?_, ?_, ?_⟩
  · rintro (rfl | ⟨-, h13⟩)
    · exact absurd h (by decide)
    · have : b.toNat ≤ 13 := h13
      omega
  · rintro rfl
    exact absurd h (by decide)
  · rintro rfl
    exact absurd h (by decide)

theorem isSpace_of_isDecimalDigit {b : UInt8} (h : isDecimalDigit b = true) :
    isSpace b = false ∧ b ≠ 43 ∧ b ≠ 45 :=
  isSpace_of_le (of_decide_eq_true h).1

/-- A number that fits in the type is read back from its text. -/
theorem stoulWith_decimal {max n : ℕ} (h : n ≤ max) : stoulWith max (decimal n) = .ok n := by
  have hdigits : (decimal n).takeWhile isDecimalDigit = decimal n :=
    List.takeWhile_eq_self_iff.mpr fun b hb => isDecimalDigit_of_mem hb
  have hvalue := foldl_decimal n
  have hne := decimal_ne_nil n
  obtain ⟨d, rest, hcons⟩ := List.exists_cons_of_ne_nil hne
  obtain ⟨hspace, hplus, hminus⟩ := isSpace_of_isDecimalDigit
    (isDecimalDigit_of_mem (show d ∈ decimal n by rw [hcons]; exact List.mem_cons_self))
  rw [hcons] at hdigits hvalue hne ⊢
  have hdrop : (d :: rest).dropWhile isSpace = d :: rest := by
    rw [List.dropWhile_cons, hspace]
    rfl
  have hsign : (match d :: rest with
      | 43 :: rest | 45 :: rest => rest
      | _ => d :: rest) = d :: rest := by
    split
    · rename_i heq
      cases heq
      exact absurd rfl hplus
    · rename_i heq
      cases heq
      exact absurd rfl hminus
    · rfl
  have hhead : ¬ (d :: rest).head? = some 45 := by simpa using hminus
  simp only [stoulWith, hdrop, hsign, hdigits, hvalue, if_neg hne, if_neg (not_lt.mpr h),
    if_neg hhead]

/-! ## Accounts -/

/-- `mermai_multisig_account::serialize`. -/
def MultisigAccount.serialize (acct : MultisigAccount) : Bytes :=
  acct.address ++ 124 :: (decimal acct.threshold.toNat ++ 124 :: (decimal acct.balance.toNat ++
    124 :: (decimal acct.nonce.toNat ++ 124 :: keyTexts acct.signers)))

/-- `if (std::getline(ss, seg, '|')) field = read(seg);` with the value the field has before. -/
def assignLine {α : Type} (seg : Option Bytes) (before : α) (read : Bytes → Except StdException α) :
    Except StdException α :=
  match seg with
  | none => .ok before
  | some text => read text

/-- `mermai_multisig_account::deserialize`; the value of `std::stoul` is cut to the 32 bits of the
threshold. -/
def MultisigAccount.deserialize (windows : Bool) (data : Bytes) :
    Except StdException MultisigAccount := do
  let acct : MultisigAccount := {}
  let line1 := getline (some data)
  let address ← assignLine line1.1 acct.address .ok
  let line2 := getline line1.2
  let threshold ← assignLine line2.1 acct.threshold fun seg => UInt32.ofNat <$> stoul windows seg
  let line3 := getline line2.2
  let balance ← assignLine line3.1 acct.balance fun seg => UInt64.ofNat <$> stoull seg
  let line4 := getline line3.2
  let nonce ← assignLine line4.1 acct.nonce fun seg => UInt64.ofNat <$> stoull seg
  pure { acct with address, threshold, balance, nonce }

theorem bar_notMem_address (C : Crypto) (threshold : UInt32) (publicKeys : List Bytes) :
    124 ∉ calculateMultisigAddress C threshold publicKeys := by
  intro h
  rcases List.mem_append.mp h with h | h
  · exact absurd h (by decide)
  · exact notMem_hashToHex (by decide) _ h

/-- **The keys are lost**: an account with an address without bars comes back without its signers. -/
theorem MultisigAccount.deserialize_serialize (windows : Bool) (acct : MultisigAccount)
    (h : 124 ∉ acct.address) :
    MultisigAccount.deserialize windows acct.serialize = .ok { acct with signers := [] } := by
  have hthreshold : stoul windows (decimal acct.threshold.toNat) = .ok acct.threshold.toNat := by
    have hlt := acct.threshold.toNat_lt
    refine stoulWith_decimal ?_
    split_ifs
    · omega
    · omega
  have hlong : ∀ v : UInt64, stoull (decimal v.toNat) = .ok v.toNat := by
    intro v
    have hlt := v.toNat_lt
    exact stoulWith_decimal (by omega)
  simp only [MultisigAccount.deserialize, MultisigAccount.serialize, getline_append h,
    getline_append (notMem_decimal rfl _), assignLine, hthreshold, hlong]
  show Except.ok { acct with
    threshold := UInt32.ofNat acct.threshold.toNat
    balance := UInt64.ofNat acct.balance.toNat
    nonce := UInt64.ofNat acct.nonce.toNat
    signers := [] } = _
  rw [UInt32.ofNat_toNat, UInt64.ofNat_toNat, UInt64.ofNat_toNat]

/-- **When accounts round-trip**: an account of `create_account`, with any balance and nonce, comes back
the same when it has no signers. -/
theorem account_roundtrip_iff (C : Crypto) (windows : Bool) (threshold : UInt32)
    (publicKeys : List Bytes) (balance nonce : UInt64) :
    MultisigAccount.deserialize windows
        { createAccount C threshold publicKeys with balance, nonce }.serialize =
      .ok { createAccount C threshold publicKeys with balance, nonce } ↔ publicKeys = [] := by
  rw [MultisigAccount.deserialize_serialize windows _ (bar_notMem_address C threshold publicKeys)]
  constructor
  · intro h
    exact (congrArg MultisigAccount.signers (Except.ok.inj h)).symm
  · rintro rfl
    rfl

/-- An account with one signer comes back with none. -/
theorem account_signer_lost :
    MultisigAccount.deserialize false (createAccount polyCrypto 1 [[7]]).serialize ≠
      .ok (createAccount polyCrypto 1 [[7]]) := by
  decide +kernel

/-! ## Transactions -/

/-- `mermai_multisig_tx::serialize`. -/
def MultisigTx.serialize (tx : MultisigTx) : Bytes :=
  tx.baseTx.serialize ++ 35 :: tx.multisigAddress

/-- `mermai_multisig_tx::deserialize`; without a `#` the transaction is the default one. -/
def MultisigTx.deserialize (data : Bytes) : Except String MultisigTx :=
  match Delimited.cut 35 data with
  | some (front, back) => do
    let baseTx ← Transaction.deserialize front
    pure { baseTx, multisigAddress := back }
  | none => .ok { baseTx := ⟨[], [], [], 0, 0⟩ }

/-- No byte of a field is a `#`: neither in its text nor in its number, count or length. -/
def Transaction.HashFree (tx : Transaction) : Prop :=
  35 ∉ writeString tx.id ∧ 35 ∉ writeU64 tx.fee ∧ 35 ∉ writeU64 tx.timestamp ∧
  35 ∉ writeBE 4 tx.inputs.length ∧
  (∀ i ∈ tx.inputs, 35 ∉ writeString i.prevTxHash ∧ 35 ∉ writeU32 i.prevOutputIdx ∧
    35 ∉ writeBytes i.signature ∧ 35 ∉ writeBytes i.publicKey) ∧
  35 ∉ writeBE 4 tx.outputs.length ∧
  ∀ o ∈ tx.outputs, 35 ∉ writeString o.address ∧ 35 ∉ writeU64 o.amount

theorem Transaction.hashFree_iff (tx : Transaction) : tx.HashFree ↔ 35 ∉ tx.serialize := by
  simp only [Transaction.HashFree, Transaction.serialize, writeCounted, TxInput.serialize,
    TxOutput.serialize, List.mem_append, List.mem_flatMap, not_or, not_exists, not_and, and_assoc]

/-- The base transaction is cut off where its encoding has no `#`. -/
theorem MultisigTx.deserialize_serialize (tx : MultisigTx) (hwithin : tx.baseTx.Within)
    (hfree : 35 ∉ tx.baseTx.serialize) :
    MultisigTx.deserialize tx.serialize = .ok { tx with signatures := [] } := by
  have hbase : Transaction.deserialize tx.baseTx.serialize = .ok tx.baseTx :=
    (Transaction.deserialize_iff _ _).mpr ⟨rfl, hwithin⟩
  rw [MultisigTx.deserialize, MultisigTx.serialize, Delimited.cut_append hfree]
  simp only [hbase]
  rfl

/-- What is read behind a `#` of the base transaction is longer than the address. -/
theorem MultisigTx.hashFree_of_deserialize (tx : MultisigTx) {tx' : MultisigTx}
    (h : MultisigTx.deserialize tx.serialize = .ok tx')
    (haddress : tx'.multisigAddress = tx.multisigAddress) : 35 ∉ tx.baseTx.serialize := by
  intro hmem
  obtain ⟨front, back, hsplit, hfront⟩ := List.eq_append_cons_of_mem hmem
  rw [MultisigTx.deserialize, MultisigTx.serialize, hsplit, List.append_assoc, List.cons_append,
    Delimited.cut_append hfront] at h
  cases hbase : Transaction.deserialize front with
  | error err =>
    simp only [hbase] at h
    cases h
  | ok baseTx =>
    simp only [hbase] at h
    cases h
    have hlen := congrArg List.length haddress
    simp only [List.length_append, List.length_cons] at hlen
    omega

/-- **When transactions round-trip**: without signatures, and within the limits of the transaction
codec, the base transaction and the address come back when no byte of a field of the base transaction
is a `#`. -/
theorem tx_roundtrip_iff (baseTx : Transaction) (address : Bytes) (hwithin : baseTx.Within) :
    MultisigTx.deserialize (MultisigTx.serialize ⟨baseTx, address, []⟩) = .ok ⟨baseTx, address, []⟩ ↔
      baseTx.HashFree := by
  rw [Transaction.hashFree_iff]
  constructor
  · intro h
    exact MultisigTx.hashFree_of_deserialize ⟨baseTx, address, []⟩ h rfl
  · intro h
    exact MultisigTx.deserialize_serialize ⟨baseTx, address, []⟩ hwithin h

/-- A transaction with the id `a` and nothing else comes back. -/
theorem tx_roundtrip_plain :
    MultisigTx.deserialize (MultisigTx.serialize
        ⟨⟨[97], [], [], 0, 0⟩, calculateMultisigAddress polyCrypto 1 [[7]], []⟩) =
      .ok ⟨⟨[97], [], [], 0, 0⟩, calculateMultisigAddress polyCrypto 1 [[7]], []⟩ :=
  (tx_roundtrip_iff _ _ (by decide)).mpr ((Transaction.hashFree_iff _).mpr (by decide))

/-- With the fee 35 the encoding has a `#` in it, and what is in front of that is no transaction. -/
theorem tx_fee_35_rejected :
    (Transaction.mk [97] [] [] 35 0).Within ∧
    MultisigTx.deserialize (MultisigTx.serialize
        ⟨⟨[97], [], [], 35, 0⟩, calculateMultisigAddress polyCrypto 1 [[7]], []⟩) =
      .error "Unexpected end of payload" := by
  decide +kernel

end Mermai
