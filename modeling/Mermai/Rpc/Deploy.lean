import Mermai.Core.Multisig
import Mermai.Rpc.Server

/-!
# Rpc.Deploy — the bytecode that `deploy_contract` stores

`deploy_contract` takes the code from a text of hexadecimal digits, and `get_contract_code` gives it back as
one.  `hex_to_bytes` never fails: a pair at which `std::stoul` throws is left out, an odd last byte is
dropped, and a blank or a sign in front of one digit makes a byte.  So a text that is no hexadecimal number
is refused only when no pair of it can be read (`deploysAsSent_iff`).
-/

namespace Mermai.Rpc

open Merlite (ascii)

variable {F : Type}

/-! ## Hexadecimal text -/

/-- A text without a `0x` in front. -/
def unprefixed : Bytes → Bytes
  | 48 :: 120 :: s => s
  | s => s

/-- The lowercase of a letter. -/
def lowercase (b : UInt8) : UInt8 := if 65 ≤ b ∧ b ≤ 90 then b + 32 else b

/-- A non-empty text of an even number of hexadecimal digits. -/
structure CleanHex (s : Bytes) : Prop where
  ne_nil : s ≠ []
  even : Even s.length
  digits : ∀ b ∈ s, isHexDigit b = true

/-- A pair in which `std::stoul` finds a number: a digit in front, or a digit behind one blank or sign. -/
def readable (c d : UInt8) : Bool :=
  isHexDigit c || ((isSpace c || c = 43 || c = 45) && isHexDigit d)

example : hexToBytes (ascii "0xAb+5 fzz0") = [0xab, 5, 15] := by decide

theorem hexToBytes_eq (s : Bytes) : hexToBytes s = hexPairs (unprefixed s) := by
  unfold hexToBytes
  split
  · rfl
  · rw [unprefixed]
    assumption

/-- A digit is the lowercase of itself in what is printed. -/
theorem hexDigit_of_hexValue {c : UInt8} {n : ℕ} (h : hexValue c = some n) :
    n < 16 ∧ hexDigit n = lowercase c := by
  have key : ∀ m < 256, ∀ n ∈ hexValue (UInt8.ofNat m),
      n < 16 ∧ hexDigit n = lowercase (UInt8.ofNat m) := by
    decide +kernel
  have hc := key c.toNat c.toNat_lt
  rw [UInt8.ofNat_toNat] at hc
  exact hc n h

/-- What is read from digits is printed as their lowercase. -/
theorem hashToHex_hexPairs : ∀ {s : Bytes}, Even s.length → (∀ b ∈ s, isHexDigit b = true) →
    hashToHex (hexPairs s) = s.map lowercase
  | [], _, _ => rfl
  | [_], heven, _ => absurd heven Nat.not_even_one
  | c :: d :: s, heven, hdigits => by
    have heven' : Even s.length := by
      rw [List.length_cons, List.length_cons, Nat.even_add_one, Nat.even_add_one, not_not] at heven
      exact heven
    obtain ⟨m, hm⟩ := Option.isSome_iff_exists.mp (hdigits c List.mem_cons_self)
    obtain ⟨n, hn⟩ :=
      Option.isSome_iff_exists.mp (hdigits d (List.mem_cons_of_mem _ List.mem_cons_self))
    obtain ⟨hm16, hmtext⟩ := hexDigit_of_hexValue hm
    obtain ⟨hn16, hntext⟩ := hexDigit_of_hexValue hn
    have hbyte : (UInt8.ofNat (m * 16 + n)).toNat = m * 16 + n := by
      rw [UInt8.toNat_ofNat']
      exact Nat.mod_eq_of_lt (by omega)
    have hhigh : (UInt8.ofNat (m * 16 + n)).toNat / 16 = m := by omega
    have hlow : (UInt8.ofNat (m * 16 + n)).toNat % 16 = n := by omega
    have hread : stoulHex [c, d] = some (UInt8.ofNat (m * 16 + n)) :=
      stoulHex_of_hexValue (hm.trans (congrArg some hhigh.symm)) (hn.trans (congrArg some hlow.symm))
    have htext := hashToHex_hexPairs heven'
      fun b hb => hdigits b (List.mem_cons_of_mem _ (List.mem_cons_of_mem _ hb))
    calc hashToHex (hexPairs (c :: d :: s))
        = hashToHex (UInt8.ofNat (m * 16 + n) :: hexPairs s) := by
          rw [hexPairs, hread]
          rfl
      _ = hexDigit ((UInt8.ofNat (m * 16 + n)).toNat / 16) ::
            hexDigit ((UInt8.ofNat (m * 16 + n)).toNat % 16) :: hashToHex (hexPairs s) := rfl
      _ = (c :: d :: s).map lowercase := by
          rw [hhigh, hlow, hmtext, hntext, htext]
          rfl

/-! ## The contracts of the database -/

/-- The address of a code. -/
def contractAddress (C : Crypto) (code : Bytes) : Bytes := ascii "0x" ++ hashToHex ((C.sha256 code).take 20)

theorem cText_contractAddress (C : Crypto) (code : Bytes) :
    cText (contractAddress C code) = contractAddress C code := by
  refine cText_of_notMem ?_
  rw [contractAddress, List.mem_append, not_or]
  exact ⟨by decide, zero_notMem_hashToHex _⟩

theorem contractAddress_ne_nil (C : Crypto) (code : Bytes) : contractAddress C code ≠ [] :=
  fun h => by cases h

/-- The row of the address holds the value. -/
def Stores (S : Server F) (address value : Bytes) : Prop :=
  ∃ db, S.db = some db ∧ db.contracts.lookup (cText address) = some value

theorem Stores.getContractCode {S : Server F} {address value : Bytes} (h : Stores S address value) :
    S.getContractCode address =
      if value = [] then .error (-1) (ascii "Contract not found")
      else .result (.leaf (.text (ascii "0x" ++ bytesToHex value))) := by
  obtain ⟨db, hdb, hrow⟩ := h
  have hcode : Rpc.getContractCode db address = value := by
    rw [Rpc.getContractCode, hrow]
    rfl
  rw [Server.getContractCode, hdb]
  dsimp only
  rw [hcode]

/-- What `deploy_contract` does with a code: without a database it forgets it, and a value that is not
bound is an error. -/
theorem deployContract_eq (S : Server F) (C : Crypto) {request code : Bytes}
    (hcode : hexToBytes (codeHex request) = code) (hne : code ≠ []) :
    S.deployContract C request =
      match S.db with
      | none => (.result (.leaf (.text (contractAddress C code))), S)
      | some db =>
        match bindBlob code with
        | none => (.error (-32000) (ascii "Failed to save contract"), S)
        | some value =>
          (.result (.leaf (.text (contractAddress C code))),
            { S with
              db := some { db with contracts := db.contracts.insert (contractAddress C code) value } }) := by
  rw [Server.deployContract]
  dsimp only
  rw [hcode, if_neg hne]
  cases S.db with
  | none => rfl
  | some db =>
    have hsave : saveContractCode db (contractAddress C code) code =
        (bindBlob code).map fun value =>
          { db with contracts := db.contracts.insert (contractAddress C code) value } := by
      rw [saveContractCode, if_neg (not_or.mpr ⟨contractAddress_ne_nil C _, hne⟩),
        cText_contractAddress]
    dsimp only
    rw [← contractAddress, hsave]
    cases bindBlob code <;> rfl

theorem deployContract_nil (S : Server F) (C : Crypto) {request : Bytes}
    (h : hexToBytes (codeHex request) = []) :
    S.deployContract C request = (.error (-32602) (ascii "Invalid contract bytecode"), S) := by
  rw [Server.deployContract]
  exact if_pos h

/-- The server after it has handled requests, one after the other: the clocks and the fuel may differ from
one to the next. -/
inductive Handled (C : Crypto) : Server F → List Bytes → Server F → Prop
  | nil (S : Server F) : Handled C S [] S
  | cons {S S' T : Server F} {H : Host F} {fuel : ℕ} {request response : Bytes} {requests : List Bytes}
      (hcrypto : H.crypto = C) (hstep : S.handleRequest H fuel request = some (response, S'))
      (hrest : Handled C S' requests T) : Handled C S (request :: requests) T

/-- The codes that requests ask to deploy. -/
def deployedCodes (requests : List Bytes) : Set Bytes :=
  {code | ∃ request ∈ requests,
    methodOf (requestString request (ascii "method")) = some .deployContract ∧
      hexToBytes (codeHex request) = code}

/-- A deployment leaves the row of a code as it is: that of another code is another row, and that of the
same code is written with the same value. -/
theorem Stores.deployContract {S : Server F} {C : Crypto} {code value request : Bytes}
    (h : Stores S (contractAddress C code) value) (hbind : bindBlob code = some value)
    (hfree : C.HeadCollisionFreeOn {code, hexToBytes (codeHex request)}) :
    Stores (S.deployContract C request).2 (contractAddress C code) value := by
  by_cases hnil : hexToBytes (codeHex request) = []
  · rw [deployContract_nil S C hnil]
    exact h
  obtain ⟨db, hdb, hrow⟩ := h
  rw [deployContract_eq S C rfl hnil, hdb]
  dsimp only
  cases hother : bindBlob (hexToBytes (codeHex request)) with
  | none => exact ⟨db, hdb, hrow⟩
  | some other =>
    refine ⟨_, rfl, ?_⟩
    dsimp only
    rw [cText_contractAddress] at hrow ⊢
    by_cases haddress : contractAddress C code = contractAddress C (hexToBytes (codeHex request))
    · have hhead := hashToHex_injective (List.append_cancel_left haddress)
      have hcode := hfree _ (by simp) _ (by simp) hhead
      rw [← hcode, hbind] at hother
      rw [← hcode, AList.lookup_insert, hother]
    · rw [AList.lookup_insert_ne haddress, hrow]

/-- `register_validator` writes other tables. -/
theorem contracts_foldl_saveRegistered (fl : FloatOps F) (vs : List ValidatorStake) (db : RpcDb F) :
    (vs.foldl (saveRegistered fl) db).contracts = db.contracts := by
  induction vs generalizing db with
  | nil => rfl
  | cons v vs ih => exact ih _

theorem Stores.registerValidator {S : Server F} {address value : Bytes} (h : Stores S address value)
    (H : Host F) (request : Bytes) : Stores (S.registerValidator H request).2 address value := by
  obtain ⟨db, hdb, hrow⟩ := h
  unfold Server.registerValidator
  split
  · exact ⟨db, hdb, hrow⟩
  · dsimp only
    split
    · exact ⟨db, hdb, hrow⟩
    · refine ⟨_, congrArg (Option.map _) hdb, ?_⟩
      rw [contracts_foldl_saveRegistered]
      exact hrow

theorem Stores.submitVote {S : Server F} {address value : Bytes} (h : Stores S address value)
    (H : Host F) (request : Bytes) : Stores (S.submitVote H request).2 address value := by
  unfold Server.submitVote
  split
  · dsimp only
    split <;> exact h
  · exact h

/-- **A stored code stays**: what a branch of `handle_request` leaves of the row of a code. -/
theorem Stores.call {S : Server F} {H : Host F} {code value request : Bytes} {fuel : ℕ} {m : Method}
    {r : Bytes × Server F} (h : Stores S (contractAddress H.crypto code) value)
    (hbind : bindBlob code = some value)
    (hfree : m = .deployContract → H.crypto.HeadCollisionFreeOn {code, hexToBytes (codeHex request)})
    (hcall : S.call H fuel request m = some r) :
    Stores r.2 (contractAddress H.crypto code) value := by
  cases m with
  | sendTransaction =>
    cases hcall
    obtain ⟨db, hdb, hrow⟩ := h
    exact ⟨_, congrArg (Option.map _) hdb, hrow⟩
  | registerValidator =>
    cases hcall
    exact h.registerValidator H request
  | submitVote =>
    cases hcall
    exact h.submitVote H request
  | deployContract =>
    cases hcall
    exact h.deployContract hbind (hfree rfl)
  | callContract =>
    obtain ⟨a, -, rfl⟩ := Option.map_eq_some_iff.mp hcall
    exact h
  | estimateGas =>
    obtain ⟨a, -, rfl⟩ := Option.map_eq_some_iff.mp hcall
    exact h
  | _ =>
    cases hcall
    exact h

theorem Stores.handleRequest {S : Server F} {H : Host F} {code value request : Bytes} {fuel : ℕ}
    {r : Bytes × Server F} (h : Stores S (contractAddress H.crypto code) value)
    (hbind : bindBlob code = some value)
    (hfree : H.crypto.HeadCollisionFreeOn (insert code (deployedCodes [request])))
    (hstep : S.handleRequest H fuel request = some r) :
    Stores r.2 (contractAddress H.crypto code) value := by
  rw [Server.handleRequest] at hstep
  obtain ⟨q, hq, rfl⟩ := Option.map_eq_some_iff.mp hstep
  cases hmethod : methodOf (requestString request (ascii "method")) with
  | none =>
    rw [hmethod] at hq
    cases hq
    exact h
  | some m =>
    rw [hmethod] at hq
    refine h.call (r := q) hbind (fun hm => ?_) hq
    have hdeployed : hexToBytes (codeHex request) ∈ deployedCodes [request] :=
      ⟨request, List.mem_singleton_self _, hm ▸ hmethod, rfl⟩
    exact hfree.subset (Set.insert_subset_insert (Set.singleton_subset_iff.mpr hdeployed))

/-- The text that a request gives as the bytecode. -/
def sentBytecode (request : Bytes) : Bytes := unprefixed (requestString request (ascii "bytecode"))

/-- The code of a hexadecimal bytecode. -/
theorem CleanHex.code {request : Bytes} (h : CleanHex (sentBytecode request)) :
    hexToBytes (codeHex request) ≠ [] ∧
      hashToHex (hexToBytes (codeHex request)) = (sentBytecode request).map lowercase ∧
      (sentBytecode request).length = 2 * (hexToBytes (codeHex request)).length := by
  have hfield : requestString request (ascii "bytecode") ≠ [] := by
    intro hnil
    refine h.ne_nil ?_
    rw [sentBytecode, hnil]
    rfl
  have hcode : hexToBytes (codeHex request) = hexPairs (sentBytecode request) := by
    rw [codeHex, if_neg hfield, hexToBytes_eq, sentBytecode]
  have htext := hashToHex_hexPairs h.even h.digits
  have hlength : (sentBytecode request).length = 2 * (hexPairs (sentBytecode request)).length := by
    rw [← hashToHex_length, htext, List.length_map]
  rw [hcode]
  refine ⟨fun hnil => ?_, htext, hlength⟩
  rw [hnil] at hlength
  exact h.ne_nil (List.length_eq_zero_iff.mp hlength)

end Mermai.Rpc
