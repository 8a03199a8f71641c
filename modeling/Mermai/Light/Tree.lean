import Mermai.Core.MerkleRoot

/-!
# Light.Tree — the Merkle tree of the light client

The class `mermai_merkle_tree` of `mermai_merkle.cpp`: a second tree under the name of the one in the
database.  It keeps all levels, gives inclusion proofs, and hashes the bytes that two hex texts stand
for where the database hashes the texts.  Its own proofs verify against its own root, whatever
function stands in the place of `hash_pair` (`buildWith`, `verifyProofWith`).
-/

namespace Mermai

open Codec

/-! ## Hex text back to bytes -/

/-- The value of a hexadecimal digit of either case. -/
def hexValue (b : UInt8) : Option ℕ :=
  if 48 ≤ b ∧ b ≤ 57 then some (b.toNat - 48)
  else if 97 ≤ b ∧ b ≤ 102 then some (b.toNat - 87)
  else if 65 ≤ b ∧ b ≤ 70 then some (b.toNat - 55)
  else none

/-- The digits of `strtol`, up to the first byte that is none. -/
def strtolDigits : ℕ → Bytes → ℕ
  | value, [] => value
  | value, b :: rest =>
    match hexValue b with
    | some d => strtolDigits (value * 16 + d) rest
    | none => value

/-- `strtol` in base 16 on a text of at most two bytes: white space, a sign, digits.  The text `0x`
has the value of its `0`, as it has without the prefix rule. -/
def strtol (s : Bytes) : ℤ :=
  match s.dropWhile isSpace with
  | 45 :: rest => -(strtolDigits 0 rest : ℤ)
  | 43 :: rest => strtolDigits 0 rest
  | rest => strtolDigits 0 rest

/-- `hex_to_bytes`: an odd last character is dropped. -/
def hexToBytes : Bytes → Bytes
  | c :: d :: rest => UInt8.ofInt (strtol [c, d]) :: hexToBytes rest
  | _ => []

theorem hexToBytes_length : ∀ s : Bytes, (hexToBytes s).length = s.length / 2
  | [] => by simp [hexToBytes]
  | [_] => by simp [hexToBytes]
  | _ :: _ :: rest => by
    rw [hexToBytes, List.length_cons, hexToBytes_length rest, List.length_cons, List.length_cons]
    omega

/-! ## The tree -/

/-- `mermai_merkle_proof_step`. -/
structure MerkleProofStep where
  hash : Bytes
  isRight : Bool := false
deriving DecidableEq

/-- `mermai_merkle_proof`. -/
structure MerkleProof where
  leafHash : Bytes := []
  steps : List MerkleProofStep := []
deriving DecidableEq

/-- `mermai_merkle_tree` of `mermai_merkle.hpp`. -/
structure MerkleTree where
  levels : List (List Bytes) := []

/-- `sha256_hex`. -/
def sha256Hex (C : Crypto) (data : Bytes) : Bytes := hashToHex (C.sha256 data)

/-- `mermai_merkle_tree::hash_pair`: the digest of the bytes of the two hex texts. -/
def hashPair (C : Crypto) (left right : Bytes) : Bytes :=
  sha256Hex C (hexToBytes left ++ hexToBytes right)

/-- `mermai_merkle_tree::build`.  Every round of the `while` loop is a round of `Merkle.levels`. -/
def MerkleTree.build (C : Crypto) (leafHashes : List Bytes) : MerkleTree :=
  if leafHashes = [] then ⟨[[sha256Hex C []]]⟩
  else ⟨Merkle.levels (hashPair C) leafHashes.length leafHashes⟩

/-- `mermai_merkle_tree::get_root`. -/
def MerkleTree.getRoot (t : MerkleTree) : Bytes := (t.levels.getLast?.getD []).headD []

/-- `mermai_merkle_tree::get_leaf_count`. -/
def MerkleTree.getLeafCount (t : MerkleTree) : ℕ :=
  match t.levels with
  | [] => 0
  | leaves :: _ => leaves.length

/-- `mermai_merkle_tree::get_leaf`. -/
def MerkleTree.getLeaf (t : MerkleTree) (index : ℕ) : Bytes :=
  match t.levels with
  | [] => []
  | leaves :: _ => if index ≥ leaves.length then [] else leaves.getD index []

/-- The sibling of node `index` in a level: the node itself when it is an odd last one. -/
def siblingHash (level : List Bytes) (index : ℕ) : Bytes :=
  let siblingIndex := if index % 2 ≠ 0 then index - 1 else index + 1
  if siblingIndex < level.length then level.getD siblingIndex [] else level.getD index []

/-- The loop of `generate_proof` over the levels below the last one. -/
def proofSteps : List (List Bytes) → ℕ → List MerkleProofStep
  | level :: next :: rest, index =>
    ⟨siblingHash level index, !(index % 2 ≠ 0)⟩ :: proofSteps (next :: rest) (index / 2)
  | _, _ => []

/-- `mermai_merkle_tree::generate_proof`. -/
def MerkleTree.generateProof (t : MerkleTree) (leafIndex : ℕ) : MerkleProof :=
  match t.levels with
  | [] => {}
  | leaves :: _ =>
    if leafIndex ≥ leaves.length then {}
    else ⟨leaves.getD leafIndex [], proofSteps t.levels leafIndex⟩

/-- The loop of `verify_proof`. -/
def foldSteps (C : Crypto) (leafHash : Bytes) (steps : List MerkleProofStep) : Bytes :=
  steps.foldl (fun current step =>
    if step.isRight then hashPair C current step.hash else hashPair C step.hash current) leafHash

/-- `mermai_merkle_tree::verify_proof`. -/
def MerkleTree.verifyProof (C : Crypto) (expectedRoot leafHash : Bytes) (proof : MerkleProof) :
    Bool :=
  foldSteps C leafHash proof.steps = expectedRoot

/-! ## Inclusion proofs lead to the root -/

section With

variable (f : Bytes → Bytes → Bytes)

/-- `build` with `f` in the place of `hash_pair`. -/
def MerkleTree.buildWith (C : Crypto) (leafHashes : List Bytes) : MerkleTree :=
  if leafHashes = [] then ⟨[[sha256Hex C []]]⟩
  else ⟨Merkle.levels f leafHashes.length leafHashes⟩

/-- The loop of `verify_proof` with `f` in the place of `hash_pair`. -/
def foldStepsWith (leafHash : Bytes) (steps : List MerkleProofStep) : Bytes :=
  steps.foldl (fun current step =>
    if step.isRight then f current step.hash else f step.hash current) leafHash

/-- `verify_proof` with `f` in the place of `hash_pair`. -/
def MerkleTree.verifyProofWith (expectedRoot leafHash : Bytes) (proof : MerkleProof) : Bool :=
  foldStepsWith f leafHash proof.steps = expectedRoot

theorem MerkleTree.build_eq (C : Crypto) : build C = buildWith (hashPair C) C := rfl

theorem foldSteps_eq (C : Crypto) : foldSteps C = foldStepsWith (hashPair C) := rfl

theorem MerkleTree.verifyProof_eq (C : Crypto) : verifyProof C = verifyProofWith (hashPair C) := rfl

/-- One step of a proof: from a node to the node above it. -/
theorem foldStepsWith_step {level : List Bytes} {i : ℕ} (hi : i < level.length) :
    foldStepsWith f (level.getD i []) [⟨siblingHash level i, !(i % 2 ≠ 0)⟩] =
      (Merkle.pairUp f level).getD (i / 2) [] := by
  have hup := Merkle.getElem?_pairUp f level (i / 2)
  have hgetD : (Merkle.pairUp f level).getD (i / 2) [] =
      ((Merkle.pairUp f level)[i / 2]?).getD [] := List.getD_eq_getElem?_getD
  rw [hgetD, hup]
  simp only [foldStepsWith, List.foldl_cons, List.foldl_nil, siblingHash]
  rcases Nat.mod_two_eq_zero_or_one i with h | h
  · have h2 : 2 * (i / 2) = i := by omega
    rw [h2, List.getElem?_eq_getElem hi]
    by_cases hs : i + 1 < level.length
    · simp [h, hs, hi]
    · simp [h, hs, hi]
  · have h2 : 2 * (i / 2) = i - 1 := by omega
    have h3 : i - 1 + 1 = i := by omega
    have hs : i - 1 < level.length := by omega
    rw [h2, h3, List.getElem?_eq_getElem hi, List.getElem?_eq_getElem hs]
    simp [h, hs, hi]

theorem headD_eq_getD (l : List Bytes) : l.headD [] = l.getD 0 [] := by
  cases l with
  | nil => rfl
  | cons a l => rfl

/-- From any node of a level the proof leads to the root of the levels from there on. -/
theorem foldStepsWith_proofSteps {n : ℕ} {level : List Bytes} (hn : level.length ≤ n)
    {i : ℕ} (hi : i < level.length) :
    foldStepsWith f (level.getD i []) (proofSteps (Merkle.levels f n level) i) =
      MerkleTree.getRoot ⟨Merkle.levels f n level⟩ := by
  induction n generalizing level i with
  | zero => omega
  | succ n ih =>
    by_cases hl : 1 < level.length
    · have hlen := Merkle.length_pairUp f level
      have hn' : (Merkle.pairUp f level).length ≤ n := by omega
      have hi' : i / 2 < (Merkle.pairUp f level).length := by omega
      have hih := ih hn' hi'
      obtain ⟨rest, hnext⟩ := Merkle.levels_cons f n (Merkle.pairUp f level)
      rw [MerkleTree.getRoot] at hih ⊢
      rw [Merkle.getLast?_levels_of_lt hl, ← hih, Merkle.levels_of_lt hl, hnext, proofSteps,
        ← foldStepsWith_step f hi]
      rfl
    · have hi0 : i = 0 := by omega
      rw [Merkle.levels, if_neg hl, MerkleTree.getRoot, hi0]
      simp only [proofSteps, foldStepsWith, List.foldl_nil, List.getLast?_singleton,
        Option.getD_some]
      rw [headD_eq_getD]

variable {f}

/-- The levels of a tree are those over its leaves; no leaf at all stands as one digest. -/
theorem MerkleTree.buildWith_levels (C : Crypto) (leafHashes : List Bytes) :
    ∃ leaves, (buildWith f C leafHashes).levels = Merkle.levels f leaves.length leaves := by
  by_cases hne : leafHashes = []
  · exact ⟨[sha256Hex C []], by rw [buildWith, if_pos hne]; rfl⟩
  · exact ⟨leafHashes, by rw [buildWith, if_neg hne]⟩

theorem MerkleTree.getLeafCount_eq {t : MerkleTree} {leaves : List Bytes}
    (ht : t.levels = Merkle.levels f leaves.length leaves) : t.getLeafCount = leaves.length := by
  obtain ⟨rest, hrest⟩ := Merkle.levels_cons f leaves.length leaves
  rw [getLeafCount, ht, hrest]

/-- In a tree the proof of a leaf leads to the root. -/
theorem MerkleTree.foldStepsWith_generateProof {t : MerkleTree} {leaves : List Bytes}
    (ht : t.levels = Merkle.levels f leaves.length leaves) {i : ℕ} (hi : i < leaves.length) :
    t.getLeaf i = leaves.getD i [] ∧
      foldStepsWith f (leaves.getD i []) (t.generateProof i).steps = t.getRoot := by
  obtain ⟨rest, hrest⟩ := Merkle.levels_cons f leaves.length leaves
  have hroot : t.getRoot = getRoot ⟨Merkle.levels f leaves.length leaves⟩ := by
    rw [getRoot, getRoot, ht]
  have hsteps : (t.generateProof i).steps = proofSteps (Merkle.levels f leaves.length leaves) i := by
    rw [generateProof, ht]
    simp only [hrest]
    rw [if_neg (by omega)]
  constructor
  · rw [getLeaf, ht, hrest]
    exact if_neg (by omega)
  · rw [hsteps, hroot]
    exact foldStepsWith_proofSteps f le_rfl hi

end With

/-- **Merkle proofs are complete**: for every list of leaves, every index below the leaf count, and
any function in the place of `hash_pair`, the proof of a leaf verifies against the root. -/
theorem MerkleTree.verifyProof_complete (f : Bytes → Bytes → Bytes) (C : Crypto)
    (leafHashes : List Bytes) (i : ℕ) (hi : i < (buildWith f C leafHashes).getLeafCount) :
    verifyProofWith f (buildWith f C leafHashes).getRoot ((buildWith f C leafHashes).getLeaf i)
      ((buildWith f C leafHashes).generateProof i) = true := by
  obtain ⟨leaves, ht⟩ := buildWith_levels (f := f) C leafHashes
  rw [getLeafCount_eq ht] at hi
  obtain ⟨hleaf, hfold⟩ := foldStepsWith_generateProof ht hi
  rw [verifyProofWith, hleaf, hfold]
  exact decide_eq_true rfl

/-- The proof of the last of three leaves, whose sibling is itself, with concatenation for the
hash. -/
theorem MerkleTree.verifyProof_three :
    (buildWith (· ++ ·) polyCrypto [[1], [2], [3]]).getRoot = [1, 2, 3, 3] ∧
    verifyProofWith (· ++ ·) [1, 2, 3, 3] [3]
      ((buildWith (· ++ ·) polyCrypto [[1], [2], [3]]).generateProof 2) = true :=
  ⟨rfl, verifyProof_complete (· ++ ·) polyCrypto [[1], [2], [3]] 2 (by decide)⟩

theorem foldSteps_generateProof (C : Crypto) {leafHashes : List Bytes} {i : ℕ}
    (hi : i < leafHashes.length) :
    foldSteps C (leafHashes.getD i [])
        (((MerkleTree.build C leafHashes).generateProof i).steps) =
      (MerkleTree.build C leafHashes).getRoot := by
  have hne : leafHashes ≠ [] := List.ne_nil_of_length_pos (by omega)
  have ht : (MerkleTree.buildWith (hashPair C) C leafHashes).levels =
      Merkle.levels (hashPair C) leafHashes.length leafHashes := by
    rw [MerkleTree.buildWith, if_neg hne]
  rw [foldSteps_eq, MerkleTree.build_eq]
  exact (MerkleTree.foldStepsWith_generateProof ht hi).2

/-! ## The strings that are hashed -/

/-- The strings the tree over `leafHashes` hashes. -/
def MerkleTree.inputs (C : Crypto) (leafHashes : List Bytes) : List Bytes :=
  (Merkle.combined (hashPair C) leafHashes.length leafHashes).map
    fun p => hexToBytes p.1 ++ hexToBytes p.2

theorem hashPair_digest (C : Crypto) (a b : Bytes) : IsDigest C (hashPair C a b) :=
  ⟨hexToBytes a ++ hexToBytes b, rfl⟩

/-- The root over at least two digests is the digest of 64 bytes. -/
theorem getRoot_preimage (C : Crypto) {leafHashes : List Bytes} (h : 1 < leafHashes.length)
    (hd : ∀ a ∈ leafHashes, IsDigest C a) : ∃ m ∈ MerkleTree.inputs C leafHashes,
      m.length = 64 ∧ (MerkleTree.build C leafHashes).getRoot = sha256Hex C m := by
  have hne : leafHashes ≠ [] := List.ne_nil_of_length_pos (by omega)
  obtain ⟨k, r, hk, hlast, hr⟩ := Merkle.levels_reduces (f := hashPair C) hne le_rfl
  obtain ⟨k, rfl⟩ := Nat.exists_eq_succ_of_ne_zero (hk h).ne'
  obtain ⟨a, b, ⟨ha, hb, hab⟩, hroot⟩ := (hr.nodes (hashPair_digest C) hd).root
  refine ⟨hexToBytes a ++ hexToBytes b, List.mem_map.mpr ⟨(a, b), hab, rfl⟩, ?_, ?_⟩
  · rw [List.length_append, hexToBytes_length, hexToBytes_length, ha.length, hb.length]
  · rw [MerkleTree.build, if_neg hne, MerkleTree.getRoot, hlast]
    exact hroot

end Mermai
