import Mermai.Lib.StdMap
import Mermai.Vm.Word

/-!
# Db.ContractStorage — the table of contract storage

`save_contract_storage`, `get_contract_storage` and `get_contract_all_storage`.  The virtual machine has
words of 32 bytes as keys; the table has text, which is bound up to the first NUL byte.  So all keys that
agree up to there share a row, all small numbers among them, whose words begin with zeros.  A run of saves
acts as a map exactly when no key it saves has a NUL byte (`storage_is_map_iff`).
-/

namespace Mermai

open Sql Vm

/-! ## The functions -/

/-- `contract_storage` with `PRIMARY KEY(contract_address, storage_key)`. -/
abbrev ContractStorage := Table (Bytes × Bytes) Bytes

/-- `static_cast<int>` of a size. -/
def intSize (n : ℕ) : ℤ := (BitVec.ofNat 32 n).toInt

/-- `bind_blob`, whose size goes through `int`; a negative one binds nothing. -/
def bindBlob (value : Bytes) : Option Bytes :=
  if 0 ≤ intSize value.length then some (value.take (intSize value.length).toNat) else none

/-- `save_contract_storage`: without a value the constraint `NOT NULL` refuses the row. -/
def saveContractStorage (t : ContractStorage) (contractAddress key value : Bytes) :
    Bool × ContractStorage :=
  match bindBlob value with
  | none => (false, t)
  | some blob => (true, t.insert (cText contractAddress, cText key) blob)

/-- `get_contract_storage`. -/
def getContractStorage (t : ContractStorage) (contractAddress key : Bytes) : Bytes :=
  (t.lookup (cText contractAddress, cText key)).getD []

/-- `get_contract_all_storage`. -/
def getContractAllStorage (t : ContractStorage) (contractAddress : Bytes) : Table Bytes Bytes :=
  ((t.entries.filter fun e => e.1.1 = cText contractAddress).map fun e => (cText e.1.2, e.2)).foldl
    (fun result p => result.insert p.1 p.2) ∅

/-! ## Sizes and texts -/

theorem intSize_eq (n : ℕ) :
    intSize n =
      if n % 2 ^ 32 < 2 ^ 31 then ((n % 2 ^ 32 : ℕ) : ℤ) else ((n % 2 ^ 32 : ℕ) : ℤ) - 2 ^ 32 := by
  rw [intSize, BitVec.toInt_eq_toNat_cond, BitVec.toNat_ofNat]
  split_ifs <;> omega

/-- A value that is bound is bound whole exactly when its size is an `int`. -/
theorem bindBlob_eq_some {value blob : Bytes} (h : bindBlob value = some blob) :
    blob = value ↔ value.length < 2 ^ 31 := by
  rw [bindBlob, intSize_eq] at h
  split_ifs at h with hsize hsign hsign
  · rw [← Option.some.inj h, Int.toNat_natCast, List.take_eq_self_iff]
    omega
  · omega

theorem bindBlob_isSome {value : Bytes} :
    (bindBlob value).isSome = true ↔ value.length % 2 ^ 32 < 2 ^ 31 := by
  have hsign : 0 ≤ intSize value.length ↔ value.length % 2 ^ 32 < 2 ^ 31 := by
    rw [intSize_eq]
    split_ifs <;> omega
  rw [bindBlob, ← hsign]
  split_ifs with h <;> simp [h]

theorem zero_notMem_cText (s : Bytes) : 0 ∉ cText s := by
  intro h
  have hzero := List.mem_takeWhile_imp h
  simp at hzero

/-- A text as long as a word is a word without NUL bytes. -/
theorem cText_eq_bytes {k k' : Word} (h : cText k.bytes = k'.bytes) : k = k' := by
  have hlength : (cText k.bytes).length = k.bytes.length := by
    rw [h, k.length_eq, k'.length_eq]
  have hwhole : cText k.bytes = k.bytes := (List.takeWhile_prefix _).eq_of_length hlength
  rw [hwhole] at h
  cases k
  cases k'
  cases h
  rfl

/-! ## Runs of saves -/

/-- A call of `save_contract_storage` for a contract without NUL bytes and a word of the machine. -/
structure StorageSave where
  contract : Bytes
  key : Word
  value : Bytes
  clean : 0 ∉ contract

namespace StorageSave

def call (t : ContractStorage) (s : StorageSave) : Bool × ContractStorage :=
  saveContractStorage t s.contract s.key.bytes s.value

/-- The row that a save writes. -/
def row (s : StorageSave) : Option ((Bytes × Bytes) × Bytes) :=
  (bindBlob s.value).map fun blob => ((s.contract, cText s.key.bytes), blob)

theorem call_eq (t : ContractStorage) (s : StorageSave) :
    s.call t = (s.row.isSome, s.row.elim t fun p => t.insert p.1 p.2) := by
  unfold call row saveContractStorage
  rw [cText_of_notMem s.clean]
  cases bindBlob s.value <;> rfl

end StorageSave

/-- The table after a run of saves. -/
def afterSaves (saves : List StorageSave) : ContractStorage :=
  Run.after (fun t (s : StorageSave) => s.call t) ∅ saves

/-- What was saved with success, in order. -/
def savedWords (saves : List StorageSave) : List ((Bytes × Word) × Bytes) :=
  ((Run.log (fun t (s : StorageSave) => s.call t) ∅ saves).filter fun e => e.2).map
    fun e => ((e.1.contract, e.1.key), e.1.value)

theorem afterSaves_concat (saves : List StorageSave) (s : StorageSave) :
    afterSaves (saves ++ [s]) = (s.call (afterSaves saves)).2 :=
  Run.after_append _ _ _ [s]

theorem savedWords_concat (saves : List StorageSave) (s : StorageSave) :
    savedWords (saves ++ [s]) = savedWords saves ++
      if s.row.isSome then [((s.contract, s.key), s.value)] else [] := by
  unfold savedWords
  rw [Run.log_concat, List.filter_append, List.map_append, StorageSave.call_eq]
  cases h : s.row.isSome <;> simp

/-- A row of the table is what a save has written last under its key. -/
theorem lookup_afterSaves (saves : List StorageSave) (k : Bytes × Bytes) :
    (afterSaves saves).lookup k = Run.written (saves.filterMap StorageSave.row) k := by
  induction saves using List.reverseRecOn with
  | nil => rfl
  | append_singleton saves s ih =>
    rw [afterSaves_concat, StorageSave.call_eq, List.filterMap_append]
    cases hrow : s.row with
    | none => simpa [hrow] using ih
    | some p =>
      have hone : [s].filterMap StorageSave.row = [p] := by simp [hrow]
      rw [hone, Run.written_concat]
      show ((afterSaves saves).insert p.1 p.2).lookup k = _
      by_cases hk : k = p.1
      · rw [hk, AList.lookup_insert, if_pos rfl]
      · rw [AList.lookup_insert_ne hk, if_neg hk, ih]

/-- The keys of the table have no NUL bytes. -/
theorem afterSaves_clean {saves : List StorageSave} {c key value : Bytes}
    (h : (afterSaves saves).lookup (c, key) = some value) : 0 ∉ key := by
  rw [lookup_afterSaves] at h
  obtain ⟨s, -, hs⟩ := List.mem_filterMap.mp (Run.mem_of_written h)
  obtain ⟨blob, -, hrow⟩ := Option.map_eq_some_iff.mp hs
  cases hrow
  exact zero_notMem_cText _

/-- `get_contract_all_storage` has the rows of the contract. -/
theorem lookup_getContractAllStorage {saves : List StorageSave} {c : Bytes} (hc : 0 ∉ c)
    (key value : Bytes) :
    (getContractAllStorage (afterSaves saves) c).lookup key = some value ↔
      (afterSaves saves).lookup (c, key) = some value := by
  set t := afterSaves saves with ht
  set ps := (t.entries.filter fun e => e.1.1 = cText c).map fun e => (cText e.1.2, e.2) with hps
  have hread : ∀ e ∈ t.entries, cText e.1.2 = e.1.2 := by
    rintro ⟨⟨c', key'⟩, value'⟩ he
    exact cText_of_notMem (afterSaves_clean (AList.mem_lookup_iff.mpr he))
  have hmem : ∀ key value, (key, value) ∈ ps ↔ t.lookup (c, key) = some value := by
    intro key value
    rw [← Option.mem_def, AList.mem_lookup_iff]
    simp only [hps, List.mem_map, List.mem_filter, decide_eq_true_eq, Prod.mk.injEq,
      cText_of_notMem hc]
    constructor
    · rintro ⟨⟨⟨c', key'⟩, value'⟩, ⟨he, rfl⟩, hkey, rfl⟩
      rw [hread _ he] at hkey
      rw [← hkey]
      exact he
    · intro he
      exact ⟨⟨(c, key), value⟩, ⟨he, rfl⟩, hread _ he, rfl⟩
  have hnodup : (ps.map Prod.fst).Nodup := by
    rw [hps, List.map_map]
    refine List.Nodup.map_on ?_ ((List.Nodup.of_map _ t.nodupKeys).filter _)
    rintro e he e' he' hkeys
    obtain ⟨he, hc'⟩ := List.mem_filter.mp he
    obtain ⟨he', hc''⟩ := List.mem_filter.mp he'
    have hfst : e.1 = e'.1 := Prod.ext
      ((of_decide_eq_true hc').trans (of_decide_eq_true hc'').symm)
      ((hread e he).symm.trans (hkeys.trans (hread e' he')))
    exact List.inj_on_of_nodup_map t.nodupKeys he he' hfst
  rw [getContractAllStorage, ← hps, StdMap.lookup_foldl_insert, AList.lookup_empty, Option.or_none,
    Run.written_eq_some_iff_mem hnodup, hmem]

/-! ## Storage as a map -/

/-- After a save its value is read back, every other word of a contract reads as before, and the
storage of the contract is what was saved last, word by word. -/
structure ActsAsMap (before : List StorageSave) (s : StorageSave) : Prop where
  read : getContractStorage (afterSaves (before ++ [s])) s.contract s.key.bytes = s.value
  others : ∀ (c : Bytes) (k : Word), 0 ∉ c → (c, k) ≠ (s.contract, s.key) →
    getContractStorage (afterSaves (before ++ [s])) c k.bytes =
      getContractStorage (afterSaves before) c k.bytes
  all : ∀ key value,
    (getContractAllStorage (afterSaves (before ++ [s])) s.contract).lookup key = some value ↔
      ∃ k : Word, k.bytes = key ∧
        Run.written (savedWords (before ++ [s])) (s.contract, k) = some value

/-- Without NUL bytes and with sizes that are an `int`, the rows are the saved words. -/
theorem rows_eq_savedWords {saves : List StorageSave}
    (h : ∀ s ∈ saves, s.row.isSome → 0 ∉ s.key.bytes ∧ s.value.length < 2 ^ 31) :
    saves.filterMap StorageSave.row =
      (savedWords saves).map (Prod.map (Prod.map id Word.bytes) id) := by
  induction saves using List.reverseRecOn with
  | nil => rfl
  | append_singleton saves s ih =>
    rw [List.filterMap_append, savedWords_concat, List.map_append,
      ih fun s hs => h s (List.mem_append_left _ hs)]
    have hs := h s (by simp)
    cases hrow : s.row with
    | none => simp [hrow]
    | some p =>
      rw [hrow] at hs
      obtain ⟨hkey, hsize⟩ := hs rfl
      obtain ⟨blob, hblob, rfl⟩ := Option.map_eq_some_iff.mp hrow
      have hvalue : blob = s.value := (bindBlob_eq_some hblob).mpr hsize
      simp [hrow, hvalue, cText_of_notMem hkey]

theorem actsAsMap_of_clean {before : List StorageSave} {s : StorageSave}
    (h : ∀ s' ∈ before ++ [s], s'.row.isSome → 0 ∉ s'.key.bytes ∧ s'.value.length < 2 ^ 31)
    (hsaved : (s.call (afterSaves before)).1 = true) : ActsAsMap before s := by
  rw [StorageSave.call_eq] at hsaved
  obtain ⟨p, hrow⟩ := Option.isSome_iff_exists.mp hsaved
  obtain ⟨blob, hblob, hp⟩ := Option.map_eq_some_iff.mp hrow
  obtain ⟨hkey, hsize⟩ := h s (by simp) hsaved
  have hp' : p = ((s.contract, s.key.bytes), s.value) := by
    rw [← hp, (bindBlob_eq_some hblob).mpr hsize, cText_of_notMem hkey]
  have hafter : afterSaves (before ++ [s]) =
      (afterSaves before).insert (s.contract, s.key.bytes) s.value := by
    rw [afterSaves_concat, StorageSave.call_eq, hrow, hp']
    rfl
  constructor
  case read =>
    rw [hafter, getContractStorage, cText_of_notMem s.clean, cText_of_notMem hkey,
      AList.lookup_insert]
    rfl
  case others =>
    intro c k hc hne
    have hne' : (cText c, cText k.bytes) ≠ (s.contract, s.key.bytes) := by
      rw [cText_of_notMem hc]
      rintro heq
      obtain ⟨rfl, hk⟩ := Prod.mk.injEq .. ▸ heq
      exact hne (by rw [cText_eq_bytes hk])
    rw [hafter, getContractStorage, AList.lookup_insert_ne hne']
    rfl
  case all =>
    intro key value
    have hinj : Function.Injective (Prod.map id Word.bytes : Bytes × Word → Bytes × Bytes) := by
      refine Function.injective_id.prodMap ?_
      rintro ⟨bytes, -⟩ ⟨bytes', -⟩ rfl
      rfl
    rw [lookup_getContractAllStorage s.clean, lookup_afterSaves, rows_eq_savedWords h,
      Run.written_map hinj]
    simp only [id, Prod.map, Prod.mk.injEq, Prod.exists]
    constructor
    · rintro ⟨c, k, v, hwritten, ⟨rfl, hk⟩, rfl⟩
      exact ⟨k, hk, hwritten⟩
    · rintro ⟨k, hk, hwritten⟩
      exact ⟨s.contract, k, value, hwritten, ⟨rfl, hk⟩, rfl⟩

/-- **Contract storage is a map exactly when** no word that is saved has a NUL byte and no value that is
saved is too long for an `int`. -/
theorem storage_is_map_iff (saves : List StorageSave) :
    (∀ before s, before ++ [s] <+: saves → (s.call (afterSaves before)).1 = true →
      ActsAsMap before s) ↔
      ∀ s ∈ saves, s.value.length % 2 ^ 32 < 2 ^ 31 →
        0 ∉ s.key.bytes ∧ s.value.length < 2 ^ 31 := by
  have hrow : ∀ s : StorageSave, s.row.isSome = true ↔ s.value.length % 2 ^ 32 < 2 ^ 31 := by
    intro s
    rw [StorageSave.row, Option.isSome_map, bindBlob_isSome]
  constructor
  · intro hmap s hs hsize
    obtain ⟨before, behind, rfl⟩ := List.append_of_mem hs
    have hpre : before ++ [s] <+: before ++ s :: behind := ⟨behind, by simp⟩
    have hsome := (hrow s).mpr hsize
    have hacts := hmap before s hpre (by rw [StorageSave.call_eq]; exact hsome)
    constructor
    · -- the word itself is among the keys of the contract, whose texts have no NUL byte
      have hwritten : Run.written (savedWords (before ++ [s])) (s.contract, s.key) =
          some s.value := by
        rw [savedWords_concat, if_pos hsome, Run.written_concat, if_pos rfl]
      have hall := (hacts.all _ _).mpr ⟨s.key, rfl, hwritten⟩
      exact afterSaves_clean ((lookup_getContractAllStorage s.clean _ _).mp hall)
    · obtain ⟨p, hp⟩ := Option.isSome_iff_exists.mp hsome
      obtain ⟨blob, hblob, rfl⟩ := Option.map_eq_some_iff.mp hp
      have hread := hacts.read
      rw [getContractStorage, afterSaves_concat, StorageSave.call_eq, hp,
        cText_of_notMem s.clean] at hread
      simp only [Option.elim_some, AList.lookup_insert, Option.getD_some] at hread
      exact (bindBlob_eq_some hblob).mp hread
  · intro hclean before s hpre hsaved
    refine actsAsMap_of_clean (fun s' hs' hsome => ?_) hsaved
    exact hclean s' (hpre.subset hs') ((hrow s').mp hsome)

/-- A small number under a small number, in the contract `c`. -/
def smallSave (b : UInt8) : StorageSave := ⟨[99], Word.ofByte b, [b], by decide⟩

/-- The words 1 and 2 begin with a zero: the second save replaces the first. -/
theorem small_words_share_row :
    ((smallSave 1).call ∅).1 = true ∧ ((smallSave 2).call (afterSaves [smallSave 1])).1 = true ∧
      getContractStorage (afterSaves [smallSave 1]) [99] (Word.ofByte 1).bytes = [1] ∧
      getContractStorage (afterSaves [smallSave 1, smallSave 2]) [99] (Word.ofByte 1).bytes = [2] ∧
      ¬ ActsAsMap [smallSave 1] (smallSave 2) := by
  refine ⟨by decide, by decide, by decide, by decide, fun h => ?_⟩
  have hother := h.others [99] (Word.ofByte 1) (by decide) (by decide)
  revert hother
  decide

end Mermai
