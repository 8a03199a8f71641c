import Mermai.Lib.Run
import Mermai.Lib.Sql

/-!
# Lib.StdMap — `std::map`

A finite map by keys, on top of the keyed tables of `Lib.Sql`.  Reading `m[k]` makes the entry when
there is none (`subscript`); `valueAt` is the value such a read sees.  A write changes a sum over the
values by the difference of the new value and the old one (`total_insert`).  A loop over the map runs in
the order of the keys (`inOrder`), and `minElement` is `std::min_element` over such a loop.
-/

namespace StdMap

open Sql (Table)

variable {K V : Type} [DecidableEq K]

/-! ## Writes -/

/-- A run of writes leaves what is written last, or what was there. -/
theorem lookup_foldl_insert (ps : List (K × V)) (m : Table K V) (k : K) :
    (ps.foldl (fun m p => m.insert p.1 p.2) m).lookup k = (Run.written ps k).or (m.lookup k) := by
  induction ps using List.reverseRecOn with
  | nil => rfl
  | append_singleton ps p ih =>
    rw [List.foldl_append, List.foldl_cons, List.foldl_nil, Run.written_concat]
    by_cases h : k = p.1
    · rw [h, AList.lookup_insert, if_pos rfl, Option.some_or]
    · rw [AList.lookup_insert_ne h, ih, if_neg h]

/-- A map that has what is written under keys that differ has these entries and no others. -/
theorem entries_perm {m : Table K V} {ps : List (K × V)} (hps : (ps.map Prod.fst).Nodup)
    (h : ∀ k, m.lookup k = Run.written ps k) : (m.entries.map fun e => (e.1, e.2)).Perm ps := by
  have hkeys : ((m.entries.map fun e => (e.1, e.2)).map Prod.fst).Nodup := by
    rw [List.map_map]
    exact m.nodupKeys
  refine (List.perm_ext_iff_of_nodup hkeys.of_map hps.of_map).mpr ?_
  rintro ⟨k, v⟩
  rw [← Run.written_eq_some_iff_mem hps, ← h, ← Option.mem_def, AList.mem_lookup_iff]
  constructor
  · intro hmem
    obtain ⟨e, he, heq⟩ := List.mem_map.mp hmem
    cases heq
    exact he
  · exact fun hmem => List.mem_map.mpr ⟨_, hmem, rfl⟩

/-! ## Subscripts -/

section Subscript

variable [Zero V]

/-- The value `m[k]` sees: zero when there is no entry. -/
def valueAt (m : Table K V) (k : K) : V := (m.lookup k).getD 0

/-- The map after a read of `m[k]`. -/
def subscript (m : Table K V) (k : K) : Table K V := if k ∈ m then m else m.insert k 0

theorem valueAt_of_notMem {m : Table K V} {k : K} (h : k ∉ m) : valueAt m k = 0 := by
  rw [valueAt, AList.lookup_eq_none.mpr h, Option.getD_none]

/-- A write is an update of the values. -/
theorem valueAt_insert (m : Table K V) (k : K) (v : V) :
    valueAt (m.insert k v) = Function.update (valueAt m) k v := by
  funext k'
  by_cases h : k' = k
  · rw [h, Function.update_self, valueAt, AList.lookup_insert, Option.getD_some]
  · rw [Function.update_of_ne h, valueAt, AList.lookup_insert_ne h, ← valueAt]

/-- A read changes no value. -/
theorem valueAt_subscript (m : Table K V) (k : K) : valueAt (subscript m k) = valueAt m := by
  unfold subscript
  split_ifs with h
  · rfl
  · rw [valueAt_insert, ← valueAt_of_notMem h, Function.update_eq_self]

end Subscript

/-! ## Sums -/

section Sum

variable [Zero V] {f : V → ℕ} (hf : f 0 = 0)
include hf

/-- What a map holds outside one key, and at it. -/
theorem total_eq_erase (m : Table K V) (k : K) :
    Sql.total f m = Sql.total f (m.erase k) + f (valueAt m k) := by
  cases hv : m.lookup k with
  | none =>
    have hk : k ∉ m := AList.lookup_eq_none.mp hv
    have herase : (m.erase k).entries = m.entries := List.kerase_of_notMem_keys hk
    rw [valueAt_of_notMem hk, hf, Nat.add_zero, Sql.total, Sql.total, herase]
  | some v =>
    have hk : k ∈ m := by
      rw [← AList.lookup_isSome, hv]
      rfl
    rw [valueAt, hv, Option.getD_some]
    exact Sql.total_deleteRow f (Sql.deleteRow_eq_some.mpr ⟨hk, rfl⟩) hv

/-- **A write** changes the sum by the difference of the two values. -/
theorem total_insert (m : Table K V) (k : K) (v : V) :
    Sql.total f (m.insert k v) + f (valueAt m k) = Sql.total f m + f v := by
  have hins : Sql.total f (m.insert k v) = Sql.total f (m.erase k) + f v := by
    rw [Sql.total, AList.entries_insert, List.map_cons, List.sum_cons, Nat.add_comm]
    rfl
  have herase := total_eq_erase hf m k
  omega

theorem valueAt_le_total (m : Table K V) (k : K) : f (valueAt m k) ≤ Sql.total f m := by
  have herase := total_eq_erase hf m k
  omega

theorem total_subscript (m : Table K V) (k : K) :
    Sql.total f (subscript m k) = Sql.total f m := by
  unfold subscript
  split_ifs with h
  · rfl
  · have hins := total_insert hf m k 0
    rw [valueAt_of_notMem h] at hins
    omega

end Sum

/-! ## Sizes and loops -/

/-- `size`. -/
def size (m : Table K V) : ℕ := m.entries.length

theorem size_insert {m : Table K V} {k : K} (h : k ∉ m) (v : V) :
    size (m.insert k v) = size m + 1 := by
  rw [size, AList.entries_insert_of_notMem h, List.length_cons]
  rfl

theorem size_erase {m : Table K V} {k : K} (h : k ∈ m) : size (m.erase k) + 1 = size m := by
  obtain ⟨v, l₁, l₂, -, hentries, herase⟩ := List.exists_of_kerase (AList.mem_keys.mp h)
  have hrest : (m.erase k).entries = l₁ ++ l₂ := herase
  rw [size, size, hrest, hentries]
  simp only [List.length_append, List.length_cons]
  omega

/-- A loop that changes every value. -/
def mapValues (f : V → V) (m : Table K V) : Table K V where
  entries := m.entries.map fun e => ⟨e.1, f e.2⟩
  nodupKeys := by
    have hkeys : (m.entries.map fun e => (⟨e.1, f e.2⟩ : Σ _ : K, V)).keys = m.entries.keys := by
      unfold List.keys
      rw [List.map_map]
      rfl
    rw [List.NodupKeys, hkeys]
    exact m.nodupKeys

section Order

variable [LE K] [DecidableLE K]

/-- The entries as a loop over the map meets them. -/
def inOrder (m : Table K V) : List (K × V) :=
  (m.entries.map fun e => (e.1, e.2)).mergeSort fun a b => a.1 ≤ b.1

omit [DecidableEq K] in
theorem inOrder_perm (m : Table K V) : (inOrder m).Perm (m.entries.map fun e => (e.1, e.2)) :=
  List.mergeSort_perm _ _

theorem mem_inOrder {m : Table K V} {k : K} {v : V} : (k, v) ∈ inOrder m ↔ m.lookup k = some v := by
  rw [(inOrder_perm m).mem_iff, ← Option.mem_def, AList.mem_lookup_iff, List.mem_map]
  constructor
  · rintro ⟨e, he, heq⟩
    cases heq
    exact he
  · intro h
    exact ⟨_, h, rfl⟩

omit [DecidableEq K] in
/-- Two entries of a loop have different keys. -/
theorem inOrder_pairwise (m : Table K V) : (inOrder m).Pairwise fun a b => a.1 ≠ b.1 := by
  have hkeys : ((inOrder m).map Prod.fst).Nodup := by
    rw [((inOrder_perm m).map Prod.fst).nodup_iff, List.map_map]
    exact m.nodupKeys
  exact List.pairwise_map.mp hkeys

end Order

section MinElement

variable {A : Type} (less : A → A → Bool)

/-- `std::min_element`: the first of the least elements, none when there are none. -/
def minElement : List A → Option A
  | [] => none
  | a :: l => some (l.foldl (fun least b => if less b least then b else least) a)

theorem minElement_mem {l : List A} {a : A} (h : minElement less l = some a) : a ∈ l := by
  have hfold : ∀ (l : List A) (a : A),
      l.foldl (fun least b => if less b least then b else least) a ∈ a :: l := by
    intro l
    induction l with
    | nil => simp
    | cons b l ih =>
      intro a
      rw [List.foldl_cons]
      split_ifs
      · exact List.mem_cons_of_mem a (ih b)
      · rcases List.mem_cons.mp (ih a) with hhead | hrest
        · rw [hhead]
          exact List.mem_cons_self
        · exact List.mem_cons_of_mem a (List.mem_cons_of_mem b hrest)
  cases l with
  | nil => cases h
  | cons b l =>
    cases h
    exact hfold l b

theorem exists_minElement {l : List A} (h : l ≠ []) : ∃ a, minElement less l = some a := by
  cases l with
  | nil => exact absurd rfl h
  | cons a l => exact ⟨_, rfl⟩

/-- Nothing in the list is less than `std::min_element`, for a strict weak order. -/
theorem minElement_least (hasymm : ∀ a b, less a b = true → less b a = false)
    (htrans : ∀ a b c, less a b = false → less b c = false → less a c = false) {l : List A} {a : A}
    (h : minElement less l = some a) : ∀ b ∈ l, less b a = false := by
  have hirrefl : ∀ b, less b b = false := by
    intro b
    by_contra hb
    exact hb (hasymm b b ((Bool.not_eq_false _).mp hb))
  have hfold : ∀ (l : List A) (a : A), ∀ b ∈ a :: l,
      less b (l.foldl (fun least b => if less b least then b else least) a) = false := by
    intro l
    induction l with
    | nil =>
      intro a b hb
      rw [List.mem_singleton.mp hb]
      exact hirrefl a
    | cons c l ih =>
      intro a b hb
      rw [List.foldl_cons]
      -- what is not less than the new head is not less than the least of the rest
      have hhead : ∀ x, less x (if less c a then c else a) = false →
          less x (l.foldl (fun least b => if less b least then b else least)
            (if less c a then c else a)) = false :=
        fun x hx => htrans x _ _ hx (ih _ _ List.mem_cons_self)
      rcases List.mem_cons.mp hb with rfl | hb
      · refine hhead b ?_
        split_ifs with hca
        · exact hasymm c b hca
        · exact hirrefl b
      · rcases List.mem_cons.mp hb with rfl | hb
        · refine hhead b ?_
          split_ifs with hca
          · exact hirrefl b
          · exact Bool.eq_false_iff.mpr hca
        · exact ih _ b (List.mem_cons_of_mem _ hb)
  cases l with
  | nil => cases h
  | cons b l =>
    cases h
    exact hfold l b

end MinElement

end StdMap
