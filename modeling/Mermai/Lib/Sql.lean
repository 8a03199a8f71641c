import Mathlib.Data.List.AList
import Mathlib.Data.List.Sort
import Mathlib.Algebra.BigOperators.Group.List.Basic
import Mathlib.Algebra.GroupWithZero.Nat
import Mathlib.Tactic.Common

/-!
# Lib.Sql — tables with a primary key

A table is a finite keyed map (`AList`).  `insertNew` is a plain `INSERT`, refused when the key is
taken; `deleteRow` is a `DELETE` that must hit exactly one row; `INSERT OR REPLACE` and a `DELETE`
whose row count nobody looks at are `AList.insert` and `AList.erase`; `deleteKeys` is a `DELETE` with
a condition on the key.  `total f t` sums a column.

`orderBy` is a `SELECT` with an `ORDER BY`; where a map says what every key holds, the rows come as what
the map holds, each key once and in order (`exists_orderBy`).

`UniqueTable` is a table with a primary key and a second `UNIQUE` column: there an
`INSERT OR REPLACE` also deletes the row that conflicts on the second column.
-/

namespace Sql

/-- A table with primary keys in `K` and the other columns in `V`. -/
abbrev Table (K V : Type) := AList fun _ : K => V

variable {K V : Type} [DecidableEq K]

/-- `INSERT`: refused when the key is taken. -/
def insertNew (t : Table K V) (k : K) (v : V) : Option (Table K V) :=
  if k ∈ t then none else some (t.insert k v)

/-- `DELETE` with one affected row: refused when there is no row. -/
def deleteRow (t : Table K V) (k : K) : Option (Table K V) :=
  if k ∈ t then some (t.erase k) else none

/-- `DELETE ... WHERE` on the primary key. -/
def deleteKeys (t : Table K V) (p : K → Bool) : Table K V :=
  ⟨t.entries.filter fun e => ¬ p e.1, t.nodupKeys.sublist List.filter_sublist⟩

/-- The sum of `f` over the rows. -/
def total (f : V → ℕ) (t : Table K V) : ℕ := (t.entries.map fun e => f e.2).sum

theorem insertNew_eq_some {t t' : Table K V} {k : K} {v : V} :
    insertNew t k v = some t' ↔ k ∉ t ∧ t' = t.insert k v := by
  unfold insertNew
  split_ifs with h
  · simp [h]
  · simp [h, eq_comm]

theorem deleteRow_eq_some {t t' : Table K V} {k : K} :
    deleteRow t k = some t' ↔ k ∈ t ∧ t' = t.erase k := by
  unfold deleteRow
  split_ifs with h
  · simp [h, eq_comm]
  · simp [h]

theorem total_insertNew (f : V → ℕ) {t t' : Table K V} {k : K} {v : V}
    (h : insertNew t k v = some t') : total f t' = total f t + f v := by
  obtain ⟨hk, rfl⟩ := insertNew_eq_some.mp h
  rw [total, total, AList.entries_insert_of_notMem hk, List.map_cons, List.sum_cons, add_comm]

theorem total_deleteRow (f : V → ℕ) {t t' : Table K V} {k : K} {v : V}
    (h : deleteRow t k = some t') (hv : t.lookup k = some v) : total f t = total f t' + f v := by
  obtain ⟨hk, rfl⟩ := deleteRow_eq_some.mp h
  obtain ⟨w, l₁, l₂, h1, h2, h3⟩ := List.exists_of_kerase (AList.mem_keys.mp hk)
  have hw : w = v := by
    have hmem : (⟨k, w⟩ : Σ _ : K, V) ∈ t.entries := by rw [h2]; simp
    have := AList.mem_lookup_iff.mpr hmem
    rw [Option.mem_def, hv] at this
    exact (Option.some.inj this).symm
  have he : (t.erase k).entries = l₁ ++ l₂ := h3
  rw [total, total, h2, he, hw]
  simp only [List.map_append, List.map_cons, List.sum_append, List.sum_cons]
  omega

/-! ## Rows in order -/

section OrderBy

variable (le : K × V → K × V → Prop) [DecidableRel le]

/-- `SELECT ... ORDER BY`: the rows with their keys. -/
def orderBy (t : Table K V) : List (K × V) := (t.entries.map fun e => (e.1, e.2)).insertionSort le

omit [DecidableEq K] in
theorem pairwise_orderBy [Std.Total le] [IsTrans (K × V) le] (t : Table K V) : (orderBy le t).Pairwise le :=
  List.pairwise_insertionSort le _

theorem mem_orderBy {t : Table K V} {k : K} {v : V} : (k, v) ∈ orderBy le t ↔ t.lookup k = some v := by
  rw [orderBy, List.mem_insertionSort, List.mem_map, ← Option.mem_def, AList.mem_lookup_iff]
  constructor
  · rintro ⟨e, he, heq⟩
    cases heq
    exact he
  · intro h
    exact ⟨_, h, rfl⟩

omit [DecidableEq K] in
theorem nodup_orderBy (t : Table K V) : ((orderBy le t).map Prod.fst).Nodup := by
  have hperm := (List.perm_insertionSort le (t.entries.map fun e => (e.1, e.2))).map Prod.fst
  refine hperm.nodup_iff.mpr ?_
  rw [List.map_map]
  exact t.nodupKeys

/-- Rows whose columns a map accounts for come as what it holds, each key once. -/
theorem exists_orderBy {V' W : Type} {proj : V → V'} {holds : K → Option W} {row : W → V'} {t : Table K V}
    (h : ∀ k, (t.lookup k).map proj = (holds k).map row) :
    ∃ q : List (K × W), (orderBy le t).map (Prod.map id proj) = q.map (Prod.map id row) ∧
      (∀ k w, (k, w) ∈ q ↔ holds k = some w) ∧ (q.map Prod.fst).Nodup := by
  have hlift : ∀ rows : List (K × V), (∀ r ∈ rows, t.lookup r.1 = some r.2) →
      ∃ q : List (K × W), rows.map (Prod.map id proj) = q.map (Prod.map id row) ∧
        ∀ p ∈ q, holds p.1 = some p.2 := by
    intro rows hrows
    induction rows with
    | nil => exact ⟨[], rfl, by simp⟩
    | cons r rows ih =>
      obtain ⟨hr, hrows⟩ := List.forall_mem_cons.mp hrows
      obtain ⟨q, hq, hholds⟩ := ih hrows
      have hrow := h r.1
      rw [hr] at hrow
      obtain ⟨w, hw, hrow⟩ := Option.map_eq_some_iff.mp hrow.symm
      have hhead : Prod.map id proj r = Prod.map id row (r.1, w) := Prod.ext rfl hrow.symm
      exact ⟨(r.1, w) :: q, congrArg₂ List.cons hhead hq, List.forall_mem_cons.mpr ⟨hw, hholds⟩⟩
  obtain ⟨q, heq, hq⟩ := hlift (orderBy le t) fun r hr => (mem_orderBy le).mp hr
  have hfst := congrArg (List.map Prod.fst) heq
  rw [List.map_map, List.map_map] at hfst
  have hkeys : (q.map Prod.fst).Nodup := by
    have := nodup_orderBy le t
    rwa [show (orderBy le t).map Prod.fst = q.map Prod.fst from hfst] at this
  refine ⟨q, heq, fun k w => ⟨hq (k, w), fun hw => ?_⟩, hkeys⟩
  have hsome := h k
  rw [hw] at hsome
  obtain ⟨v, hv, -⟩ := Option.map_eq_some_iff.mp hsome
  have hmem : k ∈ (orderBy le t).map Prod.fst := List.mem_map.mpr ⟨(k, v), (mem_orderBy le).mpr hv, rfl⟩
  rw [show (orderBy le t).map Prod.fst = q.map Prod.fst from hfst] at hmem
  obtain ⟨⟨k', w'⟩, hp, rfl⟩ := List.mem_map.mp hmem
  have hw' := hq _ hp
  rw [hw] at hw'
  cases hw'
  exact hp

end OrderBy

/-! ## A second unique column -/

/-- Rows with a primary key `key` and a `UNIQUE` column `col`. -/
structure UniqueTable {R K L : Type} (key : R → K) (col : R → L) where
  rows : List R
  key_nodup : (rows.map key).Nodup
  col_nodup : (rows.map col).Nodup

namespace UniqueTable

variable {R K L : Type} {key : R → K} {col : R → L}

theorem nodup_concat_map {A : Type} {f : R → A} {l : List R} {r : R} (h : (l.map f).Nodup)
    (hne : ∀ x ∈ l, f x ≠ f r) : ((l ++ [r]).map f).Nodup := by
  rw [List.map_append, List.map_singleton, List.nodup_append]
  refine ⟨h, by simp, ?_⟩
  intro a ha b hb
  obtain ⟨x, hx, rfl⟩ := List.mem_map.mp ha
  rw [List.mem_singleton.mp hb]
  exact hne x hx

/-- No rows. -/
def empty : UniqueTable key col := ⟨[], List.nodup_nil, List.nodup_nil⟩

/-- `DELETE ... WHERE`. -/
def deleteWhere (t : UniqueTable key col) (p : R → Bool) : UniqueTable key col where
  rows := t.rows.filter fun x => ¬ p x
  key_nodup := t.key_nodup.sublist (List.filter_sublist.map key)
  col_nodup := t.col_nodup.sublist (List.filter_sublist.map col)

variable [DecidableEq L]

/-- `SELECT ... WHERE col = ?`. -/
def select (t : UniqueTable key col) (k : L) : Option R := t.rows.find? fun x => col x = k

theorem select_eq_some {t : UniqueTable key col} {k : L} {x : R} :
    t.select k = some x ↔ x ∈ t.rows ∧ col x = k := by
  constructor
  · intro h
    exact ⟨List.mem_of_find?_eq_some h, by simpa using List.find?_some h⟩
  · rintro ⟨hx, rfl⟩
    obtain ⟨y, hy⟩ : ∃ y, t.select (col x) = some y := by
      refine Option.isSome_iff_exists.mp (List.find?_isSome.mpr ⟨x, hx, by simp⟩)
    have hcol : col y = col x := by simpa using List.find?_some hy
    rw [hy, List.inj_on_of_nodup_map t.col_nodup (List.mem_of_find?_eq_some hy) hx hcol]

theorem select_eq_none {t : UniqueTable key col} {k : L} :
    t.select k = none ↔ ∀ x ∈ t.rows, col x ≠ k := by
  simp [select]

variable [DecidableEq K]

/-- The rows that do not conflict with `r`. -/
def others (t : UniqueTable key col) (r : R) : List R :=
  t.rows.filter fun x => key x ≠ key r ∧ col x ≠ col r

theorem mem_others {t : UniqueTable key col} {r x : R} :
    x ∈ t.others r ↔ x ∈ t.rows ∧ key x ≠ key r ∧ col x ≠ col r := by
  simp [others]

/-- A row that conflicts with none. -/
theorem others_eq_rows {t : UniqueTable key col} {r : R}
    (h : ∀ x ∈ t.rows, key x ≠ key r ∧ col x ≠ col r) : t.others r = t.rows :=
  List.filter_eq_self.mpr fun x hx => decide_eq_true (h x hx)

/-- `INSERT OR REPLACE`. -/
def insertOrReplace (t : UniqueTable key col) (r : R) : UniqueTable key col where
  rows := t.others r ++ [r]
  key_nodup := nodup_concat_map (t.key_nodup.sublist (List.filter_sublist.map key))
    fun _ hx => (mem_others.mp hx).2.1
  col_nodup := nodup_concat_map (t.col_nodup.sublist (List.filter_sublist.map col))
    fun _ hx => (mem_others.mp hx).2.2

theorem mem_insertOrReplace {t : UniqueTable key col} {r x : R} :
    x ∈ (t.insertOrReplace r).rows ↔ x = r ∨ (x ∈ t.rows ∧ key x ≠ key r ∧ col x ≠ col r) := by
  simp only [insertOrReplace, List.mem_append, List.mem_singleton, mem_others]
  tauto

theorem select_insertOrReplace_self (t : UniqueTable key col) (r : R) :
    (t.insertOrReplace r).select (col r) = some r :=
  select_eq_some.mpr ⟨mem_insertOrReplace.mpr (.inl rfl), rfl⟩

/-- A row of another column value stays, unless it has the key of the new row. -/
theorem select_insertOrReplace_of_ne {t : UniqueTable key col} {r : R} {k : L} (h : k ≠ col r)
    (hkey : ∀ x, t.select k = some x → key x ≠ key r) :
    (t.insertOrReplace r).select k = t.select k := by
  ext x
  simp only [select_eq_some, mem_insertOrReplace]
  constructor
  · rintro ⟨rfl | ⟨hx, -, -⟩, hk⟩
    · exact absurd hk.symm h
    · exact ⟨hx, hk⟩
  · rintro ⟨hx, rfl⟩
    exact ⟨.inr ⟨hx, hkey x (select_eq_some.mpr ⟨hx, rfl⟩), h⟩, rfl⟩

end UniqueTable

end Sql
