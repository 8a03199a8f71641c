import Mathlib.Data.List.Nodup
import Mathlib.Logic.Function.Iterate
import Mathlib.Tactic.WLOG

/-!
# Lib.Merkle — binary trees folded level by level

A level is a list of nodes; `pairUp f` combines neighbours with `f` and pairs an odd last node with
itself.  `Reduces f P k l r` says that `k` rounds take the level `l` to the single node `r` and that
every pair combined on the way satisfies `P`.

* `Reduces.inj`: where `f` is injective on the pairs of `P` and never gives a leaf, a root determines
  its leaves among the lists without repetition, their number and the number of rounds included;
* `levels_reduces`: the rounds of `levels` down to a level of one node reduce a non-empty list;
* `getElem?_pairUp`: what a node of the next level is made of, the step of an inclusion proof;
* `mem_level_of_ascend`: where `f` is injective on the pairs of the tree and of a path, a path of `k`
  siblings that ends in a level starts at a node `k` levels below, and every node has such a path
  (`exists_ascend`).
-/

namespace Merkle

variable {α : Type*}

/-- The pairs that one round combines. -/
def pairs : List α → List (α × α)
  | [] => []
  | [a] => [(a, a)]
  | a :: b :: rest => (a, b) :: pairs rest

/-- One round: neighbours are combined, an odd last node is paired with itself. -/
def pairUp (f : α → α → α) (l : List α) : List α := (pairs l).map fun p => f p.1 p.2

@[simp] theorem pairUp_nil (f : α → α → α) : pairUp f [] = [] := rfl

@[simp] theorem pairUp_one (f : α → α → α) (a : α) : pairUp f [a] = [f a a] := rfl

@[simp] theorem pairUp_cons₂ (f : α → α → α) (a b : α) (rest : List α) :
    pairUp f (a :: b :: rest) = f a b :: pairUp f rest := rfl

theorem fst_mem_of_mem_pairs : ∀ {l : List α} {p : α × α}, p ∈ pairs l → p.1 ∈ l
  | [], _, h => by simp [pairs] at h
  | [a], _, h => by
    rw [List.mem_singleton.mp h]
    exact List.mem_singleton_self a
  | a :: b :: rest, p, h => by
    rcases List.mem_cons.mp h with rfl | h
    · exact List.mem_cons_self
    · exact List.mem_cons_of_mem _ (List.mem_cons_of_mem _ (fst_mem_of_mem_pairs h))

theorem snd_mem_of_mem_pairs : ∀ {l : List α} {p : α × α}, p ∈ pairs l → p.2 ∈ l
  | [], _, h => by simp [pairs] at h
  | [a], _, h => by
    rw [List.mem_singleton.mp h]
    exact List.mem_singleton_self a
  | a :: b :: rest, p, h => by
    rcases List.mem_cons.mp h with rfl | h
    · exact List.mem_cons_of_mem _ List.mem_cons_self
    · exact List.mem_cons_of_mem _ (List.mem_cons_of_mem _ (snd_mem_of_mem_pairs h))

theorem nodup_pairs : ∀ {l : List α}, l.Nodup → (pairs l).Nodup
  | [], _ => List.nodup_nil
  | [_], _ => List.nodup_singleton _
  | a :: b :: rest, h => by
    obtain ⟨ha, hb⟩ := List.nodup_cons.mp h
    refine List.nodup_cons.mpr ⟨?_, nodup_pairs (List.nodup_cons.mp hb).2⟩
    intro hmem
    exact ha (List.mem_cons_of_mem _ (fst_mem_of_mem_pairs hmem))

/-- The pairs determine a level without repetition: a node paired with itself can only be the odd
last one. -/
theorem pairs_inj : ∀ {l l' : List α}, l.Nodup → l'.Nodup → pairs l = pairs l' → l = l'
  | [], [], _, _, _ => rfl
  | [], [_], _, _, h => by simp [pairs] at h
  | [], _ :: _ :: _, _, _, h => by simp [pairs] at h
  | [_], [], _, _, h => by simp [pairs] at h
  | [a], [b], _, _, h => by
    simp only [pairs, List.cons.injEq, Prod.mk.injEq, and_true, and_self] at h
    rw [h]
  | [a], b :: c :: rest, _, h', h => by
    simp only [pairs, List.cons.injEq, Prod.mk.injEq] at h
    obtain ⟨⟨hb, hc⟩, -⟩ := h
    exact absurd (hb.symm.trans hc) (by simp only [List.nodup_cons, List.mem_cons] at h'; tauto)
  | _ :: _ :: _, [], _, _, h => by simp [pairs] at h
  | a :: b :: rest, [c], h', _, h => by
    simp only [pairs, List.cons.injEq, Prod.mk.injEq] at h
    obtain ⟨⟨ha, hb⟩, -⟩ := h
    exact absurd (ha.trans hb.symm) (by simp only [List.nodup_cons, List.mem_cons] at h'; tauto)
  | a :: b :: rest, c :: d :: rest', hl, hl', h => by
    simp only [pairs, List.cons.injEq, Prod.mk.injEq] at h
    obtain ⟨⟨rfl, rfl⟩, h⟩ := h
    rw [pairs_inj (List.nodup_cons.mp (List.nodup_cons.mp hl).2).2
      (List.nodup_cons.mp (List.nodup_cons.mp hl').2).2 h]

theorem length_pairUp (f : α → α → α) : ∀ l : List α, (pairUp f l).length = (l.length + 1) / 2
  | [] => by simp
  | [_] => by simp
  | _ :: _ :: rest => by
    rw [pairUp_cons₂, List.length_cons, length_pairUp f rest, List.length_cons, List.length_cons]
    omega

/-- Node `j` of the next level is made of the nodes `2j` and `2j + 1`, or of node `2j` twice. -/
theorem getElem?_pairUp (f : α → α → α) : ∀ (l : List α) (j : ℕ),
    (pairUp f l)[j]? = l[2 * j]?.map fun a => f a (l[2 * j + 1]?.getD a)
  | [], j => by simp
  | [a], 0 => by simp
  | [a], j + 1 => by
    have h : [a].length ≤ 2 * (j + 1) := by
      rw [List.length_singleton]
      omega
    rw [pairUp_one, List.getElem?_eq_none h]
    simp
  | a :: b :: rest, 0 => by simp
  | a :: b :: rest, j + 1 => by
    rw [pairUp_cons₂, List.getElem?_cons_succ, getElem?_pairUp f rest j,
      show 2 * (j + 1) = 2 * j + 1 + 1 by omega]
    simp only [List.getElem?_cons_succ]

/-! ## Roots -/

/-- `k` rounds take `l` to the single node `r`, combining pairs of `P` only. -/
inductive Reduces (f : α → α → α) (P : α → α → Prop) : ℕ → List α → α → Prop
  | one (a : α) : Reduces f P 0 [a] a
  | up {k : ℕ} {l : List α} {r : α} (hP : ∀ p ∈ pairs l, P p.1 p.2)
      (h : Reduces f P k (pairUp f l) r) : Reduces f P (k + 1) l r

variable {f : α → α → α} {P Q : α → α → Prop}

theorem Reduces.mono {k : ℕ} {l : List α} {r : α} (h : Reduces f P k l r)
    (hPQ : ∀ a b, P a b → Q a b) : Reduces f Q k l r := by
  induction h with
  | one a => exact .one a
  | up hP _ ih => exact .up (fun p hp => hPQ _ _ (hP p hp)) ih

theorem Reduces.ne_nil {k : ℕ} {l : List α} {r : α} (h : Reduces f P k l r) : l ≠ [] := by
  induction h with
  | one a => exact List.cons_ne_nil _ _
  | up _ _ ih =>
    rintro rfl
    exact ih rfl

/-- What holds of the leaves and of every combined node holds of all nodes that are combined. -/
theorem Reduces.nodes {D : α → Prop} (hD : ∀ a b, D (f a b)) {k : ℕ} {l : List α} {r : α}
    (h : Reduces f P k l r) (hl : ∀ a ∈ l, D a) :
    Reduces f (fun a b => D a ∧ D b ∧ P a b) k l r := by
  induction h with
  | one a => exact .one a
  | up hP _ ih =>
    refine .up ?_ (ih ?_)
    · intro p hp
      exact ⟨hl _ (fst_mem_of_mem_pairs hp), hl _ (snd_mem_of_mem_pairs hp), hP p hp⟩
    · intro a ha
      obtain ⟨p, -, rfl⟩ := List.mem_map.mp ha
      exact hD _ _

/-- The last round combines a pair. -/
theorem Reduces.root {k : ℕ} {l : List α} {r : α} (h : Reduces f P (k + 1) l r) :
    ∃ a b, P a b ∧ r = f a b := by
  generalize hn : k + 1 = n at h
  induction h generalizing k with
  | one => omega
  | @up n l r hP h ih =>
    cases n with
    | zero =>
      generalize hu : pairUp f l = u at h
      cases h
      have hmem : r ∈ pairUp f l := by
        rw [hu]
        exact List.mem_singleton_self r
      obtain ⟨p, hp, rfl⟩ := List.mem_map.mp hmem
      exact ⟨p.1, p.2, hP p hp, rfl⟩
    | succ n => exact ih rfl

/-- The levels of the tree over `l`: rounds while a level has more than one node, at most `n`. -/
def levels (f : α → α → α) : ℕ → List α → List (List α)
  | 0, l => [l]
  | n + 1, l => if 1 < l.length then l :: levels f n (pairUp f l) else [l]

/-- The pairs combined in the tree over `l`. -/
def combined (f : α → α → α) (n : ℕ) (l : List α) : List (α × α) :=
  (levels f n l).dropLast.flatMap pairs

theorem levels_cons (f : α → α → α) (n : ℕ) (l : List α) : ∃ rest, levels f n l = l :: rest := by
  cases n with
  | zero => exact ⟨[], rfl⟩
  | succ n =>
    unfold levels
    split_ifs
    · exact ⟨_, rfl⟩
    · exact ⟨_, rfl⟩

theorem levels_ne_nil (f : α → α → α) (n : ℕ) (l : List α) : levels f n l ≠ [] := by
  obtain ⟨rest, h⟩ := levels_cons f n l
  rw [h]
  exact List.cons_ne_nil _ _

theorem levels_of_lt {n : ℕ} {l : List α} (h : 1 < l.length) :
    levels f (n + 1) l = l :: levels f n (pairUp f l) := if_pos h

theorem getLast?_levels_of_lt {n : ℕ} {l : List α} (h : 1 < l.length) :
    (levels f (n + 1) l).getLast? = (levels f n (pairUp f l)).getLast? := by
  rw [levels_of_lt h, List.getLast?_cons,
    List.getLast?_eq_some_getLast (levels_ne_nil f n (pairUp f l))]
  rfl

theorem combined_of_lt {n : ℕ} {l : List α} (h : 1 < l.length) :
    combined f (n + 1) l = pairs l ++ combined f n (pairUp f l) := by
  rw [combined, levels_of_lt h, List.dropLast_cons_of_ne_nil (levels_ne_nil f n _),
    List.flatMap_cons, combined]

/-- **The tree of a list**: the last level is one node, and the rounds reduce the list to it. -/
theorem levels_reduces {n : ℕ} {l : List α} (hne : l ≠ []) (hn : l.length ≤ n) :
    ∃ k r, (1 < l.length → 0 < k) ∧ (levels f n l).getLast? = some [r] ∧
      Reduces f (fun a b => (a, b) ∈ combined f n l) k l r := by
  induction n generalizing l with
  | zero => exact absurd (List.length_eq_zero_iff.mp (by omega)) hne
  | succ n ih =>
    by_cases hl : 1 < l.length
    · have hlen := length_pairUp f l
      have hne' : pairUp f l ≠ [] := by
        intro h
        rw [h, List.length_nil] at hlen
        omega
      obtain ⟨k, r, -, hlast, hr⟩ := ih hne' (by omega)
      rw [getLast?_levels_of_lt hl, combined_of_lt hl]
      refine ⟨k + 1, r, fun _ => by omega, hlast, .up ?_ ?_⟩
      · intro p hp
        exact List.mem_append_left _ hp
      · exact hr.mono fun a b h => List.mem_append_right _ h
    · have hpos : 0 < l.length := List.length_pos_iff.mpr hne
      obtain ⟨a, rfl⟩ := List.length_eq_one_iff.mp (show l.length = 1 by omega)
      exact ⟨0, a, fun h => absurd h hl, by simp [levels], .one a⟩

/-- The pairs of `P` are told apart by `f`. -/
def InjOn (f : α → α → α) (P : α → α → Prop) : Prop :=
  ∀ a b c d, P a b → P c d → f a b = f c d → a = c ∧ b = d

theorem InjOn.pair {p q : α × α} (hf : InjOn f P) (hp : P p.1 p.2) (hq : P q.1 q.2)
    (h : f p.1 p.2 = f q.1 q.2) : p = q := by
  obtain ⟨h1, h2⟩ := hf _ _ _ _ hp hq h
  exact Prod.ext h1 h2

theorem nodup_pairUp (hf : InjOn f P) {l : List α} (hP : ∀ p ∈ pairs l, P p.1 p.2)
    (hl : l.Nodup) : (pairUp f l).Nodup := by
  refine List.Nodup.map_on ?_ (nodup_pairs hl)
  intro p hp q hq h
  exact hf.pair (hP p hp) (hP q hq) h

/-- A map that tells the members of `S` apart tells lists of them apart. -/
theorem map_inj_on {β : Type*} {g : α → β} {S : α → Prop}
    (hg : ∀ a b, S a → S b → g a = g b → a = b) : ∀ {l l' : List α}, (∀ a ∈ l, S a) →
    (∀ a ∈ l', S a) → l.map g = l'.map g → l = l'
  | [], [], _, _, _ => rfl
  | [], _ :: _, _, _, h => by simp at h
  | _ :: _, [], _, _, h => by simp at h
  | a :: l, b :: l', hl, hl', h => by
    simp only [List.map_cons, List.cons.injEq] at h
    simp only [List.mem_cons, forall_eq_or_imp] at hl hl'
    rw [hg a b hl.1 hl'.1 h.1, map_inj_on hg hl.2 hl'.2 h.2]

theorem pairUp_inj (hf : InjOn f P) {l l' : List α} (hP : ∀ p ∈ pairs l, P p.1 p.2)
    (hP' : ∀ p ∈ pairs l', P p.1 p.2) (hl : l.Nodup) (hl' : l'.Nodup)
    (h : pairUp f l = pairUp f l') : l = l' := by
  refine pairs_inj hl hl' (map_inj_on (S := fun p => P p.1 p.2) ?_ hP hP' h)
  intro p q hp hq hpq
  exact hf.pair hp hq hpq

/-- Roots reached in the same number of rounds come from the same level. -/
theorem Reduces.inj_level (hf : InjOn f P) {k : ℕ} {l l' : List α} {r : α}
    (h : Reduces f P k l r) (h' : Reduces f P k l' r) (hl : l.Nodup) (hl' : l'.Nodup) : l = l' := by
  induction h generalizing l' with
  | one a =>
    cases h'
    rfl
  | up hP _ ih =>
    cases h' with
    | up hP' h' =>
      exact pairUp_inj hf hP hP' hl hl' (ih h' (nodup_pairUp hf hP hl) (nodup_pairUp hf hP' hl'))

/-- The first `j` rounds lead to a level without repetition, made of combined nodes. -/
theorem Reduces.skip (hf : InjOn f P) {k : ℕ} : ∀ {j : ℕ} {l : List α} {r : α},
    Reduces f P (k + j) l r → l.Nodup → ∃ u, Reduces f P k u r ∧ u.Nodup ∧
      (j = 0 ∧ u = l ∨ 0 < j ∧ ∀ c ∈ u, ∃ a b, P a b ∧ c = f a b)
  | 0, l, _, h, hl => ⟨l, h, hl, .inl ⟨rfl, rfl⟩⟩
  | j + 1, l, _, .up hP h, hl => by
    obtain ⟨u, hu, hnd, hor⟩ := Reduces.skip hf h (nodup_pairUp hf hP hl)
    refine ⟨u, hu, hnd, .inr ⟨by omega, ?_⟩⟩
    rcases hor with ⟨-, rfl⟩ | ⟨-, hc⟩
    · intro c hc
      obtain ⟨p, hp, rfl⟩ := List.mem_map.mp hc
      exact ⟨p.1, p.2, hP p hp, rfl⟩
    · exact hc

/-- **A root determines its leaves**: `f` is injective on the pairs that are combined, no leaf is a
combined node, and no leaf stands twice in a list. -/
theorem Reduces.inj (hf : InjOn f P) {Leaf : α → Prop} (hsep : ∀ a b, P a b → ¬ Leaf (f a b))
    {k k' : ℕ} {l l' : List α} {r : α} (h : Reduces f P k l r) (h' : Reduces f P k' l' r)
    (hl : l.Nodup) (hl' : l'.Nodup) (hL : ∀ a ∈ l, Leaf a) (hL' : ∀ a ∈ l', Leaf a) : l = l' := by
  wlog hkk : k ≤ k' generalizing k k' l l'
  · exact (this h' h hl' hl hL' hL (by omega)).symm
  obtain ⟨j, rfl⟩ := Nat.exists_eq_add_of_le hkk
  obtain ⟨u, hu, hnd, hor⟩ := h'.skip hf hl'
  have hlu : l = u := h.inj_level hf hu hl hnd
  rcases hor with ⟨-, rfl⟩ | ⟨-, hc⟩
  · exact hlu
  -- the leaves of the flatter tree would be combined nodes of the deeper one
  · obtain ⟨a, ha⟩ := List.exists_mem_of_ne_nil l h.ne_nil
    obtain ⟨x, y, hxy, rfl⟩ := hc a (hlu ▸ ha)
    exact absurd (hL _ ha) (hsep x y hxy)

/-! ## Paths -/

/-- The nodes `m` rounds above the level `l`. -/
def level (f : α → α → α) (l : List α) (m : ℕ) : List α := (pairUp f)^[m] l

theorem level_succ (l : List α) (m : ℕ) : level f l (m + 1) = pairUp f (level f l m) :=
  Function.iterate_succ_apply' ..

theorem getElem?_levels {n : ℕ} : ∀ {l : List α} {m : ℕ}, m < (levels f n l).length →
    (levels f n l)[m]? = some (level f l m) := by
  induction n with
  | zero =>
    intro l m hm
    have hm0 : m = 0 := Nat.lt_one_iff.mp hm
    rw [hm0]
    rfl
  | succ n ih =>
    intro l m hm
    cases m with
    | zero =>
      obtain ⟨rest, hrest⟩ := levels_cons f (n + 1) l
      rw [hrest]
      rfl
    | succ m =>
      by_cases hl : 1 < l.length
      · rw [levels_of_lt hl] at hm ⊢
        rw [List.getElem?_cons_succ, ih (Nat.lt_of_succ_lt_succ hm)]
        rfl
      · rw [levels, if_neg hl, List.length_singleton] at hm
        omega

/-- The pairs of a level below the last one are combined. -/
theorem mem_combined {n m : ℕ} {l : List α} (hm : m + 1 < (levels f n l).length) {p : α × α}
    (hp : p ∈ pairs (level f l m)) : p ∈ combined f n l := by
  refine List.mem_flatMap.mpr ⟨level f l m, ?_, hp⟩
  refine List.mem_of_getElem? (i := m) ?_
  rw [List.getElem?_dropLast, if_pos (by omega), getElem?_levels (by omega)]

theorem exists_pair_of_mem : ∀ {l : List α} {a : α}, a ∈ l → ∃ p ∈ pairs l, a = p.1 ∨ a = p.2
  | [b], a, h => ⟨(b, b), List.mem_singleton_self _, .inl (List.mem_singleton.mp h)⟩
  | b :: c :: rest, a, h => by
    rcases List.mem_cons.mp h with rfl | h
    · exact ⟨(a, c), List.mem_cons_self, .inl rfl⟩
    rcases List.mem_cons.mp h with rfl | h
    · exact ⟨(b, a), List.mem_cons_self, .inr rfl⟩
    obtain ⟨p, hp, ha⟩ := exists_pair_of_mem h
    exact ⟨p, List.mem_cons_of_mem _ hp, ha⟩

/-- A node and a sibling on its right (`true`) or on its left. -/
def beside (a : α) (s : Bool × α) : α × α := if s.1 then (a, s.2) else (s.2, a)

theorem mem_of_beside {a : α} {s : Bool × α} {l : List α} (h : beside a s ∈ pairs l) : a ∈ l := by
  obtain ⟨b, c⟩ := s
  cases b with
  | true => exact fst_mem_of_mem_pairs h
  | false => exact snd_mem_of_mem_pairs h

theorem exists_beside {a : α} {p : α × α} (h : a = p.1 ∨ a = p.2) :
    ∃ s, beside a s = p ∧ (s.2 = p.1 ∨ s.2 = p.2) := by
  rcases h with rfl | rfl
  · exact ⟨(true, p.2), rfl, .inr rfl⟩
  · exact ⟨(false, p.1), rfl, .inl rfl⟩

/-- The node that a path of siblings leads to. -/
def ascend (f : α → α → α) : α → List (Bool × α) → α
  | a, [] => a
  | a, s :: path => ascend f (f (beside a s).1 (beside a s).2) path

/-- The pairs that are combined along a path. -/
def ascendPairs (f : α → α → α) : α → List (Bool × α) → List (α × α)
  | _, [] => []
  | a, s :: path => beside a s :: ascendPairs f (f (beside a s).1 (beside a s).2) path

theorem ascend_append (a : α) (path path' : List (Bool × α)) :
    ascend f a (path ++ path') = ascend f (ascend f a path) path' := by
  induction path generalizing a with
  | nil => rfl
  | cons s path ih => exact ih _

theorem ascendPairs_append (a : α) (path path' : List (Bool × α)) :
    ascendPairs f a (path ++ path') = ascendPairs f a path ++ ascendPairs f (ascend f a path) path' := by
  induction path generalizing a with
  | nil => rfl
  | cons s path ih => exact congrArg (beside a s :: ·) (ih _)

/-- **A path starts at a node**: it goes down from a level of the tree by one level a sibling. -/
theorem mem_level_of_ascend (hf : InjOn f P) {l : List α} {m : ℕ} {path : List (Bool × α)} {a : α}
    (htree : ∀ i < m, ∀ p ∈ pairs (level f l i), P p.1 p.2)
    (hpath : ∀ p ∈ ascendPairs f a path, P p.1 p.2) (hlen : path.length ≤ m)
    (h : ascend f a path ∈ level f l m) : a ∈ level f l (m - path.length) := by
  induction path generalizing a with
  | nil => exact h
  | cons s path ih =>
    rw [List.length_cons] at hlen ⊢
    obtain ⟨hs, hrest⟩ := List.forall_mem_cons.mp hpath
    have hup := ih hrest (by omega) h
    obtain ⟨i, hi⟩ : ∃ i, m - path.length = i + 1 := ⟨m - path.length - 1, by omega⟩
    rw [hi, level_succ] at hup
    obtain ⟨p, hp, hfp⟩ := List.mem_map.mp hup
    -- the pair of the path is the pair of the tree, so the node is in the level of that pair
    have heq : p = beside a s := hf.pair (htree i (by omega) p hp) hs hfp
    rw [show m - (path.length + 1) = i by omega]
    exact mem_of_beside (heq ▸ hp)

/-- Every node has a path to a node any number of levels above, along pairs of the tree. -/
theorem exists_ascend {l : List α} {k m : ℕ} {a : α} (h : a ∈ level f l m) :
    ∃ path : List (Bool × α), path.length = k ∧ ascend f a path ∈ level f l (m + k) ∧
      (∀ p ∈ ascendPairs f a path, ∃ i < m + k, p ∈ pairs (level f l i)) ∧
      ∀ s ∈ path, ∃ i < m + k, s.2 ∈ level f l i := by
  induction k generalizing m a with
  | zero =>
    refine ⟨[], rfl, h, ?_, ?_⟩
    · intro p hp
      cases hp
    · intro s hs
      cases hs
  | succ k ih =>
    obtain ⟨p, hp, hap⟩ := exists_pair_of_mem h
    obtain ⟨s, hs, hsib⟩ := exists_beside hap
    have hup : f p.1 p.2 ∈ level f l (m + 1) := by
      rw [level_succ]
      exact List.mem_map_of_mem hp
    obtain ⟨path, hlen, hend, hpairs, hnodes⟩ := ih hup
    rw [show m + (k + 1) = m + 1 + k by omega]
    refine ⟨s :: path, by rw [List.length_cons, hlen], ?_, ?_, ?_⟩
    · rw [ascend, hs]
      exact hend
    · rw [ascendPairs, hs]
      refine List.forall_mem_cons.mpr ⟨⟨m, by omega, hp⟩, hpairs⟩
    · refine List.forall_mem_cons.mpr ⟨⟨m, by omega, ?_⟩, hnodes⟩
      rcases hsib with hsib | hsib
      · rw [hsib]
        exact fst_mem_of_mem_pairs hp
      · rw [hsib]
        exact snd_mem_of_mem_pairs hp

/-- What holds of the leaves and of every combined node holds in every level. -/
theorem level_nodes {D : α → Prop} (hD : ∀ a b, D (f a b)) {l : List α} (hl : ∀ a ∈ l, D a) :
    ∀ (m : ℕ), ∀ a ∈ level f l m, D a
  | 0 => hl
  | m + 1 => by
    intro a ha
    rw [level_succ] at ha
    obtain ⟨p, -, rfl⟩ := List.mem_map.mp ha
    exact hD _ _

theorem ascendPairs_nodes {D : α → Prop} (hD : ∀ a b, D (f a b)) {path : List (Bool × α)} {a : α}
    (ha : D a) (hpath : ∀ s ∈ path, D s.2) : ∀ p ∈ ascendPairs f a path, D p.1 ∧ D p.2 := by
  induction path generalizing a with
  | nil =>
    intro p hp
    cases hp
  | cons s path ih =>
    obtain ⟨hs, hrest⟩ := List.forall_mem_cons.mp hpath
    refine List.forall_mem_cons.mpr ⟨?_, ih (hD _ _) hrest⟩
    obtain ⟨b, c⟩ := s
    cases b with
    | true => exact ⟨ha, hs⟩
    | false => exact ⟨hs, ha⟩

/-- A path that is not empty ends in a combined node. -/
theorem ascend_combined {path : List (Bool × α)} (hne : path ≠ []) (a : α) :
    ∃ p ∈ ascendPairs f a path, ascend f a path = f p.1 p.2 := by
  obtain ⟨path, s, rfl⟩ := (List.eq_nil_or_concat' path).resolve_left hne
  rw [ascendPairs_append, ascend_append]
  exact ⟨beside (ascend f a path) s, List.mem_append_right _ (List.mem_singleton_self _), rfl⟩

/-- The last level holds the root alone. -/
theorem level_last {n : ℕ} {l : List α} (hne : l ≠ []) (hn : l.length ≤ n) :
    ∃ r, (levels f n l).getLast? = some [r] ∧ level f l ((levels f n l).length - 1) = [r] := by
  obtain ⟨_, r, -, hlast, -⟩ := levels_reduces (f := f) hne hn
  refine ⟨r, hlast, ?_⟩
  have hpos := List.length_pos_iff.mpr (levels_ne_nil f n l)
  rw [List.getLast?_eq_getElem?, getElem?_levels (by omega)] at hlast
  exact Option.some.inj hlast

end Merkle
