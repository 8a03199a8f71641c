import Mermai.Lib.Json
import Mathlib.Data.List.TakeWhile

/-!
# Lib.JsonText — JSON texts put together from texts

A program that writes JSON puts texts between braces and commas.  `Denotes T w r` says what such a text is in
front of the rests `T`: the value `r`, or no value.  An object is one exactly when all of its members are
(`denotes_object`), and so is an array, whatever stands behind; the number or the string at the end of a text
needs to know how the text goes on.
-/

namespace Json

variable {α : Type}

/-- What can follow a value: a comma, a closing byte or nothing. -/
def Stops (t : List UInt8) : Prop := ∀ c ∈ t.head?, c = 44 ∨ c = 93 ∨ c = 125

/-- In front of the rests `T` the text reads as `r`. -/
def Denotes (T : List UInt8 → Prop) (item : ℕ → List UInt8 → Option (α × List UInt8)) (w : List UInt8)
    (r : Option α) : Prop :=
  ∀ n t, w.length < n → T t → item n (w ++ t) = r.map fun a => (a, t)

theorem Denotes.mono {T T' : List UInt8 → Prop} {item : ℕ → List UInt8 → Option (α × List UInt8)}
    {w : List UInt8} {r : Option α} (h : Denotes T item w r) (hT : ∀ t, T' t → T t) :
    Denotes T' item w r := fun n t hn ht => h n t hn (hT t ht)

theorem stops_nil : Stops [] := fun _ h => nomatch h

theorem stops_comma (t : List UInt8) : Stops (44 :: t) := by
  intro c hc
  cases hc
  exact .inl rfl

theorem stops_bracket (t : List UInt8) : Stops (93 :: t) := by
  intro c hc
  cases hc
  exact .inr (.inl rfl)

theorem stops_brace (t : List UInt8) : Stops (125 :: t) := by
  intro c hc
  cases hc
  exact .inr (.inr rfl)

/-- A text that denotes something at the end of the input is parsed as that. -/
theorem Denotes.parse {T : List UInt8 → Prop} {w : List UInt8} {r : Option Value} (hT : T [])
    (h : Denotes T value w r) : parse w = if Utf8.Valid w then r else none := by
  have hvalue := h (w.length + 1) [] (Nat.lt_succ_self _) hT
  rw [List.append_nil] at hvalue
  rw [Json.parse, hvalue]
  cases r <;> rfl

/-! ## Numbers and words -/

theorem not_isNumberByte_of_stops {t : List UInt8} (ht : Stops t) :
    t.takeWhile isNumberByte = [] ∧ t.dropWhile isNumberByte = t := by
  cases t with
  | nil => exact ⟨rfl, rfl⟩
  | cons c t =>
    have hc : isNumberByte c = false := by
      obtain rfl | rfl | rfl := ht c rfl <;> rfl
    rw [List.takeWhile_cons, List.dropWhile_cons, hc]
    exact ⟨rfl, rfl⟩

theorem value_number {c : UInt8} (hc : isNumberByte c = true) (n : ℕ) (s : List UInt8) :
    value (n + 1) (c :: s) = (number ((c :: s).takeWhile isNumberByte)).map fun q =>
      (.num q, (c :: s).dropWhile isNumberByte) := by
  have hne : ∀ d, isNumberByte d = false → c ≠ d := by
    rintro d hd rfl
    rw [hd] at hc
    cases hc
  have hblank : isBlank c = false :=
    decide_eq_false (by simp only [hne 32 rfl, hne 9 rfl, hne 10 rfl, hne 13 rfl, or_self, not_false_eq_true])
  rw [value, List.dropWhile_cons, hblank, if_neg Bool.false_ne_true]
  dsimp only
  rw [if_neg (hne 34 rfl), if_neg (hne 123 rfl), if_neg (hne 91 rfl), if_pos hc]

theorem denotes_number {w : List UInt8} (hne : w ≠ []) (hw : ∀ b ∈ w, isNumberByte b = true) :
    Denotes Stops value w ((number w).map .num) := by
  intro n t hn ht
  obtain ⟨n, rfl⟩ := Nat.exists_eq_succ_of_ne_zero (by omega : n ≠ 0)
  obtain ⟨c, s, rfl⟩ := List.exists_cons_of_ne_nil hne
  obtain ⟨htake, hdrop⟩ := not_isNumberByte_of_stops ht
  have hall : ∀ b ∈ c :: s, isNumberByte b = true := hw
  have hvalue := value_number (hw c List.mem_cons_self) n (s ++ t)
  rw [← List.cons_append, List.takeWhile_append_of_pos hall, List.dropWhile_append_of_pos hall, htake,
    hdrop, List.append_nil] at hvalue
  rw [Nat.succ_eq_add_one, hvalue, Option.map_map]
  rfl

/-- Digits without a leading zero are a number. -/
theorem unsigned_digits {w : List UInt8} (hne : w ≠ []) (hw : ∀ b ∈ w, isDigit b = true)
    (hzero : w.head? = some 48 → w = [48]) : unsigned w = some (digitsValue w : ℚ) := by
  have htake : w.takeWhile isDigit = w := List.takeWhile_eq_self_iff.mpr hw
  have hdrop : w.dropWhile isDigit = [] := List.dropWhile_eq_nil_iff.mpr hw
  rw [unsigned, htake, hdrop]
  dsimp only
  rw [if_neg (not_or.mpr ⟨hne, fun h => h.2 (hzero h.1)⟩)]
  show some ((digitsValue w : ℚ) * 10 ^ (0 : ℤ)) = _
  rw [zpow_zero, mul_one]

theorem takeWhile_isDigit {w t : List UInt8} (hw : ∀ b ∈ w, isDigit b = true)
    (ht : ∀ b ∈ t.head?, isDigit b = false) :
    (w ++ t).takeWhile isDigit = w ∧ (w ++ t).dropWhile isDigit = t := by
  rw [List.takeWhile_append_of_pos hw, List.dropWhile_append_of_pos hw]
  cases t with
  | nil => exact ⟨List.append_nil w, rfl⟩
  | cons c t =>
    rw [List.takeWhile_cons, List.dropWhile_cons, ht c rfl]
    exact ⟨List.append_nil w, rfl⟩

section Unsigned

variable {whole part rest : List UInt8}

/-- Digits and an exponent are a number. -/
theorem isSome_unsigned (hne : whole ≠ []) (hwhole : ∀ b ∈ whole, isDigit b = true)
    (hzero : whole.head? = some 48 → whole = [48])
    (hrest : ∀ b ∈ rest.head?, isDigit b = false ∧ b ≠ 46) (hexponent : (exponent rest).isSome = true) :
    (unsigned (whole ++ rest)).isSome = true := by
  obtain ⟨htake, hdrop⟩ := takeWhile_isDigit hwhole fun b hb => (hrest b hb).1
  rw [unsigned, htake, hdrop]
  dsimp only
  rw [if_neg (not_or.mpr ⟨hne, fun h => h.2 (hzero h.1)⟩)]
  split
  · exact absurd rfl (hrest 46 rfl).2
  · rw [Option.isSome_map, hexponent]

/-- So are digits, a point, digits and an exponent. -/
theorem isSome_unsigned_point (hne : whole ≠ []) (hwhole : ∀ b ∈ whole, isDigit b = true)
    (hzero : whole.head? = some 48 → whole = [48]) (hpartne : part ≠ [])
    (hpart : ∀ b ∈ part, isDigit b = true) (hrest : ∀ b ∈ rest.head?, isDigit b = false)
    (hexponent : (exponent rest).isSome = true) :
    (unsigned (whole ++ 46 :: (part ++ rest))).isSome = true := by
  have hpoint : ∀ b ∈ (46 :: (part ++ rest)).head?, isDigit b = false := by
    intro b hb
    cases hb
    rfl
  obtain ⟨htake, hdrop⟩ := takeWhile_isDigit hwhole hpoint
  obtain ⟨htake', hdrop'⟩ := takeWhile_isDigit hpart hrest
  rw [unsigned, htake, hdrop]
  dsimp only
  rw [if_neg (not_or.mpr ⟨hne, fun h => h.2 (hzero h.1)⟩)]
  show Option.isSome (if (part ++ rest).takeWhile isDigit = [] then none
    else (exponent ((part ++ rest).dropWhile isDigit)).map _) = true
  rw [htake', if_neg hpartne, Option.isSome_map, hdrop', hexponent]

end Unsigned

/-- A text that begins with a digit has no sign. -/
theorem number_of_digit {c : UInt8} (hc : isDigit c = true) (s : List UInt8) :
    number (c :: s) = unsigned (c :: s) := by
  unfold number
  split
  · rename_i heq
    cases heq
    exact absurd hc Bool.false_ne_true
  · rfl

theorem denotes_true : Denotes Stops value [116, 114, 117, 101] (some (.bool true)) := by
  intro n t hn _
  obtain ⟨n, rfl⟩ := Nat.exists_eq_succ_of_ne_zero (by omega : n ≠ 0)
  rfl

theorem denotes_false : Denotes Stops value [102, 97, 108, 115, 101] (some (.bool false)) := by
  intro n t hn _
  obtain ⟨n, rfl⟩ := Nat.exists_eq_succ_of_ne_zero (by omega : n ≠ 0)
  rfl

theorem denotes_null : Denotes Stops value [110, 117, 108, 108] (some .null) := by
  intro n t hn _
  obtain ⟨n, rfl⟩ := Nat.exists_eq_succ_of_ne_zero (by omega : n ≠ 0)
  rfl

/-- Where a value should stand there is nothing. -/
theorem denotes_nil : Denotes Stops value [] none := by
  intro n t _ ht
  match n, t with
  | 0, _ => rfl
  | n + 1, [] => rfl
  | n + 1, c :: t =>
    obtain rfl | rfl | rfl := ht c rfl <;> rfl

/-! ## Strings -/

/-- A byte that stands for itself in a string. -/
def Plain (b : UInt8) : Prop := b ≠ 34 ∧ b ≠ 92 ∧ ¬ b < 32

instance (b : UInt8) : Decidable (Plain b) := inferInstanceAs (Decidable (_ ∧ _ ∧ _))

theorem pieces_plain {s : List UInt8} (hs : ∀ b ∈ s, Plain b) (t : List UInt8) :
    pieces (s ++ 34 :: t) = some (s.map .byte, t) := by
  induction s with
  | nil => exact pieces_quote t
  | cons b s ih =>
    obtain ⟨hquote, hescape, hcontrol⟩ := hs b List.mem_cons_self
    rw [List.cons_append, pieces_byte hquote hescape, if_neg hcontrol,
      ih fun c hc => hs c (List.mem_cons_of_mem _ hc)]
    rfl

@[simp] theorem text_bytes (s : List UInt8) : text (s.map .byte) = s := by
  induction s with
  | nil => rfl
  | cons b s ih => exact congrArg (b :: ·) ih

theorem denotes_string {T : List UInt8 → Prop} {w : List UInt8} {r : Option (List Piece)}
    (h : ∀ t, T t → pieces (w ++ 34 :: t) = r.map fun ps => (ps, t)) :
    Denotes T value (34 :: w ++ [34]) (r.map fun ps => .str (text ps)) := by
  intro n t hn ht
  obtain ⟨n, rfl⟩ := Nat.exists_eq_succ_of_ne_zero (by omega : n ≠ 0)
  have hvalue : value (n + 1) (34 :: (w ++ 34 :: t)) =
      (pieces (w ++ 34 :: t)).map fun p => (.str (text p.1), p.2) := rfl
  have htext : 34 :: w ++ [34] ++ t = 34 :: (w ++ 34 :: t) :=
    congrArg (34 :: ·) (List.append_assoc w [34] t)
  rw [Nat.succ_eq_add_one, htext, hvalue, h t ht, Option.map_map, Option.map_map]
  rfl

/-- A quoted text without quotes, in front of a rest without quotes. -/
theorem denotes_quoted {w : List UInt8} (hw : 34 ∉ w) :
    Denotes (34 ∉ ·) value (34 :: w ++ [34])
      (((pieces (w ++ [34])).map Prod.fst).map fun ps => .str (text ps)) := by
  refine denotes_string fun t ht => ?_
  rw [pieces_of_notMem hw ht, Option.map_map]
  rfl

/-! ## Objects and arrays -/

/-- Texts with commas between them. -/
def commas : List (List UInt8) → List UInt8
  | [] => []
  | [w] => w
  | w :: ws => w ++ 44 :: commas ws

theorem valid_commas {ws : List (List UInt8)} : Utf8.Valid (commas ws) ↔ ∀ w ∈ ws, Utf8.Valid w := by
  match ws with
  | [] => exact iff_of_true Utf8.valid_nil fun _ h => nomatch h
  | [w] => exact (List.forall_mem_singleton (p := Utf8.Valid)).symm
  | w :: v :: ws =>
    rw [commas, Utf8.valid_append_ascii (by decide), valid_commas]
    · exact List.forall_mem_cons.symm
    · exact List.cons_ne_nil _ _

/-- An object or an array is UTF-8 exactly when its items are. -/
theorem valid_between {first close : UInt8} (hfirst : first < 0x80) (hclose : close < 0x80)
    {ws : List (List UInt8)} :
    Utf8.Valid (first :: commas ws ++ [close]) ↔ ∀ w ∈ ws, Utf8.Valid w := by
  rw [Utf8.valid_append_ascii hclose, Utf8.valid_cons_ascii hfirst, valid_commas,
    and_iff_left Utf8.valid_nil]

theorem sepBy_comma {item : List UInt8 → Option (α × List UInt8)} {close : UInt8} (hclose : 44 ≠ close)
    {s rest : List UInt8} {r : Option α} (h : item s = r.map fun a => (a, 44 :: rest)) (n : ℕ) :
    sepBy item close (n + 1) s =
      r.bind fun a => (sepBy item close n rest).map fun q => (a :: q.1, q.2) := by
  rw [sepBy, h]
  cases r with
  | none => rfl
  | some a => exact (if_neg hclose).trans (if_pos rfl)

theorem sepBy_close {item : List UInt8 → Option (α × List UInt8)} {close : UInt8}
    (hblank : isBlank close = false) {s rest : List UInt8} {r : Option α}
    (h : item s = r.map fun a => (a, close :: rest)) (n : ℕ) :
    sepBy item close (n + 1) s = r.map fun a => ([a], rest) := by
  rw [sepBy, h]
  cases r with
  | none => rfl
  | some a =>
    rw [Option.map_some, Option.bind_some, List.dropWhile_cons, hblank]
    exact if_pos rfl

/-- The first byte of an item is neither the closing byte nor a blank. -/
def Opens (close : UInt8) (w : List UInt8) : Prop :=
  ∃ c s, w = c :: s ∧ c ≠ close ∧ isBlank c = false

theorem length_le_commas {w : List UInt8} {ws : List (List UInt8)} (h : w ∈ ws) :
    w.length ≤ (commas ws).length := by
  induction ws with
  | nil => cases h
  | cons u ws ih =>
    cases ws with
    | nil => rw [List.mem_singleton.mp h, commas]
    | cons v ws =>
      rw [commas, List.length_append, List.length_cons]
      · rcases List.mem_cons.mp h with rfl | h
        · omega
        · have := ih h
          omega
      · exact List.cons_ne_nil _ _

/-- The values of a list, when all of them are there. -/
def values (rs : List (Option α)) : Option (List α) := rs.mapM id

theorem values_cons (r : Option α) (rs : List (Option α)) :
    values (r :: rs) = r.bind fun a => (values rs).map (a :: ·) := by
  rw [values, List.mapM_cons]
  cases r with
  | none => rfl
  | some a =>
    show (rs.mapM id).bind _ = _
    rw [values]
    cases rs.mapM id <;> rfl

theorem isSome_values {rs : List (Option α)} : (values rs).isSome ↔ ∀ r ∈ rs, r.isSome := by
  induction rs with
  | nil => exact iff_of_true rfl fun _ h => nomatch h
  | cons r rs ih =>
    rw [values_cons, List.forall_mem_cons, ← ih]
    cases r with
    | none => simp
    | some a => simp

section Lists

variable {item : ℕ → List UInt8 → Option (α × List UInt8)} {close : UInt8}

/-- Items with commas between them are items exactly when each of them is. -/
theorem sepBy_commas (hcomma : 44 ≠ close) (hblank : isBlank close = false)
    (hstops : ∀ t, Stops (close :: t)) {n : ℕ} {w : List UInt8} {r : Option α}
    {ws : List (List UInt8)} {rs : List (Option α)} (hw : Denotes Stops item w r)
    (hws : List.Forall₂ (Denotes Stops item) ws rs) (hn : (commas (w :: ws)).length < n) {k : ℕ}
    (hk : ws.length < k) (t : List UInt8) :
    sepBy (item n) close k (commas (w :: ws) ++ close :: t) = (values (r :: rs)).map fun l => (l, t) := by
  induction hws generalizing w r k with
  | nil =>
    obtain ⟨k, rfl⟩ := Nat.exists_eq_succ_of_ne_zero (by omega : k ≠ 0)
    rw [commas, sepBy_close hblank (hw n (close :: t) hn (hstops t)) k]
    cases r <;> rfl
  | @cons v r' ws rs hv hws ih =>
    obtain ⟨k, rfl⟩ := Nat.exists_eq_succ_of_ne_zero (by omega : k ≠ 0)
    have htext : commas (w :: v :: ws) ++ close :: t = w ++ 44 :: (commas (v :: ws) ++ close :: t) :=
      List.append_assoc _ _ _
    have hlen : (commas (w :: v :: ws)).length = w.length + ((commas (v :: ws)).length + 1) :=
      List.length_append
    have hread := hw n (44 :: (commas (v :: ws) ++ close :: t)) (by omega) (stops_comma _)
    rw [List.length_cons] at hk
    rw [htext, sepBy_comma hcomma hread k, ih hv (by omega) (by omega), values_cons r]
    cases r with
    | none => rfl
    | some a =>
      rw [Option.bind_some, Option.bind_some, Option.map_map, Option.map_map]
      rfl

theorem length_lt_commas (ws : List (List UInt8)) : ws.length ≤ (commas ws).length + 1 := by
  match ws with
  | [] => exact Nat.zero_le _
  | [w] => exact Nat.le_add_left _ _
  | w :: v :: ws =>
    have ih := length_lt_commas (v :: ws)
    have hlen : (commas (w :: v :: ws)).length = w.length + ((commas (v :: ws)).length + 1) :=
      List.length_append
    rw [List.length_cons]
    omega

/-- The same up to the closing byte, for no item at all too. -/
theorem listOf_commas (hcomma : 44 ≠ close) (hblank : isBlank close = false)
    (hstops : ∀ t, Stops (close :: t)) {n : ℕ} {ws : List (List UInt8)} {rs : List (Option α)}
    (hopens : ∀ w ∈ ws, Opens close w) (hws : List.Forall₂ (Denotes Stops item) ws rs)
    (hn : (commas ws).length + 1 < n) (t : List UInt8) :
    listOf (item n) close n (commas ws ++ close :: t) = (values rs).map fun l => (l, t) := by
  cases hws with
  | nil =>
    rw [commas, List.nil_append, listOf, List.dropWhile_cons, hblank]
    exact if_pos rfl
  | @cons w r ws rs hw hws =>
    obtain ⟨c, s, rfl, hc, hcblank⟩ := hopens w List.mem_cons_self
    obtain ⟨s', hs'⟩ : ∃ s', commas ((c :: s) :: ws) = c :: s' := by
      cases ws <;> exact ⟨_, rfl⟩
    have hk := length_lt_commas ((c :: s) :: ws)
    rw [List.length_cons] at hk
    have hread := sepBy_commas (n := n) (k := n) hcomma hblank hstops hw hws (by omega) (by omega) t
    rw [hs', List.cons_append] at hread ⊢
    rw [← hread, listOf, List.dropWhile_cons, hcblank]
    exact if_neg hc

end Lists

/-- A text between brackets is an array exactly when its items are values. -/
theorem denotes_array {ws : List (List UInt8)} {rs : List (Option Value)}
    (hopens : ∀ w ∈ ws, Opens 93 w) (hws : List.Forall₂ (Denotes Stops value) ws rs) :
    Denotes Stops value (91 :: commas ws ++ [93]) ((values rs).map .arr) := by
  intro n t hn _
  obtain ⟨n, rfl⟩ := Nat.exists_eq_succ_of_ne_zero (by omega : n ≠ 0)
  have htext : 91 :: commas ws ++ [93] ++ t = 91 :: (commas ws ++ 93 :: t) :=
    congrArg (91 :: ·) (List.append_assoc _ [93] t)
  have hvalue : value (n + 1) (91 :: (commas ws ++ 93 :: t)) =
      (listOf (value n) 93 n (commas ws ++ 93 :: t)).map fun p => (.arr p.1, p.2) := rfl
  rw [List.length_append, List.length_cons, List.length_singleton] at hn
  rw [Nat.succ_eq_add_one, htext, hvalue,
    listOf_commas (by decide) rfl stops_bracket hopens hws (by omega) t, Option.map_map, Option.map_map]
  rfl

/-- The same for an object and its members. -/
theorem denotes_object {ws : List (List UInt8)} {rs : List (Option (List UInt8 × Value))}
    (hopens : ∀ w ∈ ws, Opens 125 w) (hws : List.Forall₂ (Denotes Stops fun n => member (value n)) ws rs) :
    Denotes Stops value (123 :: commas ws ++ [125]) ((values rs).map .obj) := by
  intro n t hn _
  obtain ⟨n, rfl⟩ := Nat.exists_eq_succ_of_ne_zero (by omega : n ≠ 0)
  have htext : 123 :: commas ws ++ [125] ++ t = 123 :: (commas ws ++ 125 :: t) :=
    congrArg (123 :: ·) (List.append_assoc _ [125] t)
  have hvalue : value (n + 1) (123 :: (commas ws ++ 125 :: t)) =
      (listOf (member (value n)) 125 n (commas ws ++ 125 :: t)).map fun p => (.obj p.1, p.2) := rfl
  rw [List.length_append, List.length_cons, List.length_singleton] at hn
  have hlist : listOf ((fun n => member (value n)) n) 125 n (commas ws ++ 125 :: t) = _ :=
    listOf_commas (by decide) rfl stops_brace hopens hws (by omega) t
  rw [Nat.succ_eq_add_one, htext, hvalue, hlist, Option.map_map, Option.map_map]
  rfl

/-- A member is one exactly when its value is; what can follow the value can follow the member. -/
theorem denotes_member {T : List UInt8 → Prop} {key w : List UInt8} {r : Option Value}
    (hkey : ∀ b ∈ key, Plain b) (h : Denotes T value w r) :
    Denotes T (fun n => member (value n)) (34 :: key ++ 34 :: 58 :: w) (r.map fun v => (key, v)) := by
  intro n t hn ht
  have htext : 34 :: key ++ 34 :: 58 :: w ++ t = 34 :: (key ++ 34 :: 58 :: (w ++ t)) :=
    congrArg (34 :: ·) (List.append_assoc _ _ t)
  rw [List.length_append, List.length_cons, List.length_cons, List.length_cons] at hn
  show member (value n) _ = _
  rw [htext]
  show (pieces (key ++ 34 :: 58 :: (w ++ t))).bind _ = _
  rw [pieces_plain hkey, Option.bind_some]
  show (value n (w ++ t)).map _ = _
  rw [h n t (by omega) ht, text_bytes, Option.map_map, Option.map_map]
  rfl

end Json
