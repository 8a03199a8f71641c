import Mermai.Lib.Delimited
import Mermai.Lib.Utf8
import Mathlib.Algebra.Order.Field.Rat
import Mathlib.Data.Rat.Lemmas

/-!
# Lib.Json — JSON texts and their values

`parse` reads a whole text: UTF-8, and the grammar of JSON with nothing but blanks around the value.  Equal
values are equal as data: a number is a rational, a string is the UTF-8 text that its escapes stand for.

`value` is a recursive descent with fuel.  Every call takes a byte before the next one, so more fuel than
bytes changes nothing (`value_enough`).  `Denotes w r` says what a text `w` written into a larger one is
there: the value, or no value; objects and arrays are put together from such texts.
-/

namespace Json

/-- A JSON value; the members of an object in the order of the text. -/
inductive Value
  | null
  | bool (b : Bool)
  | num (q : ℚ)
  | str (s : List UInt8)
  | arr (l : List Value)
  | obj (members : List (List UInt8 × Value))

/-- The value of a member: that of its last occurrence. -/
def lookup (members : List (List UInt8 × Value)) (key : List UInt8) : Option Value :=
  members.reverse.lookup key

/-! ## Strings -/

/-- A piece of a string: a byte as it stands, or the unit of an escape with four digits. -/
inductive Piece
  | byte (b : UInt8)
  | unit (u : ℕ)

/-- The value of a hexadecimal digit. -/
def hexValue (b : UInt8) : Option ℕ :=
  if 48 ≤ b ∧ b ≤ 57 then some (b.toNat - 48)
  else if 97 ≤ b ∧ b ≤ 102 then some (b.toNat - 87)
  else if 65 ≤ b ∧ b ≤ 70 then some (b.toNat - 55)
  else none

/-- The unit of an escape. -/
def unitValue (digits : List UInt8) : Option ℕ :=
  digits.foldlM (fun n d => (hexValue d).map fun k => n * 16 + k) 0

/-- The byte of an escape of one letter. -/
def letterValue (e : UInt8) : Option UInt8 :=
  if e = 34 ∨ e = 92 ∨ e = 47 then some e
  else if e = 98 then some 8
  else if e = 102 then some 12
  else if e = 110 then some 10
  else if e = 114 then some 13
  else if e = 116 then some 9
  else none

/-- A piece put before those of the rest. -/
def before (p : Option Piece) (r : Option (List Piece × List UInt8)) : Option (List Piece × List UInt8) :=
  p.bind fun p => r.map fun q => (p :: q.1, q.2)

/-- The pieces of a string behind its opening quote, and the text behind the closing one. -/
def pieces : List UInt8 → Option (List Piece × List UInt8)
  | [] => none
  | b :: rest =>
    if b = 34 then some ([], rest)
    else if b = 92 then
      match rest with
      | [] => none
      | e :: rest =>
        if e = 117 then
          match rest with
          | b1 :: b2 :: b3 :: b4 :: rest => before ((unitValue [b1, b2, b3, b4]).map .unit) (pieces rest)
          | _ => none
        else before ((letterValue e).map .byte) (pieces rest)
    else if b < 32 then none
    else before (some (.byte b)) (pieces rest)

theorem before_eq_some {p : Option Piece} {r : Option (List Piece × List UInt8)} {ps : List Piece}
    {t : List UInt8} : before p r = some (ps, t) ↔ ∃ q qs, p = some q ∧ r = some (qs, t) ∧ ps = q :: qs := by
  constructor
  · intro h
    obtain ⟨q, rfl, h⟩ := Option.bind_eq_some_iff.mp h
    obtain ⟨⟨qs, t'⟩, rfl, h⟩ := Option.map_eq_some_iff.mp h
    cases h
    exact ⟨q, qs, rfl, rfl, rfl⟩
  · rintro ⟨q, qs, rfl, rfl, rfl⟩
    rfl

theorem pieces_quote (s : List UInt8) : pieces (34 :: s) = some ([], s) := by
  rw [pieces.eq_def]
  rfl

theorem pieces_unit (b1 b2 b3 b4 : UInt8) (s : List UInt8) :
    pieces (92 :: 117 :: b1 :: b2 :: b3 :: b4 :: s) =
      before ((unitValue [b1, b2, b3, b4]).map .unit) (pieces s) := by
  rw [pieces.eq_def]
  rfl

theorem pieces_letter {e : UInt8} (he : e ≠ 117) (s : List UInt8) :
    pieces (92 :: e :: s) = before ((letterValue e).map .byte) (pieces s) := by
  rw [pieces.eq_def]
  exact if_neg he

theorem pieces_byte {b : UInt8} (hquote : b ≠ 34) (hescape : b ≠ 92) (s : List UInt8) :
    pieces (b :: s) = if b < 32 then none else before (some (.byte b)) (pieces s) := by
  rw [pieces.eq_def]
  dsimp only
  rw [if_neg hquote, if_neg hescape]

/-- A string that ends has a text up to its closing quote, and that text is the same string before any
other rest. -/
theorem exists_of_pieces {s t : List UInt8} {ps : List Piece} (h : pieces s = some (ps, t)) :
    ∃ w, s = w ++ 34 :: t ∧ ∀ u, pieces (w ++ 34 :: u) = some (ps, u) := by
  fun_induction pieces s generalizing ps with
  | case1 => cases h
  | case2 rest =>
    cases h
    exact ⟨[], rfl, pieces_quote⟩
  | case3 => cases h
  | case4 b1 b2 b3 b4 rest _ ih =>
    obtain ⟨q, qs, hq, hrest, rfl⟩ := before_eq_some.mp h
    obtain ⟨w, rfl, hw⟩ := ih hrest
    refine ⟨92 :: 117 :: b1 :: b2 :: b3 :: b4 :: w, rfl, fun u => ?_⟩
    exact (pieces_unit b1 b2 b3 b4 _).trans (before_eq_some.mpr ⟨q, qs, hq, hw u, rfl⟩)
  | case5 => cases h
  | case6 e rest he _ ih =>
    obtain ⟨q, qs, hq, hrest, rfl⟩ := before_eq_some.mp h
    obtain ⟨w, rfl, hw⟩ := ih hrest
    refine ⟨92 :: e :: w, rfl, fun u => ?_⟩
    exact (pieces_letter he _).trans (before_eq_some.mpr ⟨q, qs, hq, hw u, rfl⟩)
  | case7 => cases h
  | case8 b rest hquote hescape hcontrol ih =>
    obtain ⟨q, qs, hq, hrest, rfl⟩ := before_eq_some.mp h
    obtain ⟨w, rfl, hw⟩ := ih hrest
    refine ⟨b :: w, rfl, fun u => ?_⟩
    rw [List.cons_append, pieces_byte hquote hescape, if_neg hcontrol]
    exact before_eq_some.mpr ⟨q, qs, hq, hw u, rfl⟩

/-- Without further quotes a string ends at the next one or not at all. -/
theorem pieces_of_notMem {w t : List UInt8} (hw : 34 ∉ w) (ht : 34 ∉ t) :
    pieces (w ++ 34 :: t) = (pieces (w ++ [34])).map fun p => (p.1, t) := by
  have hsame : ∀ {u v : List UInt8} {ps : List Piece}, 34 ∉ u → pieces (w ++ 34 :: u) = some (ps, v) →
      v = u ∧ ∀ x, pieces (w ++ 34 :: x) = some (ps, x) := by
    intro u v ps hu h
    obtain ⟨w', heq, hany⟩ := exists_of_pieces h
    obtain ⟨rfl, rfl⟩ := (Delimited.join_unique_iff w u).mpr ⟨hw, hu⟩ w' v heq
    exact ⟨rfl, hany⟩
  cases hend : pieces (w ++ [34]) with
  | some p =>
    obtain ⟨-, hany⟩ := hsame List.not_mem_nil hend
    exact hany t
  | none =>
    refine Option.eq_none_iff_forall_ne_some.mpr fun p h => ?_
    obtain ⟨-, hany⟩ := hsame ht h
    rw [hany []] at hend
    cases hend

/-- The bytes of a code point; a surrogate that stands alone is encoded like the others. -/
def encode (u : ℕ) : List UInt8 :=
  if u < 0x80 then [UInt8.ofNat u]
  else if u < 0x800 then [UInt8.ofNat (0xC0 + u / 64), UInt8.ofNat (0x80 + u % 64)]
  else if u < 0x10000 then
    [UInt8.ofNat (0xE0 + u / 4096), UInt8.ofNat (0x80 + u / 64 % 64), UInt8.ofNat (0x80 + u % 64)]
  else
    [UInt8.ofNat (0xF0 + u / 262144), UInt8.ofNat (0x80 + u / 4096 % 64),
      UInt8.ofNat (0x80 + u / 64 % 64), UInt8.ofNat (0x80 + u % 64)]

/-- The text of a string: a high surrogate and the low one behind it are one code point. -/
def text : List Piece → List UInt8
  | [] => []
  | .byte b :: rest => b :: text rest
  | .unit u :: .unit v :: rest =>
    if (0xD800 ≤ u ∧ u < 0xDC00) ∧ (0xDC00 ≤ v ∧ v < 0xE000) then
      encode (0x10000 + (u - 0xD800) * 0x400 + (v - 0xDC00)) ++ text rest
    else encode u ++ text (.unit v :: rest)
  | .unit u :: rest => encode u ++ text rest

/-! ## Numbers -/

/-- A decimal digit. -/
def isDigit (b : UInt8) : Bool := 48 ≤ b ∧ b ≤ 57

/-- The bytes of numbers. -/
def isNumberByte (b : UInt8) : Bool := isDigit b ∨ b = 43 ∨ b = 45 ∨ b = 46 ∨ b = 69 ∨ b = 101

/-- The number of some digits. -/
def digitsValue (s : List UInt8) : ℕ := s.foldl (fun n b => n * 10 + (b.toNat - 48)) 0

/-- At least one digit, and nothing else. -/
def digits (s : List UInt8) : Option ℕ :=
  if s ≠ [] ∧ s.all isDigit then some (digitsValue s) else none

/-- The exponent behind a number, 0 when there is none. -/
def exponent : List UInt8 → Option ℤ
  | [] => some 0
  | e :: rest =>
    if e = 69 ∨ e = 101 then
      match rest with
      | 43 :: s => (digits s).map fun n => (n : ℤ)
      | 45 :: s => (digits s).map fun n => -(n : ℤ)
      | s => (digits s).map fun n => (n : ℤ)
    else none

/-- A number behind its sign: no zero stands in front of another digit. -/
def unsigned (s : List UInt8) : Option ℚ :=
  let whole := s.takeWhile isDigit
  if whole = [] ∨ (whole.head? = some 48 ∧ whole ≠ [48]) then none
  else
    match s.dropWhile isDigit with
    | 46 :: rest =>
      let part := rest.takeWhile isDigit
      if part = [] then none
      else
        (exponent (rest.dropWhile isDigit)).map fun e : ℤ =>
          (digitsValue (whole ++ part) : ℚ) * 10 ^ (e - part.length)
    | rest => (exponent rest).map fun e : ℤ => (digitsValue whole : ℚ) * 10 ^ e

/-- The value of a number. -/
def number : List UInt8 → Option ℚ
  | 45 :: s => (unsigned s).map fun q => -q
  | s => unsigned s

/-! ## Values -/

/-- The bytes between the tokens. -/
def isBlank (b : UInt8) : Bool := b = 32 ∨ b = 9 ∨ b = 10 ∨ b = 13

section Items

variable {α : Type}

/-- Items with commas between them, up to the closing byte. -/
def sepBy (item : List UInt8 → Option (α × List UInt8)) (close : UInt8) :
    ℕ → List UInt8 → Option (List α × List UInt8)
  | 0, _ => none
  | n + 1, s =>
    (item s).bind fun p =>
      match p.2.dropWhile isBlank with
      | [] => none
      | c :: rest =>
        if c = close then some ([p.1], rest)
        else if c = 44 then (sepBy item close n rest).map fun q => (p.1 :: q.1, q.2)
        else none

/-- The items of an array or an object behind its opening byte. -/
def listOf (item : List UInt8 → Option (α × List UInt8)) (close : UInt8) (n : ℕ) (s : List UInt8) :
    Option (List α × List UInt8) :=
  match s.dropWhile isBlank with
  | [] => none
  | c :: rest => if c = close then some ([], rest) else sepBy item close n (c :: rest)

end Items

/-- A member of an object. -/
def member (value : List UInt8 → Option (Value × List UInt8)) (s : List UInt8) :
    Option ((List UInt8 × Value) × List UInt8) :=
  match s.dropWhile isBlank with
  | 34 :: rest =>
    (pieces rest).bind fun key =>
      match key.2.dropWhile isBlank with
      | 58 :: rest => (value rest).map fun p => ((text key.1, p.1), p.2)
      | _ => none
  | _ => none

/-- A word, and what stands behind it. -/
def word (w : List UInt8) (v : Value) (s : List UInt8) : Option (Value × List UInt8) :=
  if w.isPrefixOf s then some (v, s.drop w.length) else none

/-- The value at the front of a text, and what stands behind it. -/
def value : ℕ → List UInt8 → Option (Value × List UInt8)
  | 0, _ => none
  | n + 1, s =>
    match s.dropWhile isBlank with
    | [] => none
    | c :: rest =>
      if c = 34 then (pieces rest).map fun p => (.str (text p.1), p.2)
      else if c = 123 then (listOf (member (value n)) 125 n rest).map fun p => (.obj p.1, p.2)
      else if c = 91 then (listOf (value n) 93 n rest).map fun p => (.arr p.1, p.2)
      else if isNumberByte c then
        (number ((c :: rest).takeWhile isNumberByte)).map fun q =>
          (.num q, (c :: rest).dropWhile isNumberByte)
      else if c = 116 then word [116, 114, 117, 101] (.bool true) (c :: rest)
      else if c = 102 then word [102, 97, 108, 115, 101] (.bool false) (c :: rest)
      else word [110, 117, 108, 108] .null (c :: rest)

/-- The value of a JSON text. -/
def parse (s : List UInt8) : Option Value :=
  if Utf8.Valid s then
    (value (s.length + 1) s).bind fun p => if p.2.all isBlank then some p.1 else none
  else none

/-! ## Enough fuel -/

section Enough

variable {α : Type}

/-- Up to a length, what `item` reads `item'` reads too, and it takes a byte at least. -/
def Within (bound : ℕ) (item item' : List UInt8 → Option (α × List UInt8)) : Prop :=
  ∀ s a t, s.length ≤ bound → item s = some (a, t) → t.length < s.length ∧ item' s = some (a, t)

theorem length_of_dropWhile {s rest : List UInt8} {c : UInt8} (h : s.dropWhile isBlank = c :: rest) :
    rest.length < s.length := by
  have hle := (List.dropWhile_suffix isBlank : s.dropWhile isBlank <:+ s).length_le
  rw [h, List.length_cons] at hle
  omega

theorem length_of_pieces {s t : List UInt8} {ps : List Piece} (h : pieces s = some (ps, t)) :
    t.length < s.length := by
  obtain ⟨w, rfl, -⟩ := exists_of_pieces h
  rw [List.length_append, List.length_cons]
  omega

theorem sepBy_enough {item item' : List UInt8 → Option (α × List UInt8)} {close : UInt8} {bound : ℕ}
    (hitem : Within bound item item') {n : ℕ} {s t : List UInt8} {as : List α} (hs : s.length ≤ bound)
    (h : sepBy item close n s = some (as, t)) :
    t.length < s.length ∧ ∀ m, s.length < m → sepBy item' close m s = some (as, t) := by
  induction n generalizing s as with
  | zero => cases h
  | succ n ih =>
    rw [sepBy] at h
    obtain ⟨⟨a, u⟩, hread, h⟩ := Option.bind_eq_some_iff.mp h
    obtain ⟨hu, hread'⟩ := hitem s a u hs hread
    have hstep : ∀ m, sepBy item' close (m + 1) s = match u.dropWhile isBlank with
        | [] => none
        | c :: rest =>
          if c = close then some ([a], rest)
          else if c = 44 then (sepBy item' close m rest).map fun q => (a :: q.1, q.2)
          else none := by
      intro m
      rw [sepBy, hread']
      rfl
    cases hblank : u.dropWhile isBlank with
    | nil =>
      rw [hblank] at h
      cases h
    | cons c rest =>
      have hrest := length_of_dropWhile hblank
      rw [hblank] at h
      dsimp only at h
      split_ifs at h with hclose hcomma
      · cases h
        refine ⟨by omega, fun m hm => ?_⟩
        obtain ⟨m, rfl⟩ := Nat.exists_eq_add_of_lt hm
        rw [hstep, hblank]
        exact if_pos hclose
      · obtain ⟨⟨bs, v⟩, hmore, h⟩ := Option.map_eq_some_iff.mp h
        cases h
        obtain ⟨hv, hall⟩ := ih (by omega) hmore
        refine ⟨by omega, fun m hm => ?_⟩
        obtain ⟨m, rfl⟩ := Nat.exists_eq_add_of_lt hm
        rw [hstep, hblank]
        dsimp only
        rw [if_neg hclose, if_pos hcomma, hall _ (by omega)]
        rfl

theorem listOf_enough {item item' : List UInt8 → Option (α × List UInt8)} {close : UInt8} {bound : ℕ}
    (hitem : Within bound item item') {n : ℕ} {s t : List UInt8} {as : List α} (hs : s.length ≤ bound)
    (h : listOf item close n s = some (as, t)) :
    t.length < s.length ∧ ∀ m, s.length < m → listOf item' close m s = some (as, t) := by
  unfold listOf at h ⊢
  have hle := (List.dropWhile_suffix isBlank : s.dropWhile isBlank <:+ s).length_le
  cases hblank : s.dropWhile isBlank with
  | nil =>
    rw [hblank] at h
    cases h
  | cons c rest =>
    rw [hblank] at h hle
    dsimp only at h ⊢
    split_ifs at h ⊢ with hclose
    · cases h
      rw [List.length_cons] at hle
      exact ⟨by omega, fun _ _ => rfl⟩
    · obtain ⟨ht, hall⟩ := sepBy_enough hitem (by omega) h
      exact ⟨by omega, fun m hm => hall m (by omega)⟩

/-- An array or an object whose items have enough fuel has enough. -/
theorem list_enough {f : ℕ → List UInt8 → Option (α × List UInt8)} {g : List α → Value} {close : UInt8}
    {n : ℕ} {s t : List UInt8} {v : Value} (hitem : ∀ m, s.length < m → Within s.length (f n) (f m))
    (h : ((listOf (f n) close n s).map fun p => (g p.1, p.2)) = some (v, t)) :
    t.length < s.length ∧
      ∀ m, s.length < m → ((listOf (f m) close m s).map fun p => (g p.1, p.2)) = some (v, t) := by
  obtain ⟨⟨l, u⟩, hlist, hvalue⟩ := Option.map_eq_some_iff.mp h
  cases hvalue
  have hread := fun m hm => listOf_enough (hitem m hm) le_rfl hlist
  refine ⟨(hread _ (Nat.lt_succ_self _)).1, fun m hm => ?_⟩
  rw [(hread m hm).2 m hm]
  rfl

theorem member_enough {value value' : List UInt8 → Option (Value × List UInt8)} {bound : ℕ}
    (hvalue : Within bound value value') : Within bound (member value) (member value') := by
  intro s a t hs h
  unfold member at h ⊢
  cases hblank : s.dropWhile isBlank with
  | nil =>
    rw [hblank] at h
    cases h
  | cons c rest =>
    have hrest := length_of_dropWhile hblank
    rw [hblank] at h
    split at h
    · rename_i key heq
      cases heq
      obtain ⟨⟨ps, u⟩, hkey, h⟩ := Option.bind_eq_some_iff.mp h
      have hu := length_of_pieces hkey
      rw [hkey]
      dsimp only at h
      split at h
      · rename_i v hcolon
        have hv := length_of_dropWhile hcolon
        obtain ⟨⟨b, x⟩, hread, h⟩ := Option.map_eq_some_iff.mp h
        cases h
        obtain ⟨hx, hread'⟩ := hvalue v b _ (by omega) hread
        refine ⟨show x.length < s.length by omega, ?_⟩
        rw [Option.bind_some, hcolon]
        show (value' v).map _ = _
        rw [hread']
        rfl
      · cases h
    · cases h

theorem length_of_word {w s t : List UInt8} {v a : Value} (hw : w ≠ []) (h : word w v s = some (a, t)) :
    t.length < s.length := by
  unfold word at h
  split_ifs at h with hpre
  cases h
  have hlen := List.length_pos_of_ne_nil hw
  have hle := (List.isPrefixOf_iff_prefix.mp hpre).length_le
  rw [List.length_drop]
  omega

/-- **Enough fuel**: what some fuel reads is shorter than the text, and all fuel above its length reads
the same. -/
theorem value_enough {n : ℕ} {s t : List UInt8} {v : Value} (h : value n s = some (v, t)) :
    t.length < s.length ∧ ∀ m, s.length < m → value m s = some (v, t) := by
  induction n generalizing s t v with
  | zero => cases h
  | succ n ih =>
    have hle := (List.dropWhile_suffix isBlank : s.dropWhile isBlank <:+ s).length_le
    have hsucc : (∀ m, s.length < m + 1 → value (m + 1) s = some (v, t)) →
        ∀ m, s.length < m → value m s = some (v, t) := by
      intro hall m hm
      obtain ⟨m, rfl⟩ := Nat.exists_eq_succ_of_ne_zero (by omega : m ≠ 0)
      exact hall m hm
    rw [value] at h
    suffices hread : t.length < s.length ∧ ∀ m, s.length < m + 1 → value (m + 1) s = some (v, t) from
      ⟨hread.1, hsucc hread.2⟩
    simp only [value]
    cases hblank : s.dropWhile isBlank with
    | nil =>
      rw [hblank] at h
      cases h
    | cons c rest =>
      rw [hblank] at h hle
      rw [List.length_cons] at hle
      dsimp only at h ⊢
      have hitem : ∀ m, rest.length < m → Within rest.length (value n) (value m) := by
        intro m hm u a x hu hread
        obtain ⟨hx, hall⟩ := ih hread
        exact ⟨hx, hall m (by omega)⟩
      have hword : ∀ {w : List UInt8} {u : Value}, w ≠ [] → word w u (c :: rest) = some (v, t) →
          t.length < s.length := by
        intro w u hw hread
        have ht := length_of_word hw hread
        rw [List.length_cons] at ht
        omega
      split_ifs at h ⊢ with hstring hobject harray hnumber htrue hfalse
      · obtain ⟨⟨ps, u⟩, hpieces, hvalue⟩ := Option.map_eq_some_iff.mp h
        have hu := length_of_pieces hpieces
        cases hvalue
        exact ⟨show u.length < s.length by omega, fun _ _ => h⟩
      · obtain ⟨ht, hall⟩ := list_enough (f := fun n => member (value n))
          (fun m hm => member_enough (hitem m hm)) h
        exact ⟨by omega, fun m hm => hall m (by omega)⟩
      · obtain ⟨ht, hall⟩ := list_enough hitem h
        exact ⟨by omega, fun m hm => hall m (by omega)⟩
      · obtain ⟨q, hq, hvalue⟩ := Option.map_eq_some_iff.mp h
        have hdrop := (List.dropWhile_suffix isNumberByte : rest.dropWhile isNumberByte <:+ rest).length_le
        rw [List.dropWhile_cons, if_pos hnumber] at hvalue
        cases hvalue
        exact ⟨by omega, fun _ _ => h⟩
      · exact ⟨hword (List.cons_ne_nil _ _) h, fun _ _ => h⟩
      · exact ⟨hword (List.cons_ne_nil _ _) h, fun _ _ => h⟩
      · exact ⟨hword (List.cons_ne_nil _ _) h, fun _ _ => h⟩

end Enough

/-- The value of a text is what any fuel reads, blanks aside. -/
theorem parse_eq_some_iff {s : List UInt8} {v : Value} : parse s = some v ↔
    Utf8.Valid s ∧ ∃ n t, value n s = some (v, t) ∧ t.all isBlank = true := by
  unfold parse
  split_ifs with hvalid
  · rw [and_iff_right hvalid]
    constructor
    · intro h
      obtain ⟨⟨u, t⟩, hread, h⟩ := Option.bind_eq_some_iff.mp h
      dsimp only at h
      split_ifs at h with ht
      cases h
      exact ⟨_, t, hread, ht⟩
    · rintro ⟨n, t, hread, ht⟩
      rw [(value_enough hread).2 _ (Nat.lt_succ_self _)]
      exact if_pos ht
  · exact iff_of_false (fun h => nomatch h) fun h => hvalid h.1

end Json
