import Mathlib.Data.List.Basic
import Mathlib.Data.Set.Function
import Mathlib.Tactic.Ring
import Mathlib.Tactic.Linarith

/-!
# Lib.Codec — readers and writers of length-prefixed binary formats

A writer is a function to byte strings; a reader consumes a prefix of its input or fails with an
error text.  `ReadsIn r enc ctx ok` says that `r` is the exact inverse of `enc` on the values with
`ctx` and `ok`:

* completeness: `r (enc b ++ rest) = .ok (b, rest)` for every such `b`;
* soundness: whatever `r` returns is such a `b`, and what it consumed is `enc b`.

`ctx` collects the fields that were read before (`ReadsIn.bind`), so that a reader of a record is
treated field by field.  Rules: big-endian integers (`readBE_reads`), length-prefixed strings
(`readSized_reads`), counted lists (`readCounted_reads`), encodings nested in a string
(`readNested_reads`), and end of input (`parseAll_iff`).  An exact parser fails on every other string
(`parse_error_iff`), and its encoding is a bijection (`enc_bijOn`).
-/

namespace Codec

/-- A byte string. -/
abbrev Bytes := List UInt8

/-- A reader consumes a prefix of its input or fails with an error text. -/
abbrev Reader (α : Type) := StateT Bytes (Except String) α

variable {α β : Type}

theorem pure_apply (a : α) (s : Bytes) : (pure a : Reader α) s = .ok (a, s) := rfl

theorem bind_ok {r : Reader α} {k : α → Reader β} {s t : Bytes} {a : α} (h : r s = .ok (a, t)) :
    (r >>= k) s = k a t := by
  show (r s >>= fun p => k p.1 p.2) = _
  rw [h]
  rfl

theorem bind_eq_ok {r : Reader α} {k : α → Reader β} {s t : Bytes} {b : β} :
    (r >>= k) s = .ok (b, t) ↔ ∃ a u, r s = .ok (a, u) ∧ k a u = .ok (b, t) := by
  show (r s >>= fun p => k p.1 p.2) = _ ↔ _
  cases h : r s with
  | error e =>
    constructor
    · intro h'
      cases h'
    · rintro ⟨_, _, h', _⟩
      cases h'
  | ok p =>
    obtain ⟨a, u⟩ := p
    constructor
    · intro h'
      exact ⟨a, u, rfl, h'⟩
    · rintro ⟨a', u', h', hk⟩
      cases h'
      exact hk

/-! ## The inverse law -/

/-- `r` reads exactly the encodings `enc b` of the values `b` with `ctx b` and `ok b`. -/
structure ReadsIn (r : Reader β) (enc : β → Bytes) (ctx ok : β → Prop) : Prop where
  complete : ∀ b rest, ctx b → ok b → r (enc b ++ rest) = .ok (b, rest)
  sound : ∀ s b rest, r s = .ok (b, rest) → s = enc b ++ rest ∧ ctx b ∧ ok b

/-- `ReadsIn` without fields read before. -/
abbrev Reads (r : Reader β) (enc : β → Bytes) (ok : β → Prop) : Prop :=
  ReadsIn r enc (fun _ => True) ok

theorem ReadsIn.congr {r : Reader β} {enc enc' : β → Bytes} {ctx ok ok' : β → Prop}
    (h : ReadsIn r enc ctx ok) (henc : ∀ b, enc' b = enc b) (hok : ∀ b, ok' b ↔ ok b) :
    ReadsIn r enc' ctx ok' := by
  refine ⟨?_, ?_⟩
  · intro b rest hc hb
    rw [henc]
    exact h.complete b rest hc ((hok b).mp hb)
  · intro s b rest hs
    obtain ⟨h1, h2, h3⟩ := h.sound s b rest hs
    exact ⟨by rw [henc]; exact h1, h2, (hok b).mpr h3⟩

/-- An encoding that some reader inverts tells the values it reads apart. -/
theorem Reads.enc_inj {r : Reader β} {enc : β → Bytes} {ok : β → Prop} (h : Reads r enc ok)
    {a b : β} (ha : ok a) (hb : ok b) (hab : enc a = enc b) : a = b := by
  have h1 := h.complete a [] trivial ha
  rw [hab, h.complete b [] trivial hb] at h1
  cases h1
  rfl

/-- **Fields**: read the field `proj b` with `r`, then the rest of the record. -/
theorem ReadsIn.bind {r : Reader α} {e : α → Bytes} {P : α → Prop} {k : α → Reader β}
    {e' : β → Bytes} {ctx Q : β → Prop} (proj : β → α) (hr : Reads r e P)
    (hk : ∀ a, P a → ReadsIn (k a) e' (fun b => ctx b ∧ proj b = a) Q) :
    ReadsIn (r >>= k) (fun b => e (proj b) ++ e' b) ctx (fun b => P (proj b) ∧ Q b) := by
  refine ⟨?_, ?_⟩
  · intro b rest hc hb
    rw [List.append_assoc, bind_ok (hr.complete _ _ trivial hb.1)]
    exact (hk _ hb.1).complete b rest ⟨hc, rfl⟩ hb.2
  · intro s b rest hs
    obtain ⟨a, u, h1, h2⟩ := bind_eq_ok.mp hs
    obtain ⟨hs1, -, hP⟩ := hr.sound _ _ _ h1
    obtain ⟨hs2, ⟨hc, rfl⟩, hQ⟩ := (hk a hP).sound _ _ _ h2
    exact ⟨by rw [hs1, hs2, List.append_assoc], hc, hP, hQ⟩

/-- The record is complete: every field has been read. -/
theorem ReadsIn.pure {b₀ : β} {ctx : β → Prop} (h : ∀ b, ctx b ↔ b = b₀) :
    ReadsIn (pure b₀) (fun _ => []) ctx (fun _ => True) := by
  refine ⟨?_, ?_⟩
  · intro b rest hc _
    rw [(h b).mp hc]
    rfl
  · intro s b rest hs
    rw [pure_apply] at hs
    cases hs
    exact ⟨rfl, (h b₀).mpr rfl, trivial⟩

/-- A value of another type read through a map that is inverted by `proj`. -/
theorem Reads.map {r : Reader α} {e : α → Bytes} {P : α → Prop} (f : α → β) (proj : β → α)
    (hr : Reads r e P) (hf : ∀ a, P a → proj (f a) = a) (hproj : ∀ b, P (proj b) → f (proj b) = b) :
    Reads (r >>= fun a => Pure.pure (f a)) (fun b => e (proj b)) (fun b => P (proj b)) := by
  refine (ReadsIn.bind (Q := fun _ => True) proj hr fun a ha => ?_).congr
    (fun b => (List.append_nil _).symm) (fun b => (iff_of_eq (and_true _)).symm)
  refine ReadsIn.pure ?_
  intro b
  constructor
  · rintro ⟨-, rfl⟩
    exact (hproj b ha).symm
  · rintro rfl
    exact ⟨trivial, hf a ha⟩

/-! ## Big-endian integers -/

/-- The `w` low bytes of `n`, most significant first. -/
def writeBE : ℕ → ℕ → Bytes
  | 0, _ => []
  | w + 1, n => UInt8.ofNat (n >>> (8 * w)) :: writeBE w n

/-- The number with the given bytes, most significant first. -/
def ofBE (s : Bytes) : ℕ := s.foldl (fun v b => (v <<< 8) ||| b.toNat) 0

/-- Read `w` bytes as a number. -/
def readBE (eof : String) (w : ℕ) : Reader ℕ := fun s =>
  if s.length < w then .error eof else .ok (ofBE (s.take w), s.drop w)

@[simp] theorem writeBE_length (w n : ℕ) : (writeBE w n).length = w := by
  induction w with
  | zero => rfl
  | succ w ih => simp [writeBE, ih]

theorem shift_or (v : ℕ) (b : UInt8) : (v <<< 8) ||| b.toNat = v * 256 + b.toNat := by
  rw [← Nat.shiftLeft_add_eq_or_of_lt (show b.toNat < 2 ^ 8 from b.toNat_lt), Nat.shiftLeft_eq]

theorem foldl_be (s : Bytes) (v : ℕ) :
    s.foldl (fun v b => (v <<< 8) ||| b.toNat) v = v * 256 ^ s.length + ofBE s := by
  induction s generalizing v with
  | nil => simp [ofBE]
  | cons b s ih =>
    simp only [ofBE, List.foldl_cons, List.length_cons]
    rw [ih, ih (0 <<< 8 ||| b.toNat), shift_or, shift_or]
    ring

theorem ofBE_cons (b : UInt8) (s : Bytes) : ofBE (b :: s) = b.toNat * 256 ^ s.length + ofBE s := by
  rw [ofBE, List.foldl_cons, foldl_be, shift_or]
  simp

theorem ofBE_lt (s : Bytes) : ofBE s < 256 ^ s.length := by
  induction s with
  | nil => simp [ofBE]
  | cons b s ih =>
    rw [ofBE_cons, List.length_cons, pow_succ]
    have hb : b.toNat + 1 ≤ 256 := b.toNat_lt
    have := Nat.mul_le_mul_right (256 ^ s.length) hb
    linarith

theorem ofBE_eq_zero_iff (s : Bytes) : ofBE s = 0 ↔ ∀ b ∈ s, b = 0 := by
  induction s with
  | nil => simp [ofBE]
  | cons b s ih =>
    have hb : b.toNat = 0 ↔ b = 0 := by rw [← UInt8.toNat_inj]; rfl
    rw [ofBE_cons, Nat.add_eq_zero_iff, Nat.mul_eq_zero, ih, List.forall_mem_cons, hb]
    simp

theorem ofBE_writeBE (w n : ℕ) : ofBE (writeBE w n) = n % 256 ^ w := by
  induction w with
  | zero => simp [writeBE, ofBE, Nat.mod_one]
  | succ w ih =>
    rw [writeBE, ofBE_cons, writeBE_length, ih, Nat.shiftRight_eq_div_pow, pow_mul,
      UInt8.toNat_ofNat']
    show n / 256 ^ w % 256 * 256 ^ w + n % 256 ^ w = _
    rw [pow_succ, Nat.mod_mul]
    ring

/-- The written bytes only depend on the number modulo `256 ^ w`. -/
theorem writeBE_mod {w m n : ℕ} (h : m % 256 ^ w = n % 256 ^ w) : writeBE w m = writeBE w n := by
  induction w with
  | zero => rfl
  | succ w ih =>
    have hw : m % 256 ^ w = n % 256 ^ w := by
      have := congrArg (· % 256 ^ w) h
      simpa [pow_succ, Nat.mod_mul_right_mod] using this
    have hd : m / 256 ^ w % 256 = n / 256 ^ w % 256 := by
      rw [pow_succ, Nat.mod_mul, Nat.mod_mul, hw] at h
      exact Nat.eq_of_mul_eq_mul_left (Nat.pow_pos (by decide)) (Nat.add_left_cancel h)
    rw [writeBE, writeBE, ih hw, Nat.shiftRight_eq_div_pow, Nat.shiftRight_eq_div_pow, pow_mul]
    congr 1
    apply UInt8.toNat_inj.mp
    rw [UInt8.toNat_ofNat', UInt8.toNat_ofNat']
    exact hd

theorem writeBE_ofBE (s : Bytes) : writeBE s.length (ofBE s) = s := by
  induction s with
  | nil => rfl
  | cons b s ih =>
    have hlt := ofBE_lt s
    have hpos : 0 < 256 ^ s.length := Nat.pow_pos (by decide)
    rw [List.length_cons, writeBE, ofBE_cons, Nat.shiftRight_eq_div_pow, pow_mul]
    show UInt8.ofNat ((b.toNat * 256 ^ s.length + ofBE s) / 256 ^ s.length) :: _ = _
    rw [Nat.add_comm, Nat.add_mul_div_right _ _ hpos, Nat.div_eq_of_lt hlt, Nat.zero_add,
      UInt8.ofNat_toNat, writeBE_mod (n := ofBE s) (by simp), ih]

theorem ofBE_append (s t : Bytes) : ofBE (s ++ t) = ofBE s * 256 ^ t.length + ofBE t := by
  rw [ofBE, List.foldl_append, foldl_be]
  rfl

theorem ofBE_inj {s t : Bytes} (h : s.length = t.length) : ofBE s = ofBE t ↔ s = t := by
  constructor
  · intro hst
    rw [← writeBE_ofBE s, ← writeBE_ofBE t, h, hst]
  · rintro rfl
    rfl

/-- For strings of one length the lexicographic order is the order of the numbers. -/
theorem ofBE_lt_ofBE_iff {s t : Bytes} (h : s.length = t.length) : ofBE s < ofBE t ↔ s < t := by
  induction s generalizing t with
  | nil =>
    cases t with
    | nil => simp
    | cons b t => cases h
  | cons a s ih =>
    cases t with
    | nil => cases h
    | cons b t =>
      have hlen : s.length = t.length := Nat.succ.inj h
      have hs := ofBE_lt s
      have ht := ofBE_lt t
      rw [ofBE_cons, ofBE_cons, List.cons_lt_cons_iff, ← ih hlen, UInt8.lt_iff_toNat_lt, hlen]
      rw [hlen] at hs
      rcases lt_trichotomy a.toNat b.toNat with hab | hab | hab
      · -- the first bytes decide: the rest of `s` stays below one unit of the first byte
        have hunit : (a.toNat + 1) * 256 ^ t.length ≤ b.toNat * 256 ^ t.length :=
          Nat.mul_le_mul_right _ hab
        exact iff_of_true (by linarith) (.inl hab)
      · have heq : a = b := UInt8.toNat_inj.mp hab
        subst heq
        simp
      · have hunit : (b.toNat + 1) * 256 ^ t.length ≤ a.toNat * 256 ^ t.length :=
          Nat.mul_le_mul_right _ hab
        refine iff_of_false (by linarith) ?_
        rintro (hlt | ⟨heq, -⟩)
        · omega
        · rw [heq] at hab
          omega

theorem readBE_reads (eof : String) (w : ℕ) :
    Reads (readBE eof w) (writeBE w) (fun n => n < 256 ^ w) := by
  refine ⟨?_, ?_⟩
  · intro n rest _ hn
    have hlen : ¬ (writeBE w n ++ rest).length < w := by simp
    rw [readBE, if_neg hlen, List.take_left' (writeBE_length w n),
      List.drop_left' (writeBE_length w n), ofBE_writeBE, Nat.mod_eq_of_lt hn]
  · intro s n rest hs
    unfold readBE at hs
    split_ifs at hs with hlen
    cases hs
    have ht : (s.take w).length = w := by
      rw [List.length_take]
      omega
    have hw := writeBE_ofBE (s.take w)
    have hlt := ofBE_lt (s.take w)
    rw [ht] at hw hlt
    exact ⟨by rw [hw, List.take_append_drop], trivial, hlt⟩

/-! ## Length-prefixed strings -/

/-- A string behind its length as a four-byte number. -/
def writeSized (s : Bytes) : Bytes := writeBE 4 s.length ++ s

/-- Read a string behind its four-byte length, which is at most `limit`. -/
def readSized (eof err : String) (limit : ℕ) : Reader Bytes := do
  let size ← readBE eof 4
  fun s => if size > limit ∨ s.length < size then .error err else .ok (s.take size, s.drop size)

@[simp] theorem writeSized_length (s : Bytes) : (writeSized s).length = 4 + s.length := by
  simp [writeSized]

theorem readSized_reads (eof err : String) {limit : ℕ} (hlim : limit < 256 ^ 4) :
    Reads (readSized eof err limit) writeSized (fun s => s.length ≤ limit) := by
  refine (ReadsIn.bind (Q := fun s => s.length ≤ limit) List.length (readBE_reads eof 4)
    fun n _ => ⟨fun b rest hc hb => ?_, fun s b rest hs => ?_⟩).congr (fun _ => rfl)
    (fun s => ⟨fun h => ⟨lt_of_le_of_lt h hlim, h⟩, fun h => h.2⟩)
  · obtain ⟨-, rfl⟩ := hc
    have : ¬ (b.length > limit ∨ (b ++ rest).length < b.length) := by
      simp only [List.length_append]
      omega
    rw [if_neg this, List.take_left, List.drop_left]
  · split_ifs at hs with h
    cases hs
    rw [not_or] at h
    have ht : (s.take n).length = n := by
      rw [List.length_take]
      omega
    exact ⟨(List.take_append_drop n s).symm, ⟨trivial, ht⟩, by omega⟩

/-! ## Counted lists -/

/-- Read `n` items. -/
def readN (item : Reader α) : ℕ → Reader (List α)
  | 0 => pure []
  | n + 1 => do
    let a ← item
    let as ← readN item n
    pure (a :: as)

/-- A list behind its length as a four-byte number. -/
def writeCounted (e : α → Bytes) (l : List α) : Bytes := writeBE 4 l.length ++ l.flatMap e

/-- Read a list behind its four-byte length, which is at most `limit`. -/
def readCounted (eof err : String) (limit : ℕ) (item : Reader α) : Reader (List α) := do
  let count ← readBE eof 4
  if count > limit then throw err else readN item count

theorem readN_reads {item : Reader α} {e : α → Bytes} {P : α → Prop} (h : Reads item e P) :
    ∀ n, ReadsIn (readN item n) (fun l => l.flatMap e) (fun l => l.length = n)
      (fun l => ∀ a ∈ l, P a)
  | 0 => by
    refine ⟨?_, ?_⟩
    · intro l rest hl _
      rw [List.length_eq_zero_iff.mp hl]
      rfl
    · intro s l rest hs
      cases hs
      exact ⟨rfl, rfl, by simp⟩
  | n + 1 => by
    have ih := readN_reads h n
    refine ⟨?_, ?_⟩
    · intro l rest hl hP
      cases l with
      | nil => cases hl
      | cons a l =>
        rw [List.flatMap_cons, List.append_assoc, readN,
          bind_ok (h.complete a _ trivial (hP a (by simp))),
          bind_ok (ih.complete l rest (Nat.succ.inj hl) fun a' ha' => hP a' (by simp [ha']))]
        rfl
    · intro s l rest hs
      obtain ⟨a, u, h1, h2⟩ := bind_eq_ok.mp hs
      obtain ⟨as, v, h3, h4⟩ := bind_eq_ok.mp h2
      cases h4
      obtain ⟨hs1, -, hPa⟩ := h.sound _ _ _ h1
      obtain ⟨hs2, hlen, hPas⟩ := ih.sound _ _ _ h3
      refine ⟨by rw [hs1, hs2, List.flatMap_cons, List.append_assoc], by simp [hlen], ?_⟩
      intro a' ha'
      rcases List.mem_cons.mp ha' with rfl | ha'
      · exact hPa
      · exact hPas a' ha'

theorem readCounted_reads (eof err : String) {limit : ℕ} (hlim : limit < 256 ^ 4) {item : Reader α}
    {e : α → Bytes} {P : α → Prop} (h : Reads item e P) :
    Reads (readCounted eof err limit item) (writeCounted e)
      (fun l => l.length ≤ limit ∧ ∀ a ∈ l, P a) := by
  refine (ReadsIn.bind (Q := fun l => l.length ≤ limit ∧ ∀ a ∈ l, P a) List.length
    (readBE_reads eof 4) fun n _ => ⟨fun l rest hc hl => ?_, fun s l rest hs => ?_⟩).congr
    (fun _ => rfl) (fun l => ⟨fun hl => ⟨lt_of_le_of_lt hl.1 hlim, hl⟩, fun hl => hl.2⟩)
  · obtain ⟨-, rfl⟩ := hc
    rw [if_neg (by omega)]
    exact (readN_reads h _).complete l rest rfl hl.2
  · split_ifs at hs with hn
    · cases hs
    · obtain ⟨h1, h2, h3⟩ := (readN_reads h n).sound _ _ _ hs
      exact ⟨h1, ⟨trivial, h2⟩, by omega, h3⟩

theorem item_le_writeCounted {e : α → Bytes} {l : List α} {a : α} (h : a ∈ l) :
    (e a).length ≤ (writeCounted e l).length := by
  obtain ⟨l₁, l₂, rfl⟩ := List.append_of_mem h
  simp only [writeCounted, List.flatMap_append, List.flatMap_cons, List.length_append]
  omega

/-- A list of non-empty items is not longer than its encoding. -/
theorem count_le_writeCounted {e : α → Bytes} (he : ∀ a, 0 < (e a).length) (l : List α) :
    l.length ≤ (writeCounted e l).length := by
  rw [writeCounted, List.length_append]
  induction l with
  | nil => simp
  | cons a l ih =>
    have := he a
    simp only [List.length_cons, List.flatMap_cons, List.length_append, writeBE_length] at ih ⊢
    omega

/-! ## Whole inputs and nested encodings -/

/-- Read a value and fail with `err` unless the whole input is consumed. -/
def parseAll (err : String) (r : Reader α) (s : Bytes) : Except String α :=
  match r s with
  | .ok (a, []) => .ok a
  | .ok (_, _ :: _) => .error err
  | .error e => .error e

/-- Read a string with `r` and parse the string. -/
def readNested (r : Reader Bytes) (parse : Bytes → Except String α) : Reader α := do
  let s ← r
  match parse s with
  | .ok a => pure a
  | .error e => throw e

theorem parseAll_iff (err : String) {r : Reader α} {e : α → Bytes} {P : α → Prop}
    (h : Reads r e P) (s : Bytes) (a : α) : parseAll err r s = .ok a ↔ s = e a ∧ P a := by
  constructor
  · intro hs
    unfold parseAll at hs
    split at hs
    · cases hs
      obtain ⟨h1, -, h2⟩ := h.sound _ _ _ ‹_›
      exact ⟨by simpa using h1, h2⟩
    · cases hs
    · cases hs
  · rintro ⟨rfl, hP⟩
    have := h.complete a [] trivial hP
    rw [List.append_nil] at this
    rw [parseAll, this]

/-- A parser that inverts an encoding on a string fails on it exactly when it encodes no value. -/
theorem parse_error_iff {parse : Bytes → Except String α} {enc : α → Bytes} {Q : α → Prop}
    {s : Bytes} (hp : ∀ a, parse s = .ok a ↔ s = enc a ∧ Q a) :
    (∃ err, parse s = .error err) ↔ ¬ ∃ a, s = enc a ∧ Q a := by
  constructor
  · rintro ⟨err, herr⟩ ⟨a, ha⟩
    rw [(hp a).mpr ha] at herr
    cases herr
  · intro hnone
    cases h : parse s with
    | error err => exact ⟨err, rfl⟩
    | ok a => exact absurd ⟨a, (hp a).mp h⟩ hnone

/-- Such an encoding is a bijection between the values and the accepted strings. -/
theorem enc_bijOn {parse : Bytes → Except String α} {enc : α → Bytes} {Q : α → Prop}
    (hp : ∀ s a, parse s = .ok a ↔ s = enc a ∧ Q a) :
    Set.BijOn enc {a | Q a} {s | ∃ a, parse s = .ok a} := by
  refine ⟨?_, ?_, ?_⟩
  · intro a ha
    exact ⟨a, (hp _ a).mpr ⟨rfl, ha⟩⟩
  · intro a ha b hb hab
    have h1 := (hp (enc a) a).mpr ⟨rfl, ha⟩
    rw [(hp (enc a) b).mpr ⟨hab, hb⟩] at h1
    exact (Except.ok.inj h1).symm
  · rintro s ⟨a, ha⟩
    obtain ⟨rfl, hQ⟩ := (hp s a).mp ha
    exact ⟨a, hQ, rfl⟩

theorem readNested_reads {r : Reader Bytes} {e : Bytes → Bytes} {P : Bytes → Prop}
    {parse : Bytes → Except String α} {enc : α → Bytes} {Q : α → Prop} (hr : Reads r e P)
    (hp : ∀ s a, parse s = .ok a ↔ s = enc a ∧ Q a) :
    Reads (readNested r parse) (fun a => e (enc a)) (fun a => P (enc a) ∧ Q a) := by
  have hk : ∀ s, P s → ReadsIn (match parse s with | .ok a => pure a | .error err => throw err)
      (fun _ => []) (fun a => True ∧ enc a = s) Q := by
    intro s _
    refine ⟨?_, ?_⟩
    · intro a rest hc ha
      rw [(hp s a).mpr ⟨hc.2.symm, ha⟩]
      rfl
    · intro u a rest hu
      cases hps : parse s with
      | error err =>
        rw [hps] at hu
        cases hu
      | ok a' =>
        rw [hps] at hu
        cases hu
        obtain ⟨h1, h2⟩ := (hp s a).mp hps
        exact ⟨rfl, ⟨trivial, h1.symm⟩, h2⟩
  exact (ReadsIn.bind enc hr hk).congr (fun _ => by simp) (fun _ => Iff.rfl)

/-! ## Errors -/

/-- Every error text of the reader is one of `E`. -/
def Throws (r : Reader α) (E : String → Prop) : Prop := ∀ s e, r s = .error e → E e

section Throws

variable {E : String → Prop}

theorem Throws.pure (a : α) : Throws (pure a) E := fun _ _ h => nomatch h

theorem Throws.bind {r : Reader α} {k : α → Reader β} (hr : Throws r E) (hk : ∀ a, Throws (k a) E) :
    Throws (r >>= k) E := by
  intro s e h
  cases hs : r s with
  | error e' =>
    have hbind : (r >>= k) s = .error e' := by
      show (r s >>= fun p => k p.1 p.2) = _
      rw [hs]
      rfl
    rw [hbind] at h
    cases h
    exact hr s e hs
  | ok p =>
    rw [bind_ok hs] at h
    exact hk _ _ e h

theorem throws_readBE {eof : String} (h : E eof) (w : ℕ) : Throws (readBE eof w) E := by
  intro s e hs
  unfold readBE at hs
  split_ifs at hs
  cases hs
  exact h

theorem throws_readSized {eof err : String} (heof : E eof) (herr : E err) (limit : ℕ) :
    Throws (readSized eof err limit) E := by
  refine Throws.bind (throws_readBE heof 4) fun size s e hs => ?_
  split_ifs at hs
  cases hs
  exact herr

theorem throws_readN {item : Reader α} (h : Throws item E) (n : ℕ) : Throws (readN item n) E := by
  induction n with
  | zero => exact Throws.pure []
  | succ n ih => exact h.bind fun a => ih.bind fun as => Throws.pure (a :: as)

theorem throws_readCounted {eof err : String} {item : Reader α} (heof : E eof) (herr : E err)
    (h : Throws item E) (limit : ℕ) : Throws (readCounted eof err limit item) E := by
  refine Throws.bind (throws_readBE heof 4) fun count => ?_
  split_ifs
  · intro s e hs
    cases hs
    exact herr
  · exact throws_readN h count

theorem throws_parseAll {err : String} {r : Reader α} (herr : E err) (h : Throws r E) {s : Bytes}
    {e : String} (hs : parseAll err r s = .error e) : E e := by
  unfold parseAll at hs
  split at hs
  · cases hs
  · cases hs
    exact herr
  · rename_i e' hr
    cases hs
    exact h s e hr

end Throws

end Codec
