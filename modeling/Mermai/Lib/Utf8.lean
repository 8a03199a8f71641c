import Mathlib.Tactic.Common

/-!
# Lib.Utf8 — byte strings that are UTF-8

`Valid s` says that a byte string is a sequence of encoded characters: a first byte owes some bytes, each in
its own range, and nothing is owed at the end.  A byte of ASCII stands for itself, so a text cut at such a
byte is valid exactly when its two parts are (`valid_append_ascii`).
-/

namespace Utf8

/-- The range of the bytes behind a first byte. -/
abbrev tail : UInt8 × UInt8 := (0x80, 0xBF)

/-- The ranges of the bytes that a first byte owes. -/
def owes (b : UInt8) : Option (List (UInt8 × UInt8)) :=
  if b < 0x80 then some []
  else if b < 0xC2 then none
  else if b < 0xE0 then some [tail]
  else if b = 0xE0 then some [(0xA0, 0xBF), tail]
  -- no surrogates
  else if b = 0xED then some [(0x80, 0x9F), tail]
  else if b < 0xF0 then some [tail, tail]
  else if b = 0xF0 then some [(0x90, 0xBF), tail, tail]
  else if b < 0xF4 then some [tail, tail, tail]
  else if b = 0xF4 then some [(0x80, 0x8F), tail, tail]
  else none

/-- One byte, with what is owed before it; `none` where it cannot stand. -/
def step : Option (List (UInt8 × UInt8)) → UInt8 → Option (List (UInt8 × UInt8))
  | none, _ => none
  | some [], b => owes b
  | some (range :: rest), b => if 0x80 ≤ b ∧ range.1 ≤ b ∧ b ≤ range.2 then some rest else none

/-- The bytes are encoded characters. -/
def Valid (s : List UInt8) : Prop := s.foldl step (some []) = some []

instance (s : List UInt8) : Decidable (Valid s) := inferInstanceAs (Decidable (_ = _))

/-- A fact about the bytes of a text is decided along the text, not for all 256 bytes. -/
scoped instance (priority := high) decidableBytes (p : UInt8 → Prop) [DecidablePred p] (s : List UInt8) :
    Decidable (∀ b ∈ s, p b) := List.decidableBAll p s

variable {s t : List UInt8}

theorem valid_nil : Valid [] := rfl

theorem foldl_none (s : List UInt8) : s.foldl step none = none := by
  induction s with
  | nil => rfl
  | cons b s ih => exact ih

/-- A byte of ASCII stands only where nothing is owed. -/
theorem step_ascii {c : UInt8} (hc : c < 0x80) (owed : Option (List (UInt8 × UInt8))) :
    step owed c = if owed = some [] then some [] else none := by
  match owed with
  | none => rfl
  | some [] => exact if_pos hc
  | some (range :: rest) =>
    rw [if_neg (by simp)]
    exact if_neg fun h => absurd h.1 (UInt8.not_le.mpr hc)

/-- **Cuts at ASCII**: a text is valid exactly when it is up to such a byte and behind it. -/
theorem valid_append_ascii {c : UInt8} (hc : c < 0x80) :
    Valid (s ++ c :: t) ↔ Valid s ∧ Valid t := by
  unfold Valid
  rw [List.foldl_append, List.foldl_cons, step_ascii hc]
  split_ifs with h
  · exact (and_iff_right h).symm
  · rw [foldl_none]
    exact iff_of_false (fun hnone => by cases hnone) fun hboth => h hboth.1

theorem valid_cons_ascii {c : UInt8} (hc : c < 0x80) : Valid (c :: t) ↔ Valid t := by
  rw [← List.nil_append (c :: t), valid_append_ascii hc, and_iff_right valid_nil]

/-- In front of a text of ASCII nothing changes. -/
theorem valid_ascii_append (hs : ∀ b ∈ s, b < 0x80) : Valid (s ++ t) ↔ Valid t := by
  induction s with
  | nil => rfl
  | cons b s ih =>
    rw [List.cons_append, valid_cons_ascii (hs b List.mem_cons_self)]
    exact ih fun c hc => hs c (List.mem_cons_of_mem _ hc)

theorem valid_of_ascii (hs : ∀ b ∈ s, b < 0x80) : Valid s := by
  rw [← List.append_nil s, valid_ascii_append hs]
  exact valid_nil

end Utf8
