import Mermai.Rpc.Numeral

/-!
# Rpc.Answer — what the RPC server writes

The functions of the server return texts of three kinds: `{"result":…}` around a number, a truth value, a
string, a record of such or a list of records, `json_error`, or a text that is no JSON.  `handle_request`
puts the version and the id into the first two (`wrap`).  The wrapped text is a JSON object exactly when the
id is JSON text, the numbers are numbers and the strings can be quoted (`parse_response`): `json_string`
writes five of the control characters as escapes and copies the others, and no byte is checked for UTF-8.
-/

namespace Mermai.Rpc

open Merlite (ascii)
open scoped Utf8

/-! ## Strings -/

/-- What `json_string` makes a JSON string of. -/
def Quotable (s : Bytes) : Prop := Utf8.Valid s ∧ ∀ c ∈ s, 32 ≤ c ∨ c ∈ ([8, 9, 10, 12, 13] : Bytes)

instance (s : Bytes) : Decidable (Quotable s) := inferInstanceAs (Decidable (_ ∧ _))

/-- One byte of a quoted string: a piece, or the end of all JSON. -/
theorem pieces_escape (c : UInt8) (t : Bytes) :
    Json.pieces (escape c ++ t) =
      if 32 ≤ c ∨ c ∈ ([8, 9, 10, 12, 13] : Bytes) then Json.before (some (.byte c)) (Json.pieces t)
      else none := by
  by_cases hspecial : c ∈ ([34, 92, 8, 9, 10, 12, 13] : Bytes)
  · simp only [List.mem_cons, List.not_mem_nil, or_false] at hspecial
    rcases hspecial with rfl | rfl | rfl | rfl | rfl | rfl | rfl <;>
      exact Json.pieces_letter (by decide) t
  · simp only [List.mem_cons, List.not_mem_nil, or_false, not_or] at hspecial
    obtain ⟨hquote, hescape, h8, h9, h10, h12, h13⟩ := hspecial
    have hcopy : escape c = [c] := by
      rw [escape, if_neg hquote, if_neg hescape, if_neg h8, if_neg h12, if_neg h10, if_neg h13, if_neg h9]
    have hmem : c ∉ ([8, 9, 10, 12, 13] : Bytes) := by simp [h8, h9, h10, h12, h13]
    rw [hcopy, List.singleton_append, Json.pieces_byte hquote hescape]
    by_cases hc : c < 32
    · rw [if_pos hc, if_neg (not_or.mpr ⟨UInt8.not_le.mpr hc, hmem⟩)]
    · rw [if_neg hc, if_pos (Or.inl (UInt8.not_lt.mp hc))]

theorem pieces_flatMap_escape (s t : Bytes) :
    Json.pieces (s.flatMap escape ++ 34 :: t) =
      (if ∀ c ∈ s, 32 ≤ c ∨ c ∈ ([8, 9, 10, 12, 13] : Bytes) then some (s.map .byte) else none).map
        fun ps => (ps, t) := by
  induction s with
  | nil => exact Json.pieces_quote t
  | cons c s ih =>
    rw [List.flatMap_cons, List.append_assoc, pieces_escape, ih]
    simp only [List.forall_mem_cons]
    by_cases hc : 32 ≤ c ∨ c ∈ ([8, 9, 10, 12, 13] : Bytes)
    · rw [if_pos hc]
      by_cases hs : ∀ d ∈ s, 32 ≤ d ∨ d ∈ ([8, 9, 10, 12, 13] : Bytes)
      · rw [if_pos hs, if_pos ⟨hc, hs⟩]
        rfl
      · rw [if_neg hs, if_neg fun h => hs h.2]
        rfl
    · rw [if_neg hc, if_neg fun h => hc h.1]
      rfl

theorem denotes_jsonString (s : Bytes) :
    Json.Denotes Json.Stops Json.value (jsonString s)
      (if ∀ c ∈ s, 32 ≤ c ∨ c ∈ ([8, 9, 10, 12, 13] : Bytes) then some (.str s) else none) := by
  have h := Json.denotes_string (T := Json.Stops) fun t _ => pieces_flatMap_escape s t
  split_ifs at h ⊢
  · rw [Option.map_some, Json.text_bytes] at h
    exact h
  · exact h

theorem denotes_quotable {s : Bytes} (h : Quotable s) :
    Json.Denotes Json.Stops Json.value (jsonString s) (some (.str s)) := by
  have hstring := denotes_jsonString s
  rw [if_pos h.2] at hstring
  exact hstring

/-- The escapes are ASCII, so they change nothing about what is owed. -/
theorem foldl_step_escape (owed : Option (List (UInt8 × UInt8))) (c : UInt8) :
    (escape c).foldl Utf8.step owed = Utf8.step owed c := by
  unfold escape
  split_ifs with h34 h92 h8 h12 h10 h13 h9
  case neg => rfl
  all_goals
    subst c
    simp (disch := decide) only [List.foldl_cons, List.foldl_nil, Utf8.step_ascii]
    by_cases howed : owed = some [] <;> simp [howed]

theorem valid_flatMap_escape (s : Bytes) : Utf8.Valid (s.flatMap escape) ↔ Utf8.Valid s := by
  have h : ∀ owed, (s.flatMap escape).foldl Utf8.step owed = s.foldl Utf8.step owed := by
    induction s with
    | nil => exact fun _ => rfl
    | cons c s ih =>
      intro owed
      rw [List.flatMap_cons, List.foldl_append, foldl_step_escape, ih, List.foldl_cons]
  rw [Utf8.Valid, h, Utf8.Valid]

theorem valid_jsonString (s : Bytes) : Utf8.Valid (jsonString s) ↔ Utf8.Valid s := by
  rw [jsonString, Utf8.valid_append_ascii (by decide), Utf8.valid_cons_ascii (by decide),
    valid_flatMap_escape, and_iff_left Utf8.valid_nil]

/-! ## Answers -/

/-- A number, a truth value or a string. -/
inductive Leaf
  | number (x : Numeral)
  | bool (b : Bool)
  | text (s : Bytes)

def Leaf.print : Leaf → Bytes
  | number x => x.text
  | bool b => ascii (if b then "true" else "false")
  | text s => jsonString s

/-- The bytes of the names. -/
def isNameByte (c : UInt8) : Bool := (97 ≤ c ∧ c ≤ 122) ∨ (65 ≤ c ∧ c ≤ 90) ∨ c = 95

/-- A name and its value; the names are fixed texts of the server. -/
structure Field where
  name : String
  value : Leaf
  plain : (ascii name).all isNameByte = true := by rfl

def Field.print (f : Field) : Bytes := quoted (ascii f.name) ++ 58 :: f.value.print

abbrev Record := List Field

def Record.print (r : Record) : Bytes := 123 :: Json.commas (r.map Field.print) ++ [125]

inductive Reply
  | leaf (l : Leaf)
  | record (r : Record)
  | list (l : List Record)

def Reply.print : Reply → Bytes
  | leaf l => l.print
  | record r => r.print
  | list l => 91 :: Json.commas (l.map Record.print) ++ [93]

/-- What a function of the server returns. -/
inductive Answer
  | result (r : Reply)
  | error (code : ℤ) (message : Bytes)

def Answer.print : Answer → Bytes
  | result r => ascii "\x7b\"result\":" ++ r.print ++ ascii "\x7d"
  | error code message => jsonError code message

/-- The end of `handle_request`: the version and the id around an error or a result. -/
def wrap (id response : Bytes) : Bytes :=
  if (ascii "\x7b\"error\"").isPrefixOf response ∨ (ascii "\x7b\"result\"").isPrefixOf response then
    ascii "\x7b\"jsonrpc\":\"2.0\"," ++ (response.drop 1).take (response.length - 2) ++ ascii ",\"id\":" ++
      id ++ ascii "\x7d"
  else response

/-! ## The JSON value of an answer -/

theorem plain_of_isNameByte {c : UInt8} (h : isNameByte c = true) : Json.Plain c ∧ c < 0x80 := by
  have hrange : 65 ≤ c.toNat ∧ c.toNat ≤ 122 ∧ c.toNat ≠ 92 := by
    have h' := of_decide_eq_true h
    simp only [UInt8.le_iff_toNat_le, ← UInt8.toNat_inj, UInt8.reduceToNat] at h'
    omega
  refine ⟨⟨?_, ?_, ?_⟩, ?_⟩
  · rintro rfl
    exact absurd hrange.1 (by decide)
  · rintro rfl
    exact hrange.2.2 rfl
  · exact fun hlt => absurd (UInt8.lt_iff_toNat_lt.mp hlt) (Nat.not_lt.mpr (le_trans (by decide) hrange.1))
  · exact UInt8.lt_iff_toNat_lt.mpr (lt_of_le_of_lt hrange.2.1 (by decide))

theorem Field.plain_name (f : Field) : ∀ c ∈ ascii f.name, Json.Plain c ∧ c < 0x80 :=
  fun c hc => plain_of_isNameByte (List.all_eq_true.mp f.plain c hc)

/-- The value of a leaf, if its text is one. -/
def Leaf.value : Leaf → Option Json.Value
  | number x => (Json.number x.text).map .num
  | bool b => some (.bool b)
  | text s => if ∀ c ∈ s, 32 ≤ c ∨ c ∈ ([8, 9, 10, 12, 13] : Bytes) then some (.str s) else none

theorem Leaf.denotes (l : Leaf) : Json.Denotes Json.Stops Json.value l.print l.value := by
  cases l with
  | number x => exact x.denotes
  | bool b =>
    cases b with
    | true => exact Json.denotes_true
    | false => exact Json.denotes_false
  | text s => exact denotes_jsonString s

def Field.member (f : Field) : Option (Bytes × Json.Value) := f.value.value.map fun v => (ascii f.name, v)

theorem Field.denotes (f : Field) :
    Json.Denotes Json.Stops (fun n => Json.member (Json.value n)) f.print f.member := by
  have htext : f.print = 34 :: ascii f.name ++ 34 :: 58 :: f.value.print := by
    rw [Field.print, quoted, List.append_assoc, List.singleton_append]
  rw [htext]
  exact Json.denotes_member (fun c hc => (f.plain_name c hc).1) f.value.denotes

def Record.value (r : Record) : Option Json.Value := (Json.values (r.map Field.member)).map .obj

theorem Record.denotes (r : Record) : Json.Denotes Json.Stops Json.value r.print r.value := by
  refine Json.denotes_object ?_ ?_
  · intro w hw
    obtain ⟨f, -, rfl⟩ := List.mem_map.mp hw
    exact ⟨34, _, rfl, by decide, rfl⟩
  · rw [List.forall₂_map_left_iff, List.forall₂_map_right_iff, List.forall₂_same]
    exact fun f _ => f.denotes

def Reply.value : Reply → Option Json.Value
  | leaf l => l.value
  | record r => r.value
  | list l => (Json.values (l.map Record.value)).map .arr

theorem Reply.denotes (r : Reply) : Json.Denotes Json.Stops Json.value r.print r.value := by
  cases r with
  | leaf l => exact l.denotes
  | record r => exact r.denotes
  | list l =>
    refine Json.denotes_array ?_ ?_
    · intro w hw
      obtain ⟨r, -, rfl⟩ := List.mem_map.mp hw
      exact ⟨123, _, rfl, by decide, rfl⟩
    · rw [List.forall₂_map_left_iff, List.forall₂_map_right_iff, List.forall₂_same]
      exact fun r _ => r.denotes

/-! ## Answers that are JSON -/

/-- A leaf that is written as JSON. -/
def Leaf.Sound : Leaf → Prop
  | number x => (Json.number x.text).isSome = true
  | bool _ => True
  | text s => Quotable s

theorem Leaf.sound_iff (l : Leaf) : l.value.isSome = true ∧ Utf8.Valid l.print ↔ l.Sound := by
  cases l with
  | number x =>
    rw [Leaf.value, Option.isSome_map]
    exact and_iff_left x.valid
  | bool b =>
    have hvalid : Utf8.Valid (Leaf.print (.bool b)) := by
      cases b <;> decide
    exact iff_of_true ⟨rfl, hvalid⟩ trivial
  | text s =>
    rw [Leaf.print, valid_jsonString, Leaf.Sound, Quotable, Leaf.value, and_comm]
    split_ifs with hs
    · exact and_congr_right fun _ => iff_of_true rfl hs
    · exact and_congr_right fun _ => iff_of_false Bool.false_ne_true hs

theorem valid_quoted {key : Bytes} (h : ∀ c ∈ key, c < 0x80) : Utf8.Valid (quoted key) := by
  refine Utf8.valid_of_ascii fun c hc => ?_
  rw [quoted, List.cons_append, List.mem_cons, List.mem_append, List.mem_singleton] at hc
  rcases hc with rfl | hc | rfl
  · decide
  · exact h c hc
  · decide

theorem Field.sound_iff (f : Field) :
    f.member.isSome = true ∧ Utf8.Valid f.print ↔ f.value.Sound := by
  rw [Field.member, Option.isSome_map, Field.print, Utf8.valid_append_ascii (by decide),
    and_iff_right (valid_quoted fun c hc => (f.plain_name c hc).2), Leaf.sound_iff]

def Record.Sound (r : Record) : Prop := ∀ f ∈ r, f.value.Sound

theorem forall_and_of_sound {α : Type} {P Q R : α → Prop} (h : ∀ a, P a ∧ Q a ↔ R a) (l : List α) :
    (∀ a ∈ l, P a) ∧ (∀ a ∈ l, Q a) ↔ ∀ a ∈ l, R a := by
  constructor
  · exact fun hboth a ha => (h a).mp ⟨hboth.1 a ha, hboth.2 a ha⟩
  · exact fun hall => ⟨fun a ha => ((h a).mpr (hall a ha)).1, fun a ha => ((h a).mpr (hall a ha)).2⟩

theorem Record.sound_iff (r : Record) : r.value.isSome = true ∧ Utf8.Valid r.print ↔ r.Sound := by
  have hvalue : r.value.isSome = true ↔ ∀ f ∈ r, f.member.isSome = true := by
    rw [Record.value, Option.isSome_map, Json.isSome_values]
    exact List.forall_mem_map
  have hvalid : Utf8.Valid r.print ↔ ∀ f ∈ r, Utf8.Valid f.print := by
    rw [Record.print, Json.valid_between (by decide) (by decide)]
    exact List.forall_mem_map
  rw [hvalue, hvalid]
  exact forall_and_of_sound Field.sound_iff r

def Reply.Sound : Reply → Prop
  | leaf l => l.Sound
  | record r => r.Sound
  | list l => ∀ r ∈ l, Record.Sound r

/-- A reply is a JSON value and UTF-8 exactly when all it is made of is. -/
theorem Reply.sound_iff (r : Reply) : r.value.isSome = true ∧ Utf8.Valid r.print ↔ r.Sound := by
  cases r with
  | leaf l => exact l.sound_iff
  | record r => exact r.sound_iff
  | list l =>
    have hvalue : (Reply.list l).value.isSome = true ↔ ∀ r ∈ l, (Record.value r).isSome = true := by
      rw [Reply.value, Option.isSome_map, Json.isSome_values]
      exact List.forall_mem_map
    have hvalid : Utf8.Valid (Reply.list l).print ↔ ∀ r ∈ l, Utf8.Valid (Record.print r) := by
      rw [Reply.print, Json.valid_between (by decide) (by decide)]
      exact List.forall_mem_map
    rw [hvalue, hvalid]
    exact forall_and_of_sound Record.sound_iff l

/-! ## The wrapped text -/

/-- The name of the member that is wrapped. -/
def Answer.name : Answer → String
  | result _ => "result"
  | error _ _ => "error"

/-- Its value. -/
def Answer.content : Answer → Reply
  | result r => r
  | error code message => .record [⟨"code", .number (.ofInt code), rfl⟩, ⟨"message", .text message, rfl⟩]

theorem Answer.name_cases (a : Answer) : a.name = "error" ∨ a.name = "result" := by
  cases a with
  | result r => exact .inr rfl
  | error code message => exact .inl rfl

theorem Answer.print_eq (a : Answer) :
    a.print = 123 :: (quoted (ascii a.name) ++ 58 :: a.content.print) ++ [125] := by
  cases a with
  | result r =>
    rw [Answer.print, Answer.name, Answer.content]
    rfl
  | error code message =>
    simp only [Answer.print, Answer.name, jsonError, Answer.content, Reply.print, Record.print, List.map_cons,
      List.map_nil, Json.commas, Field.print, Leaf.print, List.append_assoc, List.cons_append]
    rfl

/-- The texts of the members of a response. -/
def responseMembers (key id text : Bytes) : List Bytes :=
  [ascii "\"jsonrpc\":\"2.0\"", quoted key ++ 58 :: text, ascii "\"id\":" ++ id]

theorem wrap_eq {key : String} (hkey : key = "error" ∨ key = "result") (id text : Bytes) :
    wrap id (123 :: (quoted (ascii key) ++ 58 :: text) ++ [125]) =
      123 :: Json.commas (responseMembers (ascii key) id text) ++ [125] := by
  have hstart : (ascii "\x7b\"error\"").isPrefixOf (123 :: (quoted (ascii key) ++ 58 :: text) ++ [125]) ∨
      (ascii "\x7b\"result\"").isPrefixOf (123 :: (quoted (ascii key) ++ 58 :: text) ++ [125]) := by
    rcases hkey with rfl | rfl
    · exact .inl rfl
    · exact .inr rfl
  have hmiddle : ∀ s : Bytes, ((123 :: s ++ [125]).drop 1).take ((123 :: s ++ [125]).length - 2) = s := by
    intro s
    have hlen : (123 :: s ++ [125]).length - 2 = s.length := by simp
    rw [hlen, List.cons_append, List.drop_succ_cons, List.drop_zero, List.take_left]
  rw [wrap, if_pos hstart, hmiddle]
  simp only [responseMembers, Json.commas, List.append_assoc, List.cons_append]
  rfl

section Response

variable {key id text : Bytes}

theorem valid_response (hkey : ∀ c ∈ key, c < 0x80) :
    Utf8.Valid (123 :: Json.commas (responseMembers key id text) ++ [125]) ↔
      Utf8.Valid text ∧ Utf8.Valid id := by
  have hversion : Utf8.Valid (ascii "\"jsonrpc\":\"2.0\"") := by decide
  have hident : Utf8.Valid (ascii "\"id\":" ++ id) ↔ Utf8.Valid id := Utf8.valid_ascii_append (by decide)
  rw [Json.valid_between (by decide) (by decide), responseMembers, List.forall_mem_cons,
    List.forall_mem_cons, List.forall_mem_singleton, Utf8.valid_append_ascii (by decide), hident,
    and_iff_right hversion, and_iff_right (valid_quoted hkey)]

/-- The object of a response. -/
def response (key : Bytes) (r i : Option Json.Value) : Option Json.Value :=
  r.bind fun v => i.map fun u => .obj [(ascii "jsonrpc", .str (ascii "2.0")), (key, v), (ascii "id", u)]

/-- What follows the id is known, and the id may need it: its text is the request's. -/
theorem value_response {T : Bytes → Prop} {r i : Option Json.Value} (hkey : ∀ c ∈ key, Json.Plain c)
    (hT : T [125]) (htext : Json.Denotes Json.Stops Json.value text r)
    (hid : Json.Denotes T Json.value id i) {n : ℕ}
    (hn : (Json.commas (responseMembers key id text)).length < n) :
    Json.value (n + 1) (123 :: Json.commas (responseMembers key id text) ++ [125]) =
      (response key r i).map fun v => (v, []) := by
  have htwo : Json.Denotes Json.Stops Json.value (ascii "\"2.0\"") (some (.str (ascii "2.0"))) := by
    have hquotable : Quotable (ascii "2.0") := by decide
    exact denotes_quotable hquotable
  have hversion : Json.Denotes Json.Stops (fun n => Json.member (Json.value n)) (ascii "\"jsonrpc\":\"2.0\"")
      (some (ascii "jsonrpc", .str (ascii "2.0"))) := by
    have hplain : ∀ c ∈ ascii "jsonrpc", Json.Plain c := by decide
    exact Json.denotes_member hplain htwo
  have hanswer : Json.Denotes Json.Stops (fun n => Json.member (Json.value n)) (quoted key ++ 58 :: text)
      (r.map fun v => (key, v)) := by
    rw [quoted, List.append_assoc, List.singleton_append]
    exact Json.denotes_member hkey htext
  have hident : Json.Denotes T (fun n => Json.member (Json.value n)) (ascii "\"id\":" ++ id)
      (i.map fun u => (ascii "id", u)) := by
    have hplain : ∀ c ∈ ascii "id", Json.Plain c := by decide
    exact Json.denotes_member hplain hid
  have hlen : ∀ w ∈ responseMembers key id text, w.length < n := fun w hw =>
    lt_of_le_of_lt (Json.length_le_commas hw) hn
  simp only [responseMembers, List.forall_mem_cons] at hlen
  obtain ⟨h1, h2, h3, -⟩ := hlen
  have hobject : Json.value (n + 1) (123 :: Json.commas (responseMembers key id text) ++ [125]) =
      (Json.sepBy (Json.member (Json.value n)) 125 n
        (Json.commas (responseMembers key id text) ++ [125])).map fun p => (.obj p.1, p.2) := rfl
  have hcommas : Json.commas (responseMembers key id text) ++ [125] = ascii "\"jsonrpc\":\"2.0\"" ++
      44 :: (quoted key ++ 58 :: text ++ 44 :: (ascii "\"id\":" ++ id ++ [125])) := by
    simp only [responseMembers, Json.commas, List.append_assoc, List.cons_append]
  have hfuel : (ascii "\"jsonrpc\":\"2.0\"").length = 15 := rfl
  obtain ⟨n, rfl⟩ : ∃ m, n = m + 3 := ⟨n - 3, by omega⟩
  rw [hobject, hcommas, Json.sepBy_comma (by decide) (hversion _ _ h1 (Json.stops_comma _)),
    Json.sepBy_comma (by decide) (hanswer _ _ h2 (Json.stops_comma _)),
    Json.sepBy_close rfl (hident _ _ h3 hT)]
  cases r with
  | none => rfl
  | some v => cases i <;> rfl

/-- **The response**: a JSON object of the version, the answer and the id exactly when the answer and the id
are UTF-8 texts of JSON values. -/
theorem parse_response {T : Bytes → Prop} {r i : Option Json.Value}
    (hkey : ∀ c ∈ key, Json.Plain c ∧ c < 0x80) (hT : T [125])
    (htext : Json.Denotes Json.Stops Json.value text r) (hid : Json.Denotes T Json.value id i) :
    Json.parse (123 :: Json.commas (responseMembers key id text) ++ [125]) =
      if Utf8.Valid text ∧ Utf8.Valid id then response key r i else none := by
  have hlen : (Json.commas (responseMembers key id text)).length <
      (123 :: Json.commas (responseMembers key id text) ++ [125]).length := by
    rw [List.length_append, List.length_cons]
    omega
  rw [Json.parse, value_response (fun c hc => (hkey c hc).1) hT htext hid hlen]
  simp only [valid_response fun c hc => (hkey c hc).2]
  cases response key r i <;> rfl

end Response

end Mermai.Rpc
