import Mermai.Rpc.Server
import Mermai.Vm.Gas

/-!
# Rpc.Correlation — responses are JSON and carry the id of the request

`handle_request` finds the id in the bytes of the request: the first colon behind the first `"id"`, and behind
it a quoted text or a run of digits, minus and dot (`IdText`).  It is written back as it is found.  The rest
of the response is printed from the answer of the method, so a response is JSON with the id of the request
exactly when that text is JSON for the id and the answer can be printed as JSON (`responds_iff`).

`null` is no run of such bytes, and a response to an id that is `null` ends in `"id":}` (`null_unanswered`).
-/

namespace Mermai.Rpc

open Merlite (ascii)
open scoped Utf8

/-! ## Where the id is read -/

/-- What stands behind the first colon behind the first occurrence of the key in its quotes. -/
def Behind (body key rest : Bytes) : Prop :=
  ∃ front gap, body = front ++ quoted key ++ (gap ++ 58 :: rest) ∧ 58 ∉ gap ∧
    ∀ front' back', body = front' ++ quoted key ++ back' → front.length ≤ front'.length

theorem findBehind_eq_some {needle body back : Bytes} (hne : needle ≠ []) :
    findBehind needle body = some back ↔ ∃ front, body = front ++ needle ++ back ∧
      ∀ front' back', body = front' ++ needle ++ back' → front.length ≤ front'.length := by
  induction body with
  | nil =>
    rw [findBehind, if_neg hne]
    refine iff_of_false (fun h => nomatch h) ?_
    rintro ⟨front, hbody, -⟩
    exact hne (List.append_eq_nil_iff.mp (List.append_eq_nil_iff.mp hbody.symm).1).2
  | cons b body ih =>
    rw [findBehind]
    split_ifs with hpre
    · obtain ⟨back', hback'⟩ := List.isPrefixOf_iff_prefix.mp hpre
      have hdrop : (b :: body).drop needle.length = back' := by
        rw [← hback', List.drop_left]
      rw [hdrop]
      constructor
      · rintro ⟨rfl⟩
        exact ⟨[], hback'.symm, fun _ _ _ => Nat.zero_le _⟩
      · rintro ⟨front, hbody, hfirst⟩
        have hnil := List.length_eq_zero_iff.mp (Nat.le_zero.mp (hfirst [] back' hback'.symm))
        rw [hnil, List.nil_append, ← hback'] at hbody
        rw [List.append_cancel_left hbody]
    · have hnot : ∀ t, b :: body ≠ needle ++ t := fun t ht =>
        hpre (List.isPrefixOf_iff_prefix.mpr ⟨t, ht.symm⟩)
      rw [ih]
      constructor
      · rintro ⟨front, rfl, hfirst⟩
        refine ⟨b :: front, rfl, fun front' back' h => ?_⟩
        cases front' with
        | nil => exact absurd h (hnot back')
        | cons c front' => exact Nat.succ_le_succ (hfirst front' back' (List.cons.inj h).2)
      · rintro ⟨front, hbody, hfirst⟩
        cases front with
        | nil => exact absurd hbody (hnot back)
        | cons c front =>
          refine ⟨front, (List.cons.inj hbody).2, fun front' back' h => ?_⟩
          exact Nat.le_of_succ_le_succ (hfirst (b :: front') back' (congrArg (b :: ·) h))

theorem behindKey_eq_some {body key rest : Bytes} :
    behindKey body key = some rest ↔ Behind body key rest := by
  have hne : quoted key ≠ [] := List.cons_ne_nil _ _
  unfold behindKey
  constructor
  · intro h
    obtain ⟨back, hback, h⟩ := Option.bind_eq_some_iff.mp h
    obtain ⟨⟨gap, rest'⟩, hcut, h⟩ := Option.bind_eq_some_iff.mp h
    cases h
    obtain ⟨front, hbody, hfirst⟩ := (findBehind_eq_some hne).mp hback
    obtain ⟨rfl, hgap⟩ := Delimited.cut_eq_some.mp hcut
    exact ⟨front, gap, hbody, hgap, hfirst⟩
  · rintro ⟨front, gap, hbody, hgap, hfirst⟩
    refine Option.bind_eq_some_iff.mpr ⟨_, (findBehind_eq_some hne).mpr ⟨front, hbody, hfirst⟩, ?_⟩
    exact Option.bind_eq_some_iff.mpr ⟨_, Delimited.cut_append hgap rest, rfl⟩

/-- The text that `request_id` takes for the id: a quoted text up to the next quote, or a text of digits,
minus and dot; `null` where there is no key, no colon, nothing but blanks behind it or no second quote. -/
inductive IdText (request : Bytes) : Bytes → Prop
  | string {blanks text back : Bytes} :
      Behind request (ascii "id") (blanks ++ 34 :: (text ++ 34 :: back)) →
      (∀ b ∈ blanks, isBlank b = true) → 34 ∉ text → IdText request (quoted text)
  | digits {blanks text back : Bytes} :
      Behind request (ascii "id") (blanks ++ (text ++ back)) → (∀ b ∈ blanks, isBlank b = true) →
      text ≠ [] → (∀ b ∈ text, isIdByte b = true) → (∀ b ∈ back.head?, isIdByte b = false) →
      IdText request text
  | missing :
      (∀ blanks text, Behind request (ascii "id") (blanks ++ text) → (∀ b ∈ blanks, isBlank b = true) →
        (∀ b ∈ text.head?, isBlank b = false) → text = [] ∨ ∃ s, text = 34 :: s ∧ 34 ∉ s) →
      IdText request (ascii "null")

theorem dropWhile_blanks {blanks text : Bytes} (hblanks : ∀ b ∈ blanks, isBlank b = true)
    (htext : ∀ b ∈ text.head?, isBlank b = false) : (blanks ++ text).dropWhile isBlank = text := by
  rw [List.dropWhile_append_of_pos hblanks]
  cases text with
  | nil => rfl
  | cons b text =>
    rw [List.dropWhile_cons, htext b rfl]
    rfl

theorem head_dropWhile (p : UInt8 → Bool) (s : Bytes) : ∀ b ∈ (s.dropWhile p).head?, p b = false := by
  intro b hb
  have hnot := List.head?_dropWhile_not p s
  rw [Option.mem_def.mp hb] at hnot
  exact eq_false_of_ne_true (by simpa using hnot)

/-- The text behind the key and the blanks. -/
def idRest (request : Bytes) : Option Bytes :=
  (behindKey request (ascii "id")).map (List.dropWhile isBlank)

theorem head_cons {c : UInt8} (hc : isBlank c = false) (s : Bytes) :
    ∀ b ∈ (c :: s).head?, isBlank b = false := by
  intro b hb
  cases hb
  exact hc

theorem idRest_eq_some {request rest : Bytes} : idRest request = some rest ↔
    (∀ b ∈ rest.head?, isBlank b = false) ∧
      ∃ blanks, Behind request (ascii "id") (blanks ++ rest) ∧ ∀ b ∈ blanks, isBlank b = true := by
  constructor
  · intro h
    obtain ⟨all, hall, rfl⟩ := Option.map_eq_some_iff.mp h
    refine ⟨head_dropWhile isBlank all, all.takeWhile isBlank, ?_, fun b hb => List.mem_takeWhile_imp hb⟩
    rw [List.takeWhile_append_dropWhile]
    exact behindKey_eq_some.mp hall
  · rintro ⟨hhead, blanks, hbehind, hblanks⟩
    rw [idRest, behindKey_eq_some.mpr hbehind, Option.map_some, dropWhile_blanks hblanks hhead]

theorem requestId_string {request rest : Bytes} (h : idRest request = some (34 :: rest)) :
    requestId request = ((Delimited.cut 34 rest).map fun p => quoted p.1).getD (ascii "null") := by
  unfold requestId
  rw [idRest] at h
  rw [h]
  cases hcut : Delimited.cut 34 rest with
  | none => simp [hcut]
  | some p => simp [hcut]

theorem requestId_digits {request rest : Bytes} {c : UInt8} (h : idRest request = some (c :: rest))
    (hc : c ≠ 34) : requestId request = (c :: rest).takeWhile isIdByte := by
  unfold requestId
  rw [idRest] at h
  rw [h]
  split
  · rename_i heq
    cases heq
  · rename_i heq
    cases heq
  · rename_i heq
    cases heq
    exact absurd rfl hc
  · rename_i heq
    cases heq
    rfl

theorem requestId_nothing {request : Bytes} (h : ∀ c rest, idRest request ≠ some (c :: rest)) :
    requestId request = ascii "null" := by
  unfold requestId
  rcases hrest : (behindKey request (ascii "id")).map (List.dropWhile isBlank) with _ | _ | ⟨c, rest⟩
  · rfl
  · rfl
  · exact absurd hrest (h c rest)

theorem not_isIdByte_of_isBlank {b : UInt8} (h : isIdByte b = true) : isBlank b = false ∧ b ≠ 34 := by
  have hne : ∀ c, isIdByte c = false → b ≠ c := by
    rintro c hc rfl
    rw [hc] at h
    cases h
  refine ⟨decide_eq_false ?_, hne 34 rfl⟩
  simp only [hne 32 rfl, hne 9 rfl, hne 13 rfl, hne 10 rfl, or_self, not_false_eq_true]

theorem IdText.requestId {request text : Bytes} (h : IdText request text) :
    requestId request = text ∧ text ≠ [] := by
  cases h with
  | @string blanks text back hbehind hblanks hquote =>
    have hrest : idRest request = some (34 :: (text ++ 34 :: back)) :=
      idRest_eq_some.mpr ⟨head_cons rfl _, blanks, hbehind, hblanks⟩
    refine ⟨?_, List.cons_ne_nil _ _⟩
    rw [requestId_string hrest, Delimited.cut_append hquote]
    rfl
  | @digits blanks text back hbehind hblanks hne hdigits hback =>
    obtain ⟨c, s, rfl⟩ := List.exists_cons_of_ne_nil hne
    obtain ⟨hc, hquote⟩ := not_isIdByte_of_isBlank (hdigits c List.mem_cons_self)
    have hrest : idRest request = some (c :: (s ++ back)) :=
      idRest_eq_some.mpr ⟨head_cons hc _, blanks, hbehind, hblanks⟩
    refine ⟨?_, hne⟩
    rw [requestId_digits hrest hquote, ← List.cons_append, List.takeWhile_append_of_pos hdigits]
    cases back with
    | nil => exact List.append_nil _
    | cons d back => rw [List.takeWhile_cons, hback d rfl, if_neg Bool.false_ne_true, List.append_nil]
  | missing h =>
    refine ⟨?_, by decide⟩
    by_cases hsome : ∃ c rest, idRest request = some (c :: rest)
    · obtain ⟨c, rest, hrest⟩ := hsome
      obtain ⟨hhead, blanks, hbehind, hblanks⟩ := idRest_eq_some.mp hrest
      rcases h blanks (c :: rest) hbehind hblanks hhead with hnil | ⟨s, heq, hquote⟩
      · cases hnil
      · cases heq
        rw [requestId_string hrest, Delimited.cut_eq_none.mpr hquote]
        rfl
    · exact requestId_nothing fun c rest hrest => hsome ⟨c, rest, hrest⟩

theorem idText_string {request rest : Bytes} (h : idRest request = some (34 :: rest)) :
    IdText request (requestId request) := by
  obtain ⟨-, blanks, hbehind, hblanks⟩ := idRest_eq_some.mp h
  rw [requestId_string h]
  cases hcut : Delimited.cut 34 rest with
  | none =>
    refine .missing fun blanks' text hbehind' hblanks' hhead' => .inr ⟨rest, ?_, ?_⟩
    · have hsame := idRest_eq_some.mpr ⟨hhead', blanks', hbehind', hblanks'⟩
      rw [h] at hsame
      exact (Option.some.inj hsame).symm
    · exact Delimited.cut_eq_none.mp hcut
  | some p =>
    obtain ⟨rfl, hquote⟩ := Delimited.cut_eq_some.mp hcut
    exact .string hbehind hblanks hquote

theorem idText_digits {request rest : Bytes} {c : UInt8} (h : idRest request = some (c :: rest))
    (hc : c ≠ 34) (hne : requestId request ≠ []) : IdText request (requestId request) := by
  obtain ⟨-, blanks, hbehind, hblanks⟩ := idRest_eq_some.mp h
  rw [requestId_digits h hc] at hne ⊢
  rw [← List.takeWhile_append_dropWhile (p := isIdByte) (l := c :: rest)] at hbehind
  exact .digits hbehind hblanks hne (fun b hb => List.mem_takeWhile_imp hb)
    (head_dropWhile isIdByte (c :: rest))

theorem idText_nothing {request : Bytes} (h : ∀ c rest, idRest request ≠ some (c :: rest)) :
    IdText request (requestId request) := by
  rw [requestId_nothing h]
  refine .missing fun blanks text hbehind hblanks hhead => .inl ?_
  cases text with
  | nil => rfl
  | cons c text => exact absurd (idRest_eq_some.mpr ⟨hhead, blanks, hbehind, hblanks⟩) (h c text)

/-- `request_id` finds exactly the texts of `IdText`, or nothing at all. -/
theorem idText_iff {request text : Bytes} :
    IdText request text ↔ requestId request = text ∧ text ≠ [] := by
  constructor
  · exact IdText.requestId
  · rintro ⟨rfl, hne⟩
    by_cases hsome : ∃ c rest, idRest request = some (c :: rest)
    · obtain ⟨c, rest, hrest⟩ := hsome
      by_cases hc : c = 34
      · exact idText_string (hc ▸ hrest)
      · exact idText_digits hrest hc hne
    · exact idText_nothing fun c rest hrest => hsome ⟨c, rest, hrest⟩

theorem isNumberByte_of_isIdByte {b : UInt8} (h : isIdByte b = true) : Json.isNumberByte b = true := by
  rcases of_decide_eq_true h with hdigit | rfl | rfl
  · exact decide_eq_true (.inl hdigit)
  · rfl
  · rfl

/-- In front of the brace that ends the response, the text of the id is a JSON value or no JSON at all. -/
theorem denotes_requestId (request : Bytes) : ∃ (T : Bytes → Prop) (i : Option Json.Value),
    T [] ∧ T [125] ∧ Json.Denotes T Json.value (requestId request) i := by
  by_cases hne : requestId request = []
  · rw [hne]
    exact ⟨Json.Stops, none, Json.stops_nil, Json.stops_brace [], Json.denotes_nil⟩
  · have h := idText_iff.mpr ⟨rfl, hne⟩
    generalize requestId request = text at h
    cases h with
    | @string blanks text back hbehind hblanks hquote =>
      have hbrace : (34 : UInt8) ∉ ([125] : Bytes) := by decide
      exact ⟨(34 ∉ ·), _, List.not_mem_nil, hbrace, Json.denotes_quoted hquote⟩
    | digits hbehind hblanks hne hdigits hback =>
      exact ⟨Json.Stops, _, Json.stops_nil, Json.stops_brace [],
        Json.denotes_number hne fun b hb => isNumberByte_of_isIdByte (hdigits b hb)⟩
    | missing h => exact ⟨Json.Stops, _, Json.stops_nil, Json.stops_brace [], Json.denotes_null⟩

/-! ## Responses -/

/-- A JSON object of version 2.0 with the id. -/
def Correlated (response : Bytes) (id : Json.Value) : Prop :=
  ∃ members, Json.parse response = some (.obj members) ∧
    Json.lookup members (ascii "jsonrpc") = some (.str (ascii "2.0")) ∧
    Json.lookup members (ascii "id") = some id

/-- An answer that is wrapped is a response exactly when what it is made of is sound and the text of the id
is JSON text for the id. -/
theorem correlated_wrap (a : Answer) (request : Bytes) (id : Json.Value) :
    Correlated (wrap (requestId request) a.print) id ↔
      a.content.Sound ∧ Json.parse (requestId request) = some id := by
  obtain ⟨T, i, hnil, hbrace, hid⟩ := denotes_requestId request
  have hkey := a.name_cases
  have hprint := a.print_eq
  generalize a.name = key at hkey hprint
  generalize a.content = r at hprint
  have hplain : ∀ c ∈ ascii key, Json.Plain c ∧ c < 0x80 := by
    rcases hkey with rfl | rfl <;> decide
  have hlookup : ∀ v u : Json.Value,
      Json.lookup [(ascii "jsonrpc", .str (ascii "2.0")), (ascii key, v), (ascii "id", u)] (ascii "jsonrpc") =
        some (.str (ascii "2.0")) ∧
      Json.lookup [(ascii "jsonrpc", .str (ascii "2.0")), (ascii key, v), (ascii "id", u)] (ascii "id") =
        some u := by
    rcases hkey with rfl | rfl <;> exact fun v u => ⟨rfl, rfl⟩
  rw [← r.sound_iff, hid.parse hnil, hprint, wrap_eq hkey, Correlated, parse_response hplain hbrace
    r.denotes hid]
  constructor
  · rintro ⟨members, hparse, -, hmember⟩
    split_ifs at hparse with hvalid
    obtain ⟨v, hv, hparse⟩ := Option.bind_eq_some_iff.mp hparse
    obtain ⟨u, hu, hobject⟩ := Option.map_eq_some_iff.mp hparse
    cases hobject
    rw [(hlookup v u).2] at hmember
    cases hmember
    rw [hv, if_pos hvalid.2]
    exact ⟨⟨rfl, hvalid.1⟩, hu⟩
  · rintro ⟨⟨hsome, hvalid⟩, hparse⟩
    split_ifs at hparse with hident
    obtain ⟨v, hv⟩ := Option.isSome_iff_exists.mp hsome
    rw [if_pos ⟨hvalid, hident⟩, response, hv, hparse]
    exact ⟨_, rfl, hlookup v id⟩

/-! ## Sound answers -/

/-- What the answer is made of is JSON. -/
def Answer.Sound : Answer → Prop
  | .result r => r.Sound
  | .error _ message => Quotable message

theorem Answer.sound_content (a : Answer) : a.content.Sound ↔ a.Sound := by
  cases a with
  | result r => rfl
  | error code message =>
    simp only [Answer.content, Answer.Sound, Reply.Sound, Record.Sound, List.forall_mem_cons,
      List.not_mem_nil, false_implies, implies_true, and_true, Leaf.Sound]
    exact and_iff_right (isSome_number_toString code)

theorem quotable_of_ascii {s : Bytes} (h : ∀ c ∈ s, 32 ≤ c ∧ c < 0x80) : Quotable s :=
  ⟨Utf8.valid_of_ascii fun c hc => (h c hc).2, fun c hc => .inl (h c hc).1⟩

theorem ascii_of_mem_hashToHex {s : Bytes} : ∀ c ∈ hashToHex s, 32 ≤ c ∧ c < 0x80 := by
  intro c hc
  obtain ⟨n, hn, rfl⟩ := exists_of_mem_hashToHex hc
  have key : ∀ n < 16, 32 ≤ hexDigit n ∧ hexDigit n < 0x80 := by decide
  exact key n hn

theorem ascii_of_mem_hexText {n : ℕ} : ∀ c ∈ hexText n, 32 ≤ c ∧ c < 0x80 := by
  induction n using Nat.strongRecOn with
  | ind n ih =>
    have key : ∀ d < 16, 32 ≤ UInt8.ofNat d.digitChar.toNat ∧ UInt8.ofNat d.digitChar.toNat < 0x80 := by
      decide
    intro c hc
    rw [hexText, Nat.toDigits_eq_if (by decide)] at hc
    split_ifs at hc with hlt
    · rw [List.map_singleton, List.mem_singleton] at hc
      rw [hc]
      exact key n hlt
    · rw [List.map_append, List.mem_append, List.map_singleton, List.mem_singleton] at hc
      rcases hc with hc | rfl
      · exact ih (n / 16) (Nat.div_lt_self (by omega) (by decide)) c hc
      · exact key _ (Nat.mod_lt n (by decide))

/-- A text of hexadecimal digits behind its prefix. -/
theorem quotable_hex {s : Bytes} (h : ∀ c ∈ s, 32 ≤ c ∧ c < 0x80) : Quotable (ascii "0x" ++ s) := by
  have hfront : ∀ c ∈ ascii "0x", 32 ≤ c ∧ c < 0x80 := by decide
  exact quotable_of_ascii fun c hc => (List.mem_append.mp hc).elim (hfront c) (h c)

@[simp] theorem sound_text (s : Bytes) : (Leaf.text s).Sound ↔ Quotable s := Iff.rfl

@[simp] theorem sound_nil : Record.Sound [] := fun _ h => nomatch h

@[simp] theorem sound_cons (f : Field) (r : Record) :
    Record.Sound (f :: r) ↔ f.value.Sound ∧ Record.Sound r :=
  List.forall_mem_cons

@[simp] theorem sound_leaf (l : Leaf) : (Answer.result (.leaf l)).Sound ↔ l.Sound := Iff.rfl

@[simp] theorem sound_record (r : Record) : (Answer.result (.record r)).Sound ↔ r.Sound := Iff.rfl

@[simp] theorem sound_ofNat (n : ℕ) : (Leaf.ofNat n).Sound := isSome_number_decimal n

@[simp] theorem sound_bool (b : Bool) : (Leaf.bool b).Sound := trivial

theorem sound_printed {F : Type} (fl : WeightText F) (x : F) :
    (Leaf.number (fl.printed x)).Sound ↔ fl.finite x = true := by
  show (Json.number (fl.print x)).isSome = true ↔ _
  cases hx : fl.finite x with
  | true => exact iff_of_true (fl.print_finite x hx).2.2 rfl
  | false =>
    have key : ∀ w ∈ notFinite, (Json.number w).isSome = false := by decide
    rw [key _ (fl.print_infinite x hx)]

theorem sound_numeral {F : Type} (fl : WeightText F) (x : F) :
    (Leaf.number (fl.numeral x)).Sound ↔ fl.finite x = true := by
  show (Json.number (fl.toText x)).isSome = true ↔ _
  cases hx : fl.finite x with
  | true => exact iff_of_true (fl.toText_finite x hx).2.2 rfl
  | false =>
    have key : ∀ w ∈ notFinite, (Json.number w).isSome = false := by decide
    rw [key _ (fl.toText_infinite x hx)]

/-! ## What a method quotes -/

section Methods

variable {F : Type}

/-- The texts that a branch quotes are quotable, and the weight it prints is finite. -/
def Server.Presents (S : Server F) (H : Host F) (request : Bytes) : Method → Prop
  | .getBlockByNumber => ∀ b, S.findBlock (blockHeight request) = some b → Quotable b.validatorAddress
  | .getBlockByHash => ∀ db, S.db = some db →
      ∀ b, Mermai.getBlockByHash db.toDb (paramString request (ascii "hash")) = some b →
        Quotable b.validatorAddress
  | .getTransaction => ∀ db, S.db = some db →
      Quotable (Mermai.getTransaction db.toDb (transactionId request)).id
  | .sendTransaction => ∀ tx, submittedTransaction request = .ok tx →
      (∀ db, S.db = some db → validateTransactionInputs H.crypto H.now db.utxos tx = true) →
      Quotable tx.id
  | .getValidatorInfo => ∀ db, S.db = some db →
      let v := getValidator H.floats.toFloatOps db (paramString request (ascii "address"))
      v.1.amount ≠ 0 → Quotable v.1.address ∧ H.floats.finite v.2 = true
  | .getAllValidators => ∀ db, S.db = some db → ∀ v ∈ Mermai.getAllValidators db.toDb, Quotable v.address
  | .getValidatorWeight => ∀ db, S.db = some db →
      let v := getValidator H.floats.toFloatOps db (paramString request (ascii "address"))
      v.1.amount ≠ 0 → H.floats.finite v.2 = true
  | _ => True

/-- A run of a contract ends, and not in a trap. -/
def Ends (H : Host F) (code caller : Bytes) : Prop := ∃ fuel r, runContract H code caller fuel = some r

/-- The contract that a branch runs ends. -/
def Server.Returns (S : Server F) (H : Host F) (request : Bytes) : Method → Prop
  | .callContract =>
    S.calledCode request ≠ [] → Ends H (S.calledCode request) (requestString request (ascii "from"))
  | .estimateGas => hexToBytes (codeHex request) ≠ [] → Ends H (hexToBytes (codeHex request)) []
  | _ => True

theorem sound_error {code : ℤ} {message : String} (h : Quotable (ascii message)) :
    (Answer.error code (ascii message)).Sound := h

theorem sound_blockAnswer (o : Option Block) :
    (blockAnswer o).Sound ↔ ∀ b, o = some b → Quotable b.validatorAddress := by
  cases o with
  | none => exact iff_of_true (sound_error (by decide)) fun b h => nomatch h
  | some b => simp [blockAnswer]

theorem sound_getBlockByHash (S : Server F) (hash : Bytes) : (S.getBlockByHash hash).Sound ↔
    ∀ db, S.db = some db →
      ∀ b, Mermai.getBlockByHash db.toDb hash = some b → Quotable b.validatorAddress := by
  unfold Server.getBlockByHash
  cases S.db with
  | none => exact iff_of_true (sound_error (by decide)) fun db h => nomatch h
  | some db =>
    rw [sound_blockAnswer]
    simp only [Option.some.injEq, forall_eq']

theorem sound_getFinalizedBlock (S : Server F) (C : Crypto) : (S.getFinalizedBlock C).Sound := by
  unfold Server.getFinalizedBlock
  cases S.blockchain with
  | none => exact sound_error (by decide)
  | some chain =>
    dsimp only
    cases lastFinalized C chain S.quorum ((getHeight chain).toInt32.toInt + 1).toNat with
    | none =>
      have hgenesis : Quotable (ascii "genesis") := by decide
      simp [hgenesis]
    | some b =>
      have hhash : Quotable (b.hashHex C) := quotable_of_ascii ascii_of_mem_hashToHex
      simp [hhash]

theorem sound_getBalance (S : Server F) (address : Bytes) : (S.getBalance address).Sound := by
  unfold Server.getBalance
  cases S.db with
  | none => exact sound_error (by decide)
  | some db => exact sound_ofNat _

theorem sound_getAccountNonce (S : Server F) (address : Bytes) : (S.getAccountNonce address).Sound := by
  unfold Server.getAccountNonce
  cases S.db with
  | none => exact sound_error (by decide)
  | some db => exact sound_ofNat _

theorem sound_getTransaction (S : Server F) (txId : Bytes) : (S.getTransaction txId).Sound ↔
    ∀ db, S.db = some db → Quotable (Mermai.getTransaction db.toDb txId).id := by
  unfold Server.getTransaction
  cases S.db with
  | none => exact iff_of_true (sound_error (by decide)) fun db h => nomatch h
  | some db =>
    simp only [Option.some.injEq, forall_eq']
    split_ifs with hid
    · rw [hid]
      exact iff_of_true (sound_error (by decide)) (by decide)
    · simp

theorem quotable_rowId {C : Crypto} {tx : Transaction} : Quotable (tx.rowId C) ↔ Quotable tx.id := by
  rw [Transaction.rowId]
  split_ifs with hid
  · rw [hid]
    exact iff_of_true (quotable_of_ascii ascii_of_mem_hashToHex) (by decide)
  · rfl

/-- What `send_transaction` reports is the text of an error of the decoder. -/
theorem exists_of_submittedTransaction_error {request : Bytes} {what : String}
    (h : submittedTransaction request = .error what) :
    ∃ raw, Transaction.deserialize raw = .error what := by
  unfold submittedTransaction at h
  dsimp only at h
  generalize (if (ascii "0x").isPrefixOf _ = true then hexToBytes _ else _) = raw at h
  by_cases hraw : raw = []
  · rw [if_pos hraw] at h
    cases h
  · rw [if_neg hraw] at h
    cases hdecode : Transaction.deserialize raw with
    | error what' =>
      rw [hdecode] at h
      cases h
      exact ⟨raw, hdecode⟩
    | ok tx =>
      rw [hdecode] at h
      cases h

theorem quotable_of_submittedTransaction_error {request : Bytes} {what : String}
    (h : submittedTransaction request = .error what) : Quotable (ascii what) := by
  have key : ∀ what ∈ transactionErrors, Quotable (ascii what) := by decide
  obtain ⟨raw, hraw⟩ := exists_of_submittedTransaction_error h
  exact key what (Transaction.deserialize_error hraw)

theorem print_sendTransaction (S : Server F) (H : Host F) (request : Bytes) :
    ∃ a : Answer, (S.sendTransaction H request).1 = a.print ∧
      (a.Sound ↔ S.Presents H request .sendTransaction) := by
  have hsent : ∀ tx : Transaction, ∃ a : Answer,
      ascii "\x7b\"result\":" ++ jsonString (tx.rowId H.crypto) ++ ascii "\x7d" = a.print ∧
      (a.Sound ↔ Quotable tx.id) := fun tx =>
    ⟨.result (.leaf (.text (tx.rowId H.crypto))), rfl, quotable_rowId⟩
  simp only [Server.Presents]
  show ∃ a : Answer, (Mermai.sendTransaction _ _ _ _).answer = _ ∧ _
  unfold Mermai.sendTransaction
  cases hsubmitted : submittedTransaction request with
  | error what =>
    refine ⟨.error (-32602) (ascii what), rfl, ?_⟩
    exact iff_of_true (quotable_of_submittedTransaction_error hsubmitted) fun tx h => nomatch h
  | ok tx =>
    simp only [Except.ok.injEq, forall_eq']
    cases S.db with
    | none =>
      obtain ⟨a, hprint, hsound⟩ := hsent tx
      refine ⟨a, hprint, hsound.trans ?_⟩
      simp
    | some db =>
      simp only [Option.map_some, Option.some.injEq, forall_eq']
      by_cases hvalid : validateTransactionInputs H.crypto H.now db.utxos tx = true
      · obtain ⟨a, hprint, hsound⟩ := hsent tx
        rw [if_neg (not_not.mpr hvalid)]
        refine ⟨a, hprint, hsound.trans ?_⟩
        simp [hvalid]
      · rw [if_pos hvalid]
        refine ⟨.error (-32602) (ascii "Invalid transaction inputs"), rfl, ?_⟩
        exact iff_of_true (sound_error (by decide)) fun h => absurd h hvalid

theorem sound_registerValidator (S : Server F) (H : Host F) (request : Bytes) :
    (S.registerValidator H request).1.Sound := by
  unfold Server.registerValidator
  cases S.consensus with
  | none => exact sound_error (by decide)
  | some vs =>
    dsimp only
    split
    · exact sound_error (by decide)
    · exact sound_bool true

theorem sound_getValidatorInfo (S : Server F) (H : Host F) (address : Bytes) :
    (S.getValidatorInfo H address).Sound ↔ ∀ db, S.db = some db →
      let v := getValidator H.floats.toFloatOps db address
      v.1.amount ≠ 0 → Quotable v.1.address ∧ H.floats.finite v.2 = true := by
  unfold Server.getValidatorInfo
  cases S.db with
  | none => exact iff_of_true (sound_error (by decide)) fun db h => nomatch h
  | some db =>
    simp only [Option.some.injEq, forall_eq']
    split_ifs with hamount
    · exact iff_of_true (sound_error (by decide)) fun h => absurd hamount h
    · simp [sound_printed, hamount]

theorem sound_getValidatorWeight (S : Server F) (H : Host F) (address : Bytes) :
    (S.getValidatorWeight H address).Sound ↔ ∀ db, S.db = some db →
      let v := getValidator H.floats.toFloatOps db address
      v.1.amount ≠ 0 → H.floats.finite v.2 = true := by
  unfold Server.getValidatorWeight
  cases S.db with
  | none => exact iff_of_true (sound_error (by decide)) fun db h => nomatch h
  | some db =>
    simp only [Option.some.injEq, forall_eq']
    split_ifs with hamount
    · exact iff_of_true (sound_error (by decide)) fun h => absurd hamount h
    · simp [sound_numeral, hamount]

theorem sound_getAllValidators (S : Server F) : S.getAllValidators.Sound ↔
    ∀ db, S.db = some db → ∀ v ∈ Mermai.getAllValidators db.toDb, Quotable v.address := by
  unfold Server.getAllValidators
  cases S.db with
  | none => exact iff_of_true (sound_error (by decide)) fun db h => nomatch h
  | some db =>
    simp only [Option.some.injEq, forall_eq']
    show (∀ r ∈ (Mermai.getAllValidators db.toDb).map validatorRecord, Record.Sound r) ↔ _
    rw [List.forall_mem_map]
    simp [validatorRecord]

theorem sound_submitVote (S : Server F) (H : Host F) (request : Bytes) :
    (S.submitVote H request).1.Sound := by
  unfold Server.submitVote
  split
  · dsimp only
    split_ifs
    · exact sound_bool true
    · exact sound_error (by decide)
  · exact sound_error (by decide)

theorem sound_getQuorumStatus (S : Server F) (blockHash : Bytes) :
    (S.getQuorumStatus blockHash).Sound := by
  unfold Server.getQuorumStatus
  split
  · simp
  · exact sound_error (by decide)

theorem sound_deployContract (S : Server F) (C : Crypto) (request : Bytes) :
    (S.deployContract C request).1.Sound := by
  unfold Server.deployContract
  dsimp only
  split_ifs
  · exact sound_error (by decide)
  · have haddress : Quotable (ascii "0x" ++ hashToHex ((C.sha256 (hexToBytes (codeHex request))).take 20)) :=
      quotable_hex ascii_of_mem_hashToHex
    split
    · exact haddress
    · split
      · exact sound_error (by decide)
      · exact haddress

theorem sound_getContractCode (S : Server F) (address : Bytes) : (S.getContractCode address).Sound := by
  unfold Server.getContractCode
  cases S.db with
  | none => exact sound_error (by decide)
  | some db =>
    dsimp only
    split_ifs
    · exact sound_error (by decide)
    · exact quotable_hex ascii_of_mem_hashToHex

theorem sound_callContract {S : Server F} {H : Host F} {request : Bytes} {fuel : ℕ} {a : Answer}
    (h : S.callContract H request fuel = some a) : a.Sound := by
  unfold Server.callContract at h
  dsimp only at h
  split_ifs at h
  · cases h
    exact sound_error (by decide)
  · obtain ⟨r, -, rfl⟩ := Option.map_eq_some_iff.mp h
    split_ifs
    · refine quotable_hex fun c hc => ?_
      unfold returnHex at hc
      split at hc
      · rw [(List.mem_replicate.mp hc).2]
        decide
      · exact ascii_of_mem_hashToHex c hc
    · exact sound_error (by decide)

theorem sound_estimateGas {H : Host F} {request : Bytes} {fuel : ℕ} {a : Answer}
    (h : estimateGas H request fuel = some a) : a.Sound := by
  unfold estimateGas at h
  dsimp only at h
  split_ifs at h
  · cases h
    have hprice : Quotable (ascii "0x5208") := by decide
    exact hprice
  · obtain ⟨r, -, rfl⟩ := Option.map_eq_some_iff.mp h
    exact quotable_hex ascii_of_mem_hexText

/-- A branch answers for some fuel exactly when its contract ends. -/
theorem exists_call_iff (S : Server F) (H : Host F) (request : Bytes) (m : Method) :
    (∃ fuel p, S.call H fuel request m = some p) ↔ S.Returns H request m := by
  have hrun : ∀ {code caller : Bytes} {other : Answer} {answer : Bool × Vm.Context → Answer},
      (∃ (fuel : ℕ) (p : Bytes × Server F), (if code = [] then some other
        else (runContract H code caller fuel).map answer).map (fun a => (a.print, S)) = some p) ↔
      (code ≠ [] → Ends H code caller) := by
    intro code caller other answer
    by_cases hcode : code = []
    · simp only [if_pos hcode]
      exact iff_of_true ⟨0, _, rfl⟩ fun h => absurd hcode h
    · simp only [if_neg hcode, Option.map_map]
      constructor
      · rintro ⟨fuel, p, hp⟩ -
        obtain ⟨r, hr, -⟩ := Option.map_eq_some_iff.mp hp
        exact ⟨fuel, r, hr⟩
      · intro hends
        obtain ⟨fuel, r, hr⟩ := hends hcode
        exact ⟨fuel, _, by rw [hr]; rfl⟩
  cases m with
  | callContract => exact hrun
  | estimateGas => exact hrun
  | _ => exact iff_of_true ⟨0, _, rfl⟩ trivial

/-- What a branch returns is an answer, sound exactly when what it quotes is. -/
theorem call_answer {S : Server F} {H : Host F} {request : Bytes} {m : Method} {fuel : ℕ}
    {p : Bytes × Server F} (hm : m ≠ .getMetrics) (h : S.call H fuel request m = some p) :
    ∃ a : Answer, p.1 = a.print ∧ (a.Sound ↔ S.Presents H request m) := by
  have hsound : ∀ {a : Answer}, a.Sound → (a.Sound ↔ True) := fun ha => iff_of_true ha trivial
  cases m with
  | blockNumber =>
    cases h
    exact ⟨S.getBlockCount, rfl, hsound (sound_ofNat _)⟩
  | getBlockByNumber =>
    cases h
    exact ⟨_, rfl, sound_blockAnswer _⟩
  | getBlockByHash =>
    cases h
    exact ⟨_, rfl, sound_getBlockByHash S _⟩
  | getFinalizedBlock =>
    cases h
    exact ⟨_, rfl, hsound (sound_getFinalizedBlock S _)⟩
  | getBalance =>
    cases h
    exact ⟨_, rfl, hsound (sound_getBalance S _)⟩
  | getTransactionCount =>
    cases h
    exact ⟨_, rfl, hsound (sound_getAccountNonce S _)⟩
  | getTransaction =>
    cases h
    exact ⟨_, rfl, sound_getTransaction S _⟩
  | sendTransaction =>
    cases h
    exact print_sendTransaction S H request
  | suggestFee =>
    cases h
    exact ⟨suggestFee, rfl, hsound (by simp [suggestFee])⟩
  | getMetrics => exact absurd rfl hm
  | registerValidator =>
    cases h
    exact ⟨_, rfl, hsound (sound_registerValidator S H _)⟩
  | getValidatorInfo =>
    cases h
    exact ⟨_, rfl, sound_getValidatorInfo S H _⟩
  | getAllValidators =>
    cases h
    exact ⟨_, rfl, sound_getAllValidators S⟩
  | getValidatorWeight =>
    cases h
    exact ⟨_, rfl, sound_getValidatorWeight S H _⟩
  | submitVote =>
    cases h
    exact ⟨_, rfl, hsound (sound_submitVote S H _)⟩
  | getQuorumStatus =>
    cases h
    exact ⟨_, rfl, hsound (sound_getQuorumStatus S _)⟩
  | deployContract =>
    cases h
    exact ⟨_, rfl, hsound (sound_deployContract S _ _)⟩
  | getContractCode =>
    cases h
    exact ⟨_, rfl, hsound (sound_getContractCode S _)⟩
  | callContract =>
    obtain ⟨a, ha, rfl⟩ := Option.map_eq_some_iff.mp h
    exact ⟨a, rfl, hsound (sound_callContract ha)⟩
  | estimateGas =>
    obtain ⟨a, ha, rfl⟩ := Option.map_eq_some_iff.mp h
    exact ⟨a, rfl, hsound (sound_estimateGas ha)⟩
  | peerCount =>
    cases h
    exact ⟨S.getPeerCount, rfl, hsound (sound_ofNat _)⟩
  | chainId =>
    cases h
    exact ⟨getChainId, rfl, hsound (sound_ofNat _)⟩

theorem methodOf_eq_getMetrics {name : Bytes} :
    methodOf name = some .getMetrics ↔ name = ascii "mrm_getMetrics" := by
  constructor
  · intro h
    obtain ⟨m, hm, hmethod⟩ := Option.map_eq_some_iff.mp h
    have key : ∀ m ∈ methodNames, m.2 = .getMetrics → m.1 = ["mrm_getMetrics"] := by decide
    have hfound := @List.find?_some _ _ _ _ hm
    obtain ⟨n, hn, hname⟩ := List.any_eq_true.mp hfound
    rw [key m (List.mem_of_find?_eq_some hm) hmethod] at hn
    cases List.mem_singleton.mp hn
    exact (of_decide_eq_true hname).symm
  · rintro rfl
    rfl

/-- The metrics are no JSON, and nothing is put around them. -/
theorem not_correlated_getMetrics (S : Server F) (id : Bytes) (v : Json.Value) :
    ¬ Correlated (wrap id S.getMetrics) v := by
  obtain ⟨s, hs⟩ : ∃ s, S.getMetrics = 35 :: s := ⟨_, rfl⟩
  have hwrap : wrap id (35 :: s) = 35 :: s := rfl
  rintro ⟨members, hparse, -⟩
  rw [hs, hwrap] at hparse
  obtain ⟨-, n, t, hread, -⟩ := Json.parse_eq_some_iff.mp hparse
  cases n with
  | zero => cases hread
  | succ n => cases hread

/-! ## Requests -/

/-- A request: a JSON object with a method other than `mrm_getMetrics` and an id that is a string, a number
or null. -/
structure Request where
  text : Bytes
  members : List (Bytes × Json.Value)
  parsed : Json.parse text = some (.obj members)
  method : Bytes
  hasMethod : Json.lookup members (ascii "method") = some (.str method)
  notMetrics : method ≠ ascii "mrm_getMetrics"
  id : Json.Value
  hasId : Json.lookup members (ascii "id") = some id
  simple : id = .null ∨ (∃ s, id = .str s) ∨ ∃ q, id = .num q

/-- `handle_request` returns, and a response to the request. -/
def Server.Responds (S : Server F) (H : Host F) (r : Request) : Prop :=
  ∃ fuel p, S.handleRequest H fuel r.text = some p ∧ Correlated p.1 r.id

/-- Without a method the answer is an error. -/
theorem handleRequest_none {S : Server F} {H : Host F} {request : Bytes}
    (h : methodOf (requestString request (ascii "method")) = none) (fuel : ℕ) :
    S.handleRequest H fuel request =
      some (wrap (requestId request) (Answer.error (-32601) (ascii "Method not found")).print, S) := by
  rw [Server.handleRequest, h]
  rfl

theorem handleRequest_some {S : Server F} {H : Host F} {request : Bytes} {m : Method}
    (h : methodOf (requestString request (ascii "method")) = some m) (fuel : ℕ) :
    S.handleRequest H fuel request =
      (S.call H fuel request m).map fun r => (wrap (requestId request) r.1, r.2) := by
  rw [Server.handleRequest, h]

/-- What the server does is right for the texts it finds in the request. -/
structure Server.Answers (S : Server F) (H : Host F) (request : Bytes) : Prop where
  notMetrics : requestString request (ascii "method") ≠ ascii "mrm_getMetrics"
  returns : ∀ m, methodOf (requestString request (ascii "method")) = some m → S.Returns H request m
  presents : ∀ m, methodOf (requestString request (ascii "method")) = some m → S.Presents H request m

/-- No branch: the error is sound, and only the id counts. -/
theorem correlated_none_iff {S : Server F} {H : Host F} {request : Bytes} {id : Json.Value}
    (h : methodOf (requestString request (ascii "method")) = none) :
    (∃ fuel p, S.handleRequest H fuel request = some p ∧ Correlated p.1 id) ↔
      Json.parse (requestId request) = some id := by
  have hsound : (Answer.error (-32601) (ascii "Method not found")).Sound := sound_error (by decide)
  have hwrap := correlated_wrap (.error (-32601) (ascii "Method not found")) request id
  rw [Answer.sound_content, and_iff_right hsound] at hwrap
  rw [← hwrap]
  constructor
  · rintro ⟨fuel, p, hp, hcorrelated⟩
    rw [handleRequest_none h] at hp
    cases hp
    exact hcorrelated
  · exact fun hcorrelated => ⟨0, _, handleRequest_none h 0, hcorrelated⟩

/-- A branch: its contract ends, and what it quotes can be quoted. -/
theorem correlated_some_iff {S : Server F} {H : Host F} {request : Bytes} {id : Json.Value} {m : Method}
    (h : methodOf (requestString request (ascii "method")) = some m) :
    (∃ fuel p, S.handleRequest H fuel request = some p ∧ Correlated p.1 id) ↔
      Json.parse (requestId request) = some id ∧ m ≠ .getMetrics ∧ S.Returns H request m ∧
        S.Presents H request m := by
  constructor
  · rintro ⟨fuel, p, hp, hcorrelated⟩
    rw [handleRequest_some h] at hp
    obtain ⟨q, hq, rfl⟩ := Option.map_eq_some_iff.mp hp
    have hne : m ≠ .getMetrics := by
      rintro rfl
      cases hq
      exact not_correlated_getMetrics S (requestId request) id hcorrelated
    obtain ⟨a, ha, hsound⟩ := call_answer hne hq
    rw [ha, correlated_wrap, Answer.sound_content, hsound] at hcorrelated
    exact ⟨hcorrelated.2, hne, (exists_call_iff S H request m).mp ⟨fuel, q, hq⟩, hcorrelated.1⟩
  · rintro ⟨hid, hne, hreturns, hpresents⟩
    obtain ⟨fuel, q, hq⟩ := (exists_call_iff S H request m).mpr hreturns
    obtain ⟨a, ha, hsound⟩ := call_answer hne hq
    refine ⟨fuel, _, (handleRequest_some h fuel).trans (congrArg _ hq), ?_⟩
    show Correlated (wrap (requestId request) q.1) id
    rw [ha, correlated_wrap, Answer.sound_content, hsound]
    exact ⟨hpresents, hid⟩

theorem exists_correlated_iff (S : Server F) (H : Host F) (request : Bytes) (id : Json.Value) :
    (∃ fuel p, S.handleRequest H fuel request = some p ∧ Correlated p.1 id) ↔
      Json.parse (requestId request) = some id ∧ S.Answers H request := by
  cases hmethod : methodOf (requestString request (ascii "method")) with
  | none =>
    have hanswers : S.Answers H request := by
      refine ⟨fun hname => ?_, fun m hm => ?_, fun m hm => ?_⟩
      · rw [methodOf_eq_getMetrics.mpr hname] at hmethod
        cases hmethod
      · rw [hmethod] at hm
        cases hm
      · rw [hmethod] at hm
        cases hm
    rw [correlated_none_iff hmethod, and_iff_left hanswers]
  | some m =>
    rw [correlated_some_iff hmethod, and_congr_right_iff]
    intro _
    constructor
    · rintro ⟨hne, hreturns, hpresents⟩
      refine ⟨fun hname => hne ?_, fun m' hm' => ?_, fun m' hm' => ?_⟩
      · rw [methodOf_eq_getMetrics.mpr hname] at hmethod
        exact (Option.some.inj hmethod).symm
      · cases hmethod.symm.trans hm'
        exact hreturns
      · cases hmethod.symm.trans hm'
        exact hpresents
    · rintro ⟨hne, hreturns, hpresents⟩
      refine ⟨?_, hreturns m hmethod, hpresents m hmethod⟩
      rintro rfl
      exact hne (methodOf_eq_getMetrics.mp hmethod)

/-- The empty text is no JSON, so it is enough to look at the texts of `IdText`. -/
theorem parse_requestId_iff {request : Bytes} {v : Json.Value} :
    Json.parse (requestId request) = some v ↔ ∃ text, IdText request text ∧ Json.parse text = some v := by
  constructor
  · intro h
    refine ⟨_, idText_iff.mpr ⟨rfl, ?_⟩, h⟩
    intro hnil
    rw [hnil] at h
    cases h
  · rintro ⟨text, htext, h⟩
    rw [(idText_iff.mp htext).1]
    exact h

/-- **Responses are JSON and carry the id exactly when** the text that is taken for the id is JSON text for
it, the name that is taken for the method is not `mrm_getMetrics`, a contract that the method runs ends, the
texts the answer quotes are UTF-8 with no control character beyond those that are escaped, and a weight in it
is finite. -/
theorem responds_iff (S : Server F) (H : Host F) (r : Request) :
    S.Responds H r ↔ (∃ text, IdText r.text text ∧ Json.parse text = some r.id) ∧ S.Answers H r.text := by
  rw [← parse_requestId_iff]
  exact exists_correlated_iff S H r.text r.id

end Methods

/-! ## Two requests -/

/-- A server with nothing behind it. -/
def bareServer : Server ℚ := {}

def exactHost : Host ℚ := ⟨polyCrypto, Vm.explorerGas, exactText, 1700000000, fun _ => 0⟩

/-- A request for the chain id, with a text for its own id. -/
def chainIdRequest (id : Bytes) : Bytes :=
  123 :: Json.commas [ascii "\"method\":\"eth_chainId\"", ascii "\"id\":" ++ id] ++ [125]

theorem parse_chainIdRequest {id : Bytes} {i : Json.Value} (hvalid : Utf8.Valid id)
    (hid : Json.Denotes Json.Stops Json.value id (some i)) : Json.parse (chainIdRequest id) =
      some (.obj [(ascii "method", .str (ascii "eth_chainId")), (ascii "id", i)]) := by
  have hname : Json.Denotes Json.Stops Json.value (ascii "\"eth_chainId\"")
      (some (.str (ascii "eth_chainId"))) := by
    have hquotable : Quotable (ascii "eth_chainId") := by decide
    exact denotes_quotable hquotable
  have hmethodplain : ∀ c ∈ ascii "method", Json.Plain c := by decide
  have hidplain : ∀ c ∈ ascii "id", Json.Plain c := by decide
  have hmethod := Json.denotes_member hmethodplain hname
  have hident := Json.denotes_member hidplain hid
  have hopens : ∀ w ∈ [ascii "\"method\":\"eth_chainId\"", ascii "\"id\":" ++ id], Json.Opens 125 w := by
    refine List.forall_mem_cons.mpr ⟨?_, List.forall_mem_singleton.mpr ?_⟩
    · exact ⟨34, _, rfl, by decide, rfl⟩
    · exact ⟨34, _, rfl, by decide, rfl⟩
  have hobject : Json.Denotes Json.Stops Json.value (chainIdRequest id) _ :=
    Json.denotes_object hopens (.cons hmethod (.cons hident .nil))
  have htexts : Utf8.Valid (chainIdRequest id) := by
    have hfirst : Utf8.Valid (ascii "\"method\":\"eth_chainId\"") := by decide
    have hsecond : Utf8.Valid (ascii "\"id\":" ++ id) := (Utf8.valid_ascii_append (by decide)).mpr hvalid
    refine (Json.valid_between (by decide) (by decide)).mpr ?_
    exact List.forall_mem_cons.mpr ⟨hfirst, List.forall_mem_singleton.mpr hsecond⟩
  rw [hobject.parse Json.stops_nil, if_pos htexts]
  rfl

/-- Whatever the id is, the method is found in front of it. -/
theorem requestString_chainIdRequest (id : Bytes) :
    requestString (chainIdRequest id) (ascii "method") = ascii "eth_chainId" := rfl

theorem methodOf_chainIdRequest (id : Bytes) :
    methodOf (requestString (chainIdRequest id) (ascii "method")) = some .chainId := by
  rw [requestString_chainIdRequest]
  rfl

/-- The request with an id that is a string or null. -/
def chainIdCall (id : Bytes) (i : Json.Value) (hvalid : Utf8.Valid id)
    (hid : Json.Denotes Json.Stops Json.value id (some i))
    (hsimple : i = .null ∨ (∃ s, i = .str s) ∨ ∃ q, i = .num q) : Request where
  text := chainIdRequest id
  members := [(ascii "method", .str (ascii "eth_chainId")), (ascii "id", i)]
  parsed := parse_chainIdRequest hvalid hid
  method := ascii "eth_chainId"
  hasMethod := rfl
  notMetrics := by decide
  id := i
  hasId := rfl
  simple := hsimple

theorem denotes_x : Json.Denotes Json.Stops Json.value (ascii "\"x\"") (some (.str (ascii "x"))) := by
  have hquotable : Quotable (ascii "x") := by decide
  exact denotes_quotable hquotable

/-- The id is `"x"`. -/
def namedRequest : Request :=
  chainIdCall (ascii "\"x\"") (.str (ascii "x")) (by decide) denotes_x (.inr (.inl ⟨_, rfl⟩))

/-- The id is `null`. -/
def nullRequest : Request := chainIdCall (ascii "null") .null (by decide) Json.denotes_null (.inl rfl)

theorem responds_chainId : bareServer.Responds exactHost namedRequest := by
  have hid : IdText namedRequest.text (ascii "\"x\"") := idText_iff.mpr ⟨rfl, by decide⟩
  have hparse : Json.parse (ascii "\"x\"") = some (.str (ascii "x")) := by
    rw [denotes_x.parse Json.stops_nil, if_pos (by decide)]
  have hmethod : methodOf (requestString namedRequest.text (ascii "method")) = some .chainId :=
    methodOf_chainIdRequest _
  refine (responds_iff bareServer exactHost namedRequest).mpr ⟨⟨_, hid, hparse⟩, ?_, ?_, ?_⟩
  · intro hname
    rw [methodOf_eq_getMetrics.mpr hname] at hmethod
    cases hmethod
  · intro m hm
    cases hmethod.symm.trans hm
    trivial
  · intro m hm
    cases hmethod.symm.trans hm
    trivial

/-- The letters of `null` are no bytes of an id, so none is written. -/
theorem null_unanswered :
    (bareServer.handleRequest exactHost 0 nullRequest.text).map Prod.fst =
      some (ascii "\x7b\"jsonrpc\":\"2.0\",\"result\":1337,\"id\":\x7d") ∧
    ¬ bareServer.Responds exactHost nullRequest := by
  have hnil : requestId nullRequest.text = [] := rfl
  have hmethod : methodOf (requestString nullRequest.text (ascii "method")) = some .chainId :=
    methodOf_chainIdRequest _
  refine ⟨?_, fun h => ?_⟩
  · rw [handleRequest_some hmethod 0, hnil]
    rfl
  · have hparse := ((exists_correlated_iff bareServer exactHost nullRequest.text nullRequest.id).mp h).1
    rw [hnil] at hparse
    cases hparse

end Mermai.Rpc
