import Mermai.Core.MultisigCodec
import Mermai.Light.Tree
import Mermai.Merlite.Token

/-!
# Rpc.Text — the texts of the RPC server

The functions of the anonymous namespace of `mermai_rpc.cpp`, and `json_error`.  A request is not parsed:
`request_id`, `request_string` and `request_number` look for the quoted key, for the next colon and for what
stands behind it.  An answer is put together from texts, with `json_string` around those that come from
elsewhere.
-/

namespace Mermai.Rpc

open Merlite (ascii)

/-! ## Answers -/

/-- The escape that `json_string` writes for a byte. -/
def escape (c : UInt8) : Bytes :=
  if c = 34 then [92, 34]
  else if c = 92 then [92, 92]
  else if c = 8 then [92, 98]
  else if c = 12 then [92, 102]
  else if c = 10 then [92, 110]
  else if c = 13 then [92, 114]
  else if c = 9 then [92, 116]
  else [c]

/-- `json_string`. -/
def jsonString (input : Bytes) : Bytes := 34 :: input.flatMap escape ++ [34]

/-- `std::to_string` of an `int`. -/
def toString (n : ℤ) : Bytes := if n < 0 then 45 :: decimal n.natAbs else decimal n.natAbs

/-- `json_error`. -/
def jsonError (code : ℤ) (message : Bytes) : Bytes :=
  ascii "\x7b\"error\":\x7b\"code\":" ++ toString code ++ ascii ",\"message\":" ++ jsonString message ++
    ascii "\x7d\x7d"

/-! ## Requests -/

/-- What stands behind the first occurrence of a text: `find` and a step over what was found. -/
def findBehind (needle : Bytes) : Bytes → Option Bytes
  | [] => if needle = [] then some [] else none
  | b :: body =>
    if needle.isPrefixOf (b :: body) then some ((b :: body).drop needle.length)
    else findBehind needle body

/-- The blanks that are skipped in front of a value. -/
def isBlank (b : UInt8) : Bool := b = 32 ∨ b = 9 ∨ b = 13 ∨ b = 10

/-- The key in its quotes. -/
def quoted (key : Bytes) : Bytes := 34 :: key ++ [34]

/-- What stands behind the first colon behind the key. -/
def behindKey (body key : Bytes) : Option Bytes := do
  let behind ← findBehind (quoted key) body
  let colon ← Delimited.cut 58 behind
  some colon.2

/-- The digits of `request_id`. -/
def isIdByte (b : UInt8) : Bool := isDecimalDigit b ∨ b = 45 ∨ b = 46

/-- `request_id`. -/
def requestId (body : Bytes) : Bytes :=
  match (behindKey body (ascii "id")).map (List.dropWhile isBlank) with
  | none | some [] => ascii "null"
  | some (34 :: rest) =>
    match Delimited.cut 34 rest with
    | none => ascii "null"
    | some (text, _) => quoted text
  | some text => text.takeWhile isIdByte

/-- `request_string`. -/
def requestString (body key : Bytes) : Bytes :=
  match behindKey body key with
  | none => []
  | some rest =>
    match Delimited.cut 34 rest with
    | none => []
    | some (_, rest) =>
      match Delimited.cut 34 rest with
      | none => []
      | some (text, _) => text

/-- `isxdigit`, as what the digits of `std::stoull` in base 16 are. -/
def isHexDigit (b : UInt8) : Bool := (hexValue b).isSome

/-- The number that `request_number` reads from a text: in base 16 behind `0x`; zero for what
`std::stoull` throws at. -/
def readNumber (text : Bytes) : UInt64 :=
  match text with
  | 48 :: 120 :: digits =>
    let value := strtolDigits 0 digits
    if 2 ^ 64 ≤ value then 0 else UInt64.ofNat value
  | _ =>
    match stoull text with
    | .ok value => UInt64.ofNat value
    | .error _ => 0

/-- `request_number`. -/
def requestNumber (body key : Bytes) : UInt64 :=
  match (behindKey body key).map (List.dropWhile isBlank) with
  | none | some [] => 0
  | some (34 :: rest) =>
    match Delimited.cut 34 rest with
    | none => 0
    | some (text, _) => readNumber text
  | some text => readNumber (text.takeWhile fun b => isDecimalDigit b ∨ b = 120 ∨ isHexDigit b)

/-- The sign that `std::stoul` skips. -/
def skipSign : Bytes → Bytes
  | [] => []
  | b :: rest => if b = 43 ∨ b = 45 then rest else b :: rest

/-- `std::stoul` in base 16 on two bytes, cut to a byte; nothing where it throws. -/
def stoulHex (pair : Bytes) : Option UInt8 :=
  match skipSign (pair.dropWhile isSpace) with
  | [] => none
  | d :: _ => if isHexDigit d then some (UInt8.ofInt (strtol pair)) else none

/-- The loop of `hex_to_bytes`: a pair that is no number is left out, an odd last byte is dropped. -/
def hexPairs : Bytes → Bytes
  | c :: d :: rest => (stoulHex [c, d]).toList ++ hexPairs rest
  | _ => []

/-- `hex_to_bytes`. -/
def hexToBytes (hex : Bytes) : Bytes :=
  match hex with
  | 48 :: 120 :: s => hexPairs s
  | s => hexPairs s

/-- `bytes_to_hex`. -/
def bytesToHex (bytes : Bytes) : Bytes := hashToHex bytes

end Mermai.Rpc
