import Mermai.Node.Wire

/-!
# Node.Stream — messages out of the chunks of a connection

The network hands a connection its bytes in chunks, and a call of `recv` gives at most one of them.
`receive_all` calls it until it has what it asked for, so that over non-empty chunks it takes the bytes
from the front of their concatenation, wherever the cuts are (`receiveAll_spec`).  `receive_message` over
chunks is then `receive_message` over the whole stream (`receiveChunked_eq`), and one call a message gives
back every list of messages that was sent (`framing_survives`).
-/

namespace Mermai

open Codec

/-! ## Reading from chunks -/

/-- `recv` of at most `size` bytes: nothing at the end of the connection, else from the first chunk. -/
def recv (size : ℕ) : List Bytes → Bytes × List Bytes
  | [] => ([], [])
  | chunk :: chunks =>
    if chunk.length ≤ size then (chunk, chunks) else (chunk.take size, chunk.drop size :: chunks)

theorem recv_length_le (size : ℕ) (chunks : List Bytes) : (recv size chunks).1.length ≤ size := by
  cases chunks with
  | nil => exact Nat.zero_le size
  | cons chunk chunks =>
    rw [recv]
    split_ifs with h
    · exact h
    · exact List.length_take_le size chunk

/-- `receive_all`: the bytes, or nothing when the connection ends before, and the chunks that are left. -/
def receiveAll (size : ℕ) (chunks : List Bytes) : Option Bytes × List Bytes :=
  if _ : size = 0 then (some [], chunks)
  else
    let received := recv size chunks
    if _ : received.1 = [] then (none, received.2)
    else
      let rest := receiveAll (size - received.1.length) received.2
      (rest.1.map (received.1 ++ ·), rest.2)
termination_by size
decreasing_by
  have hpos := List.length_pos_iff.mpr ‹¬ received.1 = []›
  show size - received.1.length < size
  omega

/-- `mermai_peer::receive_message` over the chunks of a connection. -/
def receiveChunked (junk : UInt8) (chunks : List Bytes) : P2PMessage × List Bytes :=
  match receiveAll 5 chunks with
  | (none, rest) => (⟨junk, []⟩, rest)
  | (some header, rest) =>
    let payloadSize := ofBE (header.drop 1)
    if payloadSize > maxP2PMessageSize then (⟨junk, []⟩, rest)
    else
      match if payloadSize = 0 then (some [], rest) else receiveAll payloadSize rest with
      | (none, rest) => (⟨0, []⟩, rest)
      | (some payload, rest) =>
        ((P2PMessage.deserialize junk (header ++ payload)).getD ⟨junk, []⟩, rest)

/-- `n` calls of `receive_message`. -/
def receiveEach (junk : UInt8) : ℕ → List Bytes → List P2PMessage × List Bytes
  | 0, chunks => ([], chunks)
  | n + 1, chunks =>
    let received := receiveChunked junk chunks
    let later := receiveEach junk n received.2
    (received.1 :: later.1, later.2)

/-! ## Chunks and their concatenation -/

/-- Chunks that the network hands over: none is empty, and together they are the stream. -/
structure Splits (chunks : List Bytes) (stream : Bytes) : Prop where
  nonempty : ∀ chunk ∈ chunks, chunk ≠ []
  flatten : chunks.flatten = stream

theorem Splits.eq_nil {chunks : List Bytes} (h : Splits chunks []) : chunks = [] := by
  obtain ⟨hne, hflat⟩ := h
  cases chunks with
  | nil => rfl
  | cons chunk chunks =>
    rw [List.flatten_cons, List.append_eq_nil_iff] at hflat
    exact absurd hflat.1 (hne chunk List.mem_cons_self)

/-- What `recv` gives is a front part of the stream, and the chunks behind it split the rest. -/
theorem Splits.recv {chunks : List Bytes} {stream : Bytes} (h : Splits chunks stream) {size : ℕ}
    (hsize : 0 < size) :
    stream = (Mermai.recv size chunks).1 ++ (Mermai.recv size chunks).2.flatten ∧
      Splits (Mermai.recv size chunks).2 (Mermai.recv size chunks).2.flatten ∧
      ((Mermai.recv size chunks).1 = [] ↔ stream = []) := by
  obtain ⟨hne, rfl⟩ := h
  cases chunks with
  | nil => exact ⟨rfl, ⟨fun _ h => (by cases h), rfl⟩, Iff.rfl⟩
  | cons chunk chunks =>
    have hchunk := hne chunk List.mem_cons_self
    have hlater : ∀ c ∈ chunks, c ≠ [] := fun c hc => hne c (List.mem_cons_of_mem _ hc)
    have hstream : (chunk :: chunks).flatten ≠ [] := by
      rw [List.flatten_cons]
      exact List.append_ne_nil_of_left_ne_nil hchunk _
    rw [Mermai.recv]
    split_ifs with hle
    · exact ⟨List.flatten_cons, ⟨hlater, rfl⟩, iff_of_false hchunk hstream⟩
    · refine ⟨?_, ⟨fun c hc => ?_, rfl⟩, iff_of_false ?_ hstream⟩
      · rw [List.flatten_cons, List.flatten_cons, ← List.append_assoc, List.take_append_drop]
      · rcases List.mem_cons.mp hc with rfl | hc
        · rw [Ne, List.drop_eq_nil_iff]
          exact hle
        · exact hlater c hc
      · rw [List.take_eq_nil_iff, not_or]
        exact ⟨hsize.ne', hchunk⟩

/-- **Partial reads**: over non-empty chunks `receive_all` takes its bytes from the front of the stream,
wherever the cuts are, and fails exactly when the stream is too short. -/
theorem receiveAll_spec (size : ℕ) {chunks : List Bytes} {stream : Bytes} (h : Splits chunks stream) :
    (receiveAll size chunks).1 = (if size ≤ stream.length then some (stream.take size) else none) ∧
      Splits (receiveAll size chunks).2 (stream.drop size) := by
  induction size using Nat.strong_induction_on generalizing chunks stream with
  | _ size ih =>
    rw [receiveAll]
    by_cases hzero : size = 0
    · rw [dif_pos hzero, hzero, if_pos (Nat.zero_le _)]
      exact ⟨rfl, h⟩
    rw [dif_neg hzero]
    obtain ⟨hstream, hsplits, hend⟩ := h.recv (Nat.pos_of_ne_zero hzero)
    have hle := recv_length_le size chunks
    dsimp only
    generalize recv size chunks = received at hstream hsplits hend hle ⊢
    obtain ⟨data, rest⟩ := received
    dsimp only at hstream hsplits hend hle ⊢
    by_cases hnone : data = []
    · -- the connection has ended
      have hnil := hend.mp hnone
      rw [dif_pos hnone, hnil, List.length_nil, if_neg (by omega), List.drop_nil]
      rw [hstream, hnone, List.nil_append] at hnil
      rw [hnil] at hsplits
      exact ⟨rfl, hsplits⟩
    · have hpos := List.length_pos_iff.mpr hnone
      obtain ⟨hgot, hrest⟩ := ih (size - data.length) (by omega) hsplits
      rw [dif_neg hnone, hgot, hstream, List.length_append, List.take_append, List.drop_append,
        List.take_of_length_le hle, List.drop_of_length_le hle, List.nil_append]
      refine ⟨?_, hrest⟩
      by_cases henough : size - data.length ≤ rest.flatten.length
      · rw [if_pos henough, if_pos (by omega)]
        rfl
      · rw [if_neg henough, if_neg (by omega)]
        rfl

/-! ## Messages -/

/-- **Cuts do not matter**: over chunks `receive_message` gives the message that it gives over the whole
stream, and leaves chunks of what it leaves there. -/
theorem receiveChunked_eq (junk : UInt8) {chunks : List Bytes} {stream : Bytes}
    (h : Splits chunks stream) :
    (receiveChunked junk chunks).1 = (receiveMessage junk stream).1 ∧
      Splits (receiveChunked junk chunks).2 (receiveMessage junk stream).2 := by
  obtain ⟨hheader, hrest⟩ := receiveAll_spec 5 h
  unfold receiveChunked receiveMessage
  generalize receiveAll 5 chunks = first at hheader hrest ⊢
  obtain ⟨header, rest⟩ := first
  dsimp only at hheader hrest ⊢
  subst hheader
  by_cases hfive : stream.length < 5
  · rw [if_neg (by omega), if_pos hfive]
    rw [List.drop_of_length_le (by omega)] at hrest
    exact ⟨rfl, hrest⟩
  rw [if_pos (by omega), if_neg hfive]
  dsimp only
  by_cases hlarge : ofBE ((stream.take 5).drop 1) > maxP2PMessageSize
  · rw [if_pos hlarge, if_pos hlarge]
    exact ⟨rfl, hrest⟩
  rw [if_neg hlarge, if_neg hlarge]
  -- an empty payload is not asked for, which `receive_all` would answer in the same way
  have hpayload : (if ofBE ((stream.take 5).drop 1) = 0 then (some [], rest)
      else receiveAll (ofBE ((stream.take 5).drop 1)) rest) =
      receiveAll (ofBE ((stream.take 5).drop 1)) rest := by
    split_ifs with hzero
    · rw [hzero, receiveAll, dif_pos rfl]
    · rfl
  rw [hpayload]
  obtain ⟨hgot, hleft⟩ := receiveAll_spec (ofBE ((stream.take 5).drop 1)) hrest
  generalize receiveAll (ofBE ((stream.take 5).drop 1)) rest = second at hgot hleft ⊢
  obtain ⟨payload, rest'⟩ := second
  dsimp only at hgot hleft ⊢
  subst hgot
  by_cases hshort : (stream.drop 5).length < ofBE ((stream.take 5).drop 1)
  · rw [if_neg (by omega), if_pos hshort]
    rw [List.drop_of_length_le (by omega)] at hleft
    exact ⟨rfl, hleft⟩
  · rw [if_pos (by omega), if_neg hshort]
    exact ⟨rfl, hleft⟩

/-- **Framing survives any stream**: messages up to the limit, sent one behind the other and cut into
chunks anywhere, arrive as they were sent, and nothing is left. -/
theorem framing_survives (junk : UInt8) {messages : List P2PMessage} {chunks : List Bytes}
    (hlimit : ∀ m ∈ messages, m.payload.length ≤ maxP2PMessageSize)
    (hsplits : Splits chunks (messages.flatMap P2PMessage.serialize)) :
    receiveEach junk messages.length chunks = (messages, []) := by
  induction messages generalizing chunks with
  | nil => rw [hsplits.eq_nil]; rfl
  | cons m messages ih =>
    rw [List.flatMap_cons] at hsplits
    obtain ⟨hmessage, hrest⟩ := receiveChunked_eq junk hsplits
    rw [receiveMessage_serialize junk (hlimit m List.mem_cons_self)] at hmessage hrest
    have hlater := ih (fun m' hm' => hlimit m' (List.mem_cons_of_mem _ hm')) hrest
    rw [List.length_cons, receiveEach, hlater, hmessage]

/-- Two messages in three chunks, with cuts in the first header and in the second payload. -/
theorem framing_survives_cut :
    receiveEach 7 2 [[0xF0, 0, 0], [0, 0, 0x21, 0, 0, 0, 2, 8], [9]] =
      ([⟨0xF0, []⟩, ⟨0x21, [8, 9]⟩], []) :=
  @framing_survives 7 [⟨0xF0, []⟩, ⟨0x21, [8, 9]⟩] _ (by decide) ⟨by decide, by decide⟩

end Mermai
