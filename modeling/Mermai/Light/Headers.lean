import Mermai.Core.Sign
import Mermai.Light.Client
import Mathlib.Data.List.Chain

/-!
# Light.Headers — what the light client's list of headers is worth

Two things a light client has to do with headers, and what the code makes of them.

* Signatures: `mermai_block_header::verify_signature` checks the signature against a text of five
  fields, `mermai_block::sign` signs the whole encoding.  The two strings never have the same length
  (`payload_length_lt`), so no header of a signed block is taken over.
* Links: `sync_header` looks at the height only, modulo 2³².  The list is a hash-linked chain exactly
  when every header that passes happens to name the tip (`headerChain_iff`).
-/

namespace Mermai

open Codec

variable {K : Type}

/-! ## One call -/

/-- **Inversion** of `sync_header`. -/
theorem LightClient.syncHeader_cases (C : Crypto) (c : LightClient) (h : BlockHeader) :
    (¬ (c.extendsHeaders h = true ∧ h.verifySignature C = true) ∧ c.syncHeader C h = (false, c)) ∨
    (c.extendsHeaders h = true ∧ h.verifySignature C = true ∧ (c.syncHeader C h).1 = true ∧
      (c.syncHeader C h).2.headers = c.headers ++ [h] ∧
      (c.syncHeader C h).2.headersByHeight =
        Function.update c.headersByHeight h.height (some h)) := by
  unfold LightClient.syncHeader
  by_cases he : c.extendsHeaders h = true
  · by_cases hv : h.verifySignature C = true
    · rw [if_neg (not_not.mpr he), if_neg (not_not.mpr hv)]
      exact .inr ⟨he, hv, rfl, rfl, rfl⟩
    · rw [if_neg (not_not.mpr he), if_pos hv]
      exact .inl ⟨fun h => hv h.2, rfl⟩
  · rw [if_pos he]
    exact .inl ⟨fun h => he h.1, rfl⟩

theorem BlockHeader.verifySignature_eq_false {C : Crypto} {h : BlockHeader}
    (hkey : h.validatorPublicKey ≠ []) (hsig : h.validatorSignature ≠ [])
    (hv : ¬ C.digestVerify h.validatorPublicKey h.payload h.validatorSignature = true) :
    h.verifySignature C = false := by
  unfold BlockHeader.verifySignature
  rw [if_neg (not_or.mpr ⟨hkey, hsig⟩)]
  simp [hv]

/-! ## The two payloads -/

theorem decimal_length_le {n k : ℕ} (hk : 0 < k) (h : n < 10 ^ k) : (decimal n).length ≤ k := by
  rw [decimal, List.length_map]
  exact (Nat.length_toDigits_le_iff (by omega) hk).mpr h

/-- The text the header's check verifies is shorter than the payload that was signed. -/
theorem payload_length_lt (C : Crypto) (b : Block) :
    (b.header C).payload.length < b.signingPayload.length := by
  have hheight : (decimal b.height.toNat).length ≤ 10 :=
    decimal_length_le (by omega) (lt_trans b.height.toNat_lt (by norm_num))
  have htime : (decimal b.timestamp.toNat).length ≤ 20 :=
    decimal_length_le (by omega) (lt_trans b.timestamp.toNat_lt (by norm_num))
  simp only [BlockHeader.payload, Block.header, Block.signingPayload, Block.serialize, writeString,
    writeBytes, writeU32, writeU64, writeCounted, List.length_append, List.length_cons,
    List.length_nil, writeSized_length, writeBE_length]
  omega

/-- **Signed blocks are refused**: in a perfect signature scheme the node accepts the signature of
every block signed with the key it carries, and the light client takes over the header of none of
them, whatever headers it has. -/
theorem signed_header_refused (C : Crypto) (S : Signer K) (hS : IdealSignatures C S)
    (c : LightClient) (b : Block) (k : K) (random : Bytes)
    (hsign : (b.sign S (some k) random).1 = true)
    (hkey : (b.sign S (some k) random).2.validatorPublicKey = S.i2dPubkey k) :
    (b.sign S (some k) random).2.verifyValidatorSignature C = true ∧
      c.syncHeaderFromBlock C (b.sign S (some k) random).2 = (false, c) := by
  refine ⟨Block.verifyValidatorSignature_sign hS hsign hkey, ?_⟩
  have hsig := Block.sign_eq_true hsign
  generalize (b.sign S (some k) random).2 = signed at hkey hsig ⊢
  have hrefuse : ¬ C.digestVerify signed.validatorPublicKey (signed.header C).payload
      signed.validatorSignature = true := by
    intro hv
    obtain ⟨k', random', hk', hsig'⟩ := (hS.verify_iff _ _ _).mp hv
    -- the signature would be one of the header's text as well as of the block's payload
    have heq := hS.message_inj (hk'.trans hkey) hsig' hsig
    have hlt := payload_length_lt C signed
    rw [heq] at hlt
    exact lt_irrefl _ hlt
  have hne : signed.validatorPublicKey ≠ [] := by
    rw [hkey]
    exact hS.pubkey_ne k
  have hfalse : (signed.header C).verifySignature C = false :=
    BlockHeader.verifySignature_eq_false hne (hS.signature_ne hsig) hrefuse
  rcases c.syncHeader_cases C (signed.header C) with ⟨-, h⟩ | ⟨-, hv, -⟩
  · exact h
  · rw [hfalse] at hv
    cases hv

theorem signed_header_refused_first :
    (firstBlock.sign taggedSigner (some 7) []).2.verifyValidatorSignature taggedCrypto = true ∧
      LightClient.syncHeaderFromBlock taggedCrypto {} (firstBlock.sign taggedSigner (some 7) []).2 =
        (false, {}) :=
  signed_header_refused taggedCrypto taggedSigner tagged_ideal {} firstBlock 7 [] rfl rfl

/-- A signed block of height 1, and a light client without headers. -/
theorem signed_header_lost : IdealSignatures taggedCrypto taggedSigner ∧
    (firstBlock.sign taggedSigner (some 7) []).1 = true ∧
    (firstBlock.sign taggedSigner (some 7) []).2.validatorPublicKey = taggedSigner.i2dPubkey 7 ∧
    (LightClient.syncHeaderFromBlock taggedCrypto {}
      (firstBlock.sign taggedSigner (some 7) []).2).1 = false :=
  ⟨tagged_ideal, rfl, rfl, by decide +kernel⟩

/-! ## Runs -/

/-- A call that hands a header to the light client. -/
inductive SyncCall
  | syncHeader (h : BlockHeader)
  | syncHeaderFromBlock (b : Block)

/-- The header of the call. -/
def SyncCall.presents (C : Crypto) : SyncCall → BlockHeader
  | .syncHeader h => h
  | .syncHeaderFromBlock b => b.header C

/-- The client after a call. -/
def LightClient.call (C : Crypto) (c : LightClient) : SyncCall → LightClient
  | .syncHeader h => (c.syncHeader C h).2
  | .syncHeaderFromBlock b => (c.syncHeaderFromBlock C b).2

/-- A new client after a list of calls. -/
def LightClient.run (C : Crypto) (calls : List SyncCall) : LightClient :=
  calls.foldl (LightClient.call C) {}

/-- `mermai_light_client::get_header`. -/
def LightClient.getHeader (c : LightClient) (height : UInt32) : Option BlockHeader :=
  c.headersByHeight height

theorem LightClient.call_eq (C : Crypto) (c : LightClient) (call : SyncCall) :
    c.call C call = (c.syncHeader C (call.presents C)).2 := by
  cases call <;> rfl

theorem LightClient.run_concat (C : Crypto) (calls : List SyncCall) (call : SyncCall) :
    LightClient.run C (calls ++ [call]) = (LightClient.run C calls).call C call := by
  rw [LightClient.run, List.foldl_append]
  rfl

/-! ## The chain of headers -/

/-- `h'` is the header after `h`. -/
def BlockHeader.Follows (h h' : BlockHeader) : Prop :=
  h'.prevBlockHash = h.hash ∧ h'.height.toNat = h.height.toNat + 1

/-- The headers are a hash-linked chain, and `get_header` finds its members by their height. -/
structure HeaderChain (c : LightClient) : Prop where
  linked : c.headers.IsChain BlockHeader.Follows
  found : ∀ height h, c.getHeader height = some h ↔ h ∈ c.headers ∧ h.height = height

/-- What `sync_header` does not check: a header that passes names the tip, and the height of the tip
has a successor in 32 bits. -/
def LightClient.NamesTip (C : Crypto) (c : LightClient) (h : BlockHeader) : Prop :=
  ∀ tip, c.headers.getLast? = some tip → h.height = tip.height + 1 →
    h.verifySignature C = true → h.prevBlockHash = tip.hash ∧ tip.height.toNat + 1 < 2 ^ 32

theorem toNat_eq_succ_iff {x y : UInt32} (h : x = y + 1) :
    x.toNat = y.toNat + 1 ↔ y.toNat + 1 < 2 ^ 32 := by
  have hx := x.toNat_lt
  subst h
  rw [UInt32.toNat_add, UInt32.toNat_one] at *
  omega

/-- **One call**: the list stays linked exactly when the header of the call names the tip. -/
theorem LightClient.linked_call (C : Crypto) (c : LightClient) (call : SyncCall) :
    (c.call C call).headers.IsChain BlockHeader.Follows ↔
      c.headers.IsChain BlockHeader.Follows ∧ c.NamesTip C (call.presents C) := by
  rw [LightClient.call_eq]
  generalize call.presents C = h
  rcases c.syncHeader_cases C h with ⟨hno, heq⟩ | ⟨hext, hver, -, heq, -⟩
  · rw [heq]
    refine ⟨fun hc => ⟨hc, ?_⟩, fun hc => hc.1⟩
    intro tip htip hheight hver
    have hext : c.extendsHeaders h = true := by simp [LightClient.extendsHeaders, htip, hheight]
    exact absurd ⟨hext, hver⟩ hno
  · rw [heq, List.isChain_append]
    have hstep : ∀ tip, c.headers.getLast? = some tip → h.height = tip.height + 1 := by
      intro tip htip
      simpa [LightClient.extendsHeaders, htip] using hext
    constructor
    · rintro ⟨hc, -, hlast⟩
      refine ⟨hc, ?_⟩
      intro tip htip hheight _
      obtain ⟨hprev, hsucc⟩ := hlast tip htip h rfl
      exact ⟨hprev, (toNat_eq_succ_iff hheight).mp hsucc⟩
    · rintro ⟨hc, hnames⟩
      refine ⟨hc, List.isChain_singleton h, ?_⟩
      rintro tip htip _ ⟨⟩
      obtain ⟨hprev, hlt⟩ := hnames tip htip (hstep tip htip) hver
      exact ⟨hprev, (toNat_eq_succ_iff (hstep tip htip)).mpr hlt⟩

/-- **A run**: the list is linked exactly when every header on the way names the tip. -/
theorem LightClient.linked_run (C : Crypto) (calls : List SyncCall) :
    (LightClient.run C calls).headers.IsChain BlockHeader.Follows ↔
      ∀ done call, done ++ [call] <+: calls →
        (LightClient.run C done).NamesTip C (call.presents C) := by
  induction calls using List.reverseRecOn with
  | nil => simp [LightClient.run]
  | append_singleton calls call ih =>
    rw [LightClient.run_concat, LightClient.linked_call, ih]
    constructor
    · rintro ⟨hold, hnew⟩ done call' hpre
      rcases List.prefix_concat_iff.mp hpre with heq | hpre'
      · obtain ⟨rfl, h⟩ := List.append_inj' heq rfl
        cases h
        exact hnew
      · exact hold done call' hpre'
    · intro hall
      refine ⟨fun done call' hpre => ?_, hall calls call List.prefix_rfl⟩
      exact hall done call' (hpre.trans (List.prefix_append calls [call]))

/-- In every run the map by height holds the last header of each height. -/
theorem LightClient.getHeader_run (C : Crypto) (calls : List SyncCall) (height : UInt32) :
    (LightClient.run C calls).getHeader height =
      (LightClient.run C calls).headers.reverse.find? fun h => h.height = height := by
  induction calls using List.reverseRecOn with
  | nil => rfl
  | append_singleton calls call ih =>
    rw [LightClient.run_concat, LightClient.call_eq]
    generalize call.presents C = h
    generalize LightClient.run C calls = c at ih ⊢
    rcases c.syncHeader_cases C h with ⟨-, heq⟩ | ⟨-, -, -, hheaders, hmap⟩
    · rw [heq]
      exact ih
    · rw [LightClient.getHeader, hmap, hheaders, List.reverse_concat, List.find?_cons]
      by_cases hh : h.height = height
      · subst hh
        simp
      · rw [Function.update_of_ne (Ne.symm hh)]
        simpa [hh, LightClient.getHeader] using ih

/-- In a linked list no height occurs twice. -/
theorem nodup_heights {headers : List BlockHeader} (h : headers.IsChain BlockHeader.Follows) :
    (headers.map BlockHeader.height).Nodup := by
  have hlt : headers.IsChain fun h h' : BlockHeader => h.height.toNat < h'.height.toNat := by
    refine h.imp ?_
    rintro a b ⟨-, hab⟩
    omega
  have htrans : IsTrans BlockHeader fun h h' => h.height.toNat < h'.height.toNat :=
    ⟨fun _ _ _ => lt_trans⟩
  refine List.Pairwise.map _ ?_ (List.isChain_iff_pairwise.mp hlt)
  intro a b hab heq
  rw [heq] at hab
  exact lt_irrefl _ hab

/-- **When the headers are a chain**: after every run of calls with any headers, exactly when each
header that passed the checks of `sync_header` names the tip it was put on. -/
theorem headerChain_iff (C : Crypto) (calls : List SyncCall) :
    HeaderChain (LightClient.run C calls) ↔
      ∀ done call, done ++ [call] <+: calls →
        (LightClient.run C done).NamesTip C (call.presents C) := by
  rw [← LightClient.linked_run]
  refine ⟨HeaderChain.linked, fun hlinked => ⟨hlinked, ?_⟩⟩
  intro height h
  have hnodup := nodup_heights hlinked
  rw [LightClient.getHeader_run]
  constructor
  · intro hfind
    refine ⟨List.mem_reverse.mp (List.mem_of_find?_eq_some hfind), ?_⟩
    simpa using List.find?_some hfind
  · rintro ⟨hmem, rfl⟩
    obtain ⟨h', hfind⟩ : ∃ h', (LightClient.run C calls).headers.reverse.find?
        (fun x => x.height = h.height) = some h' :=
      Option.isSome_iff_exists.mp
        (List.find?_isSome.mpr ⟨h, List.mem_reverse.mpr hmem, by simp⟩)
    have hheight : h'.height = h.height := by simpa using List.find?_some hfind
    have hmem' := List.mem_reverse.mp (List.mem_of_find?_eq_some hfind)
    rw [hfind, List.inj_on_of_nodup_map hnodup hmem' hmem hheight]

/-- Two unsigned headers of heights 1 and 2; the second names a block that the client never saw. -/
def strayCalls : List SyncCall :=
  [.syncHeader { height := 1, hash := [97], prevBlockHash := [103] },
   .syncHeader { height := 2, hash := [98], prevBlockHash := [122] }]

theorem strayCalls_not_chain : (LightClient.run polyCrypto strayCalls).headers.length = 2 ∧
    ¬ HeaderChain (LightClient.run polyCrypto strayCalls) := by
  refine ⟨rfl, ?_⟩
  intro h
  have hlinked := h.linked
  simp [LightClient.run, strayCalls, LightClient.call, LightClient.syncHeader,
    LightClient.extendsHeaders, BlockHeader.verifySignature, BlockHeader.Follows] at hlinked

end Mermai
