import Chainname.Library.Rlp
import Chainname.Net.Message

/-!
# The wire format

A message is a one-byte discriminant followed by its body in RLP. The decoder limits the
collections it accepts: a list of hashes, a batch of blocks, the transactions of a block.

`decodeFromSlice_encodeToVec_iff`: what is encoded is decoded again exactly when it is within
these limits.
-/

namespace Chainname

open Rlp (encode decode)

/-! ### Records -/

section Records

instance b256Codec : Rlp.Codec B256 := Rlp.fixedCodec 32 (2 ^ 256) (by norm_num)

instance addressCodec : Rlp.Codec Address := Rlp.fixedCodec 20 (2 ^ 160) (by norm_num)

/-- The fields of a header, in order. -/
def Header.fields (h : Header) : List (List UInt8) :=
  [encode h.version, encode h.parents, encode h.timestampMs, encode h.bits, encode h.nonce,
    encode h.miner, encode h.txsRoot, encode h.deferredHeight, encode h.deferredStateRoot,
    encode h.deferredReceiptsRoot, encode h.deferredGasUsed]

/-- Reads a header. -/
def Header.decode (bytes : List UInt8) : Option (Header × List UInt8) :=
  (Rlp.decodeItem true bytes).bind fun (payload, after) =>
  (Rlp.decode payload).bind fun (version, rest) =>
  (Rlp.decode rest).bind fun (parents, rest) =>
  (Rlp.decode rest).bind fun (timestampMs, rest) =>
  (Rlp.decode rest).bind fun (bits, rest) =>
  (Rlp.decode rest).bind fun (nonce, rest) =>
  (Rlp.decode rest).bind fun (miner, rest) =>
  (Rlp.decode rest).bind fun (txsRoot, rest) =>
  (Rlp.decode rest).bind fun (deferredHeight, rest) =>
  (Rlp.decode rest).bind fun (deferredStateRoot, rest) =>
  (Rlp.decode rest).bind fun (deferredReceiptsRoot, rest) =>
  (Rlp.decode rest).bind fun (deferredGasUsed, rest) =>
  if rest = [] then
    some ({ version, parents, timestampMs, bits, nonce, miner, txsRoot, deferredHeight,
            deferredStateRoot, deferredReceiptsRoot, deferredGasUsed }, after)
  else none

/-- A field is no longer than its record. -/
theorem length_le_of_mem_flatten {fields : List (List UInt8)} {field : List UInt8}
    (h : field ∈ fields) : field.length ≤ (Rlp.encodeList fields.flatten).length :=
  (List.Sublist.length_le (List.sublist_flatten_of_mem h)).trans
    (Rlp.length_le_length_encodeList _)

instance headerCodec : Rlp.Codec Header where
  encode h := Rlp.encodeList h.fields.flatten
  decode := Header.decode
  encode_ne_nil h := Rlp.encodeList_ne_nil _
  decode_encode h rest hlen := by
    have hfield : ∀ field ∈ h.fields, field.length < 2 ^ 64 :=
      fun field hmem => (length_le_of_mem_flatten hmem).trans_lt hlen
    unfold Header.fields at hfield
    simp only [List.forall_mem_cons] at hfield
    obtain ⟨h₁, h₂, h₃, h₄, h₅, h₆, h₇, h₈, h₉, h₁₀, h₁₁, -⟩ := hfield
    have hpayload := (Rlp.length_le_length_encodeList h.fields.flatten).trans_lt hlen
    unfold Header.decode
    rw [Rlp.bind_decodeItem_encodeList _ _ _ hpayload]
    unfold Header.fields
    -- each field is read back in turn, with the rest of the payload after it
    refine (Rlp.bind_decode_encode _ _ _ h₁).trans ?_
    refine (Rlp.bind_decode_encode _ _ _ h₂).trans ?_
    refine (Rlp.bind_decode_encode _ _ _ h₃).trans ?_
    refine (Rlp.bind_decode_encode _ _ _ h₄).trans ?_
    refine (Rlp.bind_decode_encode _ _ _ h₅).trans ?_
    refine (Rlp.bind_decode_encode _ _ _ h₆).trans ?_
    refine (Rlp.bind_decode_encode _ _ _ h₇).trans ?_
    refine (Rlp.bind_decode_encode _ _ _ h₈).trans ?_
    refine (Rlp.bind_decode_encode _ _ _ h₉).trans ?_
    refine (Rlp.bind_decode_encode _ _ _ h₁₀).trans ?_
    exact (Rlp.bind_decode_encode _ _ _ h₁₁).trans rfl

/-- The fields of a block. -/
def BlockPayload.fields (block : BlockPayload) : List (List UInt8) :=
  [encode block.header, encode block.transactions]

/-- Reads a block. -/
def BlockPayload.decode (bytes : List UInt8) : Option (BlockPayload × List UInt8) :=
  (Rlp.decodeItem true bytes).bind fun (payload, after) =>
  (Rlp.decode payload).bind fun (header, rest) =>
  (Rlp.decode rest).bind fun (transactions, rest) =>
  if rest = [] then some ({ header, transactions }, after) else none

instance blockPayloadCodec : Rlp.Codec BlockPayload where
  encode block := Rlp.encodeList block.fields.flatten
  decode := BlockPayload.decode
  encode_ne_nil block := Rlp.encodeList_ne_nil _
  decode_encode block rest hlen := by
    have hfield : ∀ field ∈ block.fields, field.length < 2 ^ 64 :=
      fun field hmem => (length_le_of_mem_flatten hmem).trans_lt hlen
    unfold BlockPayload.fields at hfield
    simp only [List.forall_mem_cons] at hfield
    obtain ⟨h₁, h₂, -⟩ := hfield
    have hpayload := (Rlp.length_le_length_encodeList block.fields.flatten).trans_lt hlen
    unfold BlockPayload.decode
    rw [Rlp.bind_decodeItem_encodeList _ _ _ hpayload]
    unfold BlockPayload.fields
    simp only [List.flatten_cons, List.flatten_nil, Rlp.bind_decode_encode, h₁, h₂, if_true]

/-- The payload of `Version`. -/
structure VersionPayload where
  version : UInt32
  genesis : BlockHash
  tips : List BlockHash

/-- The fields of the payload of `Version`. -/
def VersionPayload.fields (payload : VersionPayload) : List (List UInt8) :=
  [encode payload.version, encode payload.genesis, encode payload.tips]

/-- Reads the payload of `Version`. -/
def VersionPayload.decode (bytes : List UInt8) : Option (VersionPayload × List UInt8) :=
  (Rlp.decodeItem true bytes).bind fun (payload, after) =>
  (Rlp.decode payload).bind fun (version, rest) =>
  (Rlp.decode rest).bind fun (genesis, rest) =>
  (Rlp.decode rest).bind fun (tips, rest) =>
  if rest = [] then some ({ version, genesis, tips }, after) else none

instance versionPayloadCodec : Rlp.Codec VersionPayload where
  encode payload := Rlp.encodeList payload.fields.flatten
  decode := VersionPayload.decode
  encode_ne_nil payload := Rlp.encodeList_ne_nil _
  decode_encode payload rest hlen := by
    have hfield : ∀ field ∈ payload.fields, field.length < 2 ^ 64 :=
      fun field hmem => (length_le_of_mem_flatten hmem).trans_lt hlen
    unfold VersionPayload.fields at hfield
    simp only [List.forall_mem_cons] at hfield
    obtain ⟨h₁, h₂, h₃, -⟩ := hfield
    have hpayload := (Rlp.length_le_length_encodeList payload.fields.flatten).trans_lt hlen
    unfold VersionPayload.decode
    rw [Rlp.bind_decodeItem_encodeList _ _ _ hpayload]
    unfold VersionPayload.fields
    simp only [List.flatten_cons, List.flatten_nil, Rlp.bind_decode_encode, h₁, h₂, h₃, if_true]

end Records

/-! ### Messages -/

/-- Reasons a message could not be decoded. -/
inductive CodecError where
  /-- The frame was empty. -/
  | empty
  /-- The discriminant is not one this version understands. -/
  | unknownTag (tag : UInt8)
  /-- RLP decoding failed. -/
  | rlp
  /-- A collection exceeded its protocol limit. -/
  | tooManyEntries (what : String) (found limit : ℕ)
  /-- Bytes remained after a complete message. -/
  | trailingBytes (count : ℕ)
  deriving DecidableEq

namespace Message

/-- The discriminant byte of a message. -/
def tag : Message → UInt8
  | .version _ _ _ => 0x01
  | .verack => 0x02
  | .ping _ => 0x03
  | .pong _ => 0x04
  | .getTips => 0x05
  | .tips _ => 0x06
  | .invBlocks _ => 0x07
  | .getBlocks _ => 0x08
  | .blocks _ => 0x09
  | .invTxs _ => 0x0a
  | .getTxs _ => 0x0b

/-- The body of a message. -/
def body : Message → List UInt8
  | .version v genesis hashes => encode (⟨v, genesis, hashes⟩ : VersionPayload)
  | .verack | .getTips => []
  | .ping nonce | .pong nonce => encode nonce
  | .tips hashes | .invBlocks hashes | .getBlocks hashes | .invTxs hashes | .getTxs hashes =>
    encode hashes
  | .blocks batch => encode batch

/-- Encodes the message to bytes. -/
def encodeToVec (message : Message) : List UInt8 := message.tag :: message.body

/-- `check_len`. -/
def checkLen (found limit : ℕ) (what : String) : Except CodecError Unit :=
  if limit < found then .error (.tooManyEntries what found limit) else .ok ()

/-- An item in RLP, or the error that there is none. -/
def decodeRlp (α : Type) [Rlp.Codec α] (bytes : List UInt8) :
    Except CodecError (α × List UInt8) :=
  match decode bytes with
  | some item => .ok item
  | none => .error .rlp

/-- A list of hashes within the limit. -/
def decodeHashes (bytes : List UInt8) (what : String) :
    Except CodecError (List BlockHash × List UInt8) := do
  let (hashes, rest) ← decodeRlp (List BlockHash) bytes
  checkLen hashes.length maxInvEntries what
  pure (hashes, rest)

/-- The transactions of each block are within the limit. -/
def checkBodies : List BlockPayload → Except CodecError Unit
  | [] => .ok ()
  | block :: rest => do
    checkLen block.transactions.length maxTxsPerBlock "block.transactions"
    checkBodies rest

/-- Reads the body of a message. -/
def decodeBody (tag : UInt8) (bytes : List UInt8) : Except CodecError (Message × List UInt8) := do
  if tag = 0x01 then
    let (payload, rest) ← decodeRlp VersionPayload bytes
    checkLen payload.tips.length maxInvEntries "version.tips"
    pure (.version payload.version payload.genesis payload.tips, rest)
  else if tag = 0x02 then pure (.verack, bytes)
  else if tag = 0x05 then pure (.getTips, bytes)
  else if tag = 0x03 then
    let (nonce, rest) ← decodeRlp UInt64 bytes
    pure (.ping nonce, rest)
  else if tag = 0x04 then
    let (nonce, rest) ← decodeRlp UInt64 bytes
    pure (.pong nonce, rest)
  else if tag = 0x06 then
    let (hashes, rest) ← decodeHashes bytes "tips"
    pure (.tips hashes, rest)
  else if tag = 0x07 then
    let (hashes, rest) ← decodeHashes bytes "invblocks"
    pure (.invBlocks hashes, rest)
  else if tag = 0x08 then
    let (hashes, rest) ← decodeHashes bytes "getblocks"
    pure (.getBlocks hashes, rest)
  else if tag = 0x0a then
    let (hashes, rest) ← decodeHashes bytes "invtxs"
    pure (.invTxs hashes, rest)
  else if tag = 0x0b then
    let (hashes, rest) ← decodeHashes bytes "gettxs"
    pure (.getTxs hashes, rest)
  else if tag = 0x09 then
    let (batch, rest) ← decodeRlp (List BlockPayload) bytes
    checkLen batch.length maxBlockBatch "blocks"
    checkBodies batch
    pure (.blocks batch, rest)
  else .error (.unknownTag tag)

/-- Decodes a message from bytes. -/
def decodeFromSlice : List UInt8 → Except CodecError Message
  | [] => .error .empty
  | tag :: bytes => do
    let (message, rest) ← decodeBody tag bytes
    if rest = [] then pure message else .error (.trailingBytes rest.length)

/-- The collections of a message are within the limits of the protocol. -/
def WithinLimits : Message → Prop
  | .version _ _ hashes | .tips hashes | .invBlocks hashes | .getBlocks hashes | .invTxs hashes
  | .getTxs hashes => hashes.length ≤ maxInvEntries
  | .blocks batch => batch.length ≤ maxBlockBatch ∧
      ∀ block ∈ batch, block.transactions.length ≤ maxTxsPerBlock
  | .verack | .ping _ | .pong _ | .getTips => True

section RoundTrip

theorem checkLen_eq_ok_iff {found limit : ℕ} (what : String) :
    checkLen found limit what = .ok () ↔ found ≤ limit := by
  unfold checkLen
  split
  · next h => exact iff_of_false nofun (not_le.mpr h)
  · next h => exact iff_of_true rfl (not_lt.mp h)

theorem checkBodies_eq_ok_iff {batch : List BlockPayload} :
    checkBodies batch = .ok () ↔
      ∀ block ∈ batch, block.transactions.length ≤ maxTxsPerBlock := by
  induction batch with
  | nil => simp [checkBodies]
  | cons block batch ih =>
    unfold checkBodies
    rw [List.forall_mem_cons, ← ih, ← checkLen_eq_ok_iff "block.transactions"]
    cases checkLen block.transactions.length maxTxsPerBlock "block.transactions" with
    | error e => exact iff_of_false nofun nofun
    | ok u => exact ⟨fun h => ⟨rfl, h⟩, And.right⟩

/-- What is encoded is read back, before the limits are checked. -/
theorem decodeRlp_encode {α : Type} [Rlp.Codec α] {x : α} (h : (encode x).length < 2 ^ 64) :
    decodeRlp α (encode x) = .ok (x, []) := by
  have hdecode := Rlp.Codec.decode_encode x [] h
  rw [List.append_nil] at hdecode
  unfold decodeRlp
  rw [hdecode]

theorem decodeHashes_encode {hashes : List BlockHash} (what : String)
    (h : (encode hashes).length < 2 ^ 64) :
    decodeHashes (encode hashes) what = .ok (hashes, []) ↔ hashes.length ≤ maxInvEntries := by
  unfold decodeHashes
  rw [decodeRlp_encode h, ← checkLen_eq_ok_iff what]
  change (checkLen hashes.length maxInvEntries what).bind (fun _ => .ok (hashes, [])) = _ ↔ _
  cases checkLen hashes.length maxInvEntries what with
  | error e => exact iff_of_false nofun nofun
  | ok u => exact iff_of_true rfl rfl

theorem decodeFromSlice_cons {tag : UInt8} {bytes : List UInt8} {message : Message} :
    decodeFromSlice (tag :: bytes) = .ok message ↔ decodeBody tag bytes = .ok (message, []) := by
  change (decodeBody tag bytes).bind
    (fun item => if item.2 = [] then .ok item.1 else .error (.trailingBytes item.2.length)) = _ ↔ _
  cases decodeBody tag bytes with
  | error e => exact iff_of_false nofun nofun
  | ok item =>
    obtain ⟨m, rest⟩ := item
    dsimp only [Except.bind]
    by_cases hrest : rest = []
    · simp [hrest]
    · simp [hrest]

/-- A message that carries a list of hashes. -/
theorem bind_decodeHashes_encode {hashes : List BlockHash} {what : String}
    {f : List BlockHash → Message} (h : (encode hashes).length < 2 ^ 64) :
    ((decodeHashes (encode hashes) what).bind fun item => .ok (f item.1, item.2))
      = .ok (f hashes, []) ↔ hashes.length ≤ maxInvEntries := by
  rw [← decodeHashes_encode what h]
  unfold decodeHashes
  rw [decodeRlp_encode h]
  change (((checkLen hashes.length maxInvEntries what).bind fun _ => .ok (hashes, [])).bind _) = _ ↔
    (checkLen hashes.length maxInvEntries what).bind (fun _ => .ok (hashes, [])) = _
  cases checkLen hashes.length maxInvEntries what with
  | error e => exact iff_of_false nofun nofun
  | ok u => exact iff_of_true rfl rfl

/-- The body of a message is read back exactly when it is within the limits. -/
theorem decodeBody_body_iff {message : Message} (h : message.body.length < 2 ^ 64) :
    decodeBody message.tag message.body = .ok (message, []) ↔ message.WithinLimits := by
  -- the two messages with checks of their own first
  cases message with
  | version v genesis hashes =>
    have hdecode := decodeRlp_encode (x := (⟨v, genesis, hashes⟩ : VersionPayload)) h
    change (decodeRlp VersionPayload (encode (⟨v, genesis, hashes⟩ : VersionPayload))).bind _ = _
      ↔ hashes.length ≤ maxInvEntries
    rw [hdecode, ← checkLen_eq_ok_iff "version.tips"]
    change (checkLen hashes.length maxInvEntries "version.tips").bind _ = _ ↔ _
    cases checkLen hashes.length maxInvEntries "version.tips" with
    | error e => exact iff_of_false nofun nofun
    | ok u => exact iff_of_true rfl rfl
  | blocks batch =>
    have hdecode := decodeRlp_encode (x := batch) h
    change (decodeRlp (List BlockPayload) (encode batch)).bind _ = _ ↔
      batch.length ≤ maxBlockBatch ∧
        ∀ block ∈ batch, block.transactions.length ≤ maxTxsPerBlock
    rw [hdecode, ← checkLen_eq_ok_iff "blocks", ← checkBodies_eq_ok_iff]
    change (checkLen batch.length maxBlockBatch "blocks").bind
      (fun _ => (checkBodies batch).bind _) = _ ↔ _
    cases checkLen batch.length maxBlockBatch "blocks" with
    | error e => exact iff_of_false nofun fun hc => by cases hc.1
    | ok u =>
      cases checkBodies batch with
      | error e => exact iff_of_false nofun fun hc => by cases hc.2
      | ok u => exact iff_of_true rfl ⟨rfl, rfl⟩
  -- the nonces have no limit, and neither have the empty bodies
  | ping nonce =>
    have hdecode := decodeRlp_encode (x := nonce) h
    refine iff_of_true ?_ trivial
    change (decodeRlp UInt64 (encode nonce)).bind _ = _
    rw [hdecode]
    rfl
  | pong nonce =>
    have hdecode := decodeRlp_encode (x := nonce) h
    refine iff_of_true ?_ trivial
    change (decodeRlp UInt64 (encode nonce)).bind _ = _
    rw [hdecode]
    rfl
  | verack => exact iff_of_true rfl trivial
  | getTips => exact iff_of_true rfl trivial
  -- the five lists of hashes are decoded by one function
  | tips hashes => exact bind_decodeHashes_encode h
  | invBlocks hashes => exact bind_decodeHashes_encode h
  | getBlocks hashes => exact bind_decodeHashes_encode h
  | invTxs hashes => exact bind_decodeHashes_encode h
  | getTxs hashes => exact bind_decodeHashes_encode h

/-- **A frame is decoded to the message it encodes** exactly when the message is within the
limits of the protocol. -/
theorem decodeFromSlice_encodeToVec_iff {message : Message}
    (h : message.encodeToVec.length < 2 ^ 64) :
    decodeFromSlice message.encodeToVec = .ok message ↔ message.WithinLimits := by
  have hbody : message.body.length < 2 ^ 64 := by
    refine lt_of_le_of_lt ?_ h
    unfold encodeToVec
    rw [List.length_cons]
    omega
  unfold encodeToVec
  rw [decodeFromSlice_cons, decodeBody_body_iff hbody]

end RoundTrip

end Message

end Chainname
