import Chainname.Library.RlpCanonical
import Chainname.Net.Codec

/-!
# One encoding for each message

What the decoder accepts is the encoding of the message it returns, byte for byte, and the
message is within the limits of the protocol. With the round trip of the wire format this makes
encoding a bijection between the messages within the limits and the frames that are accepted:
no two frames carry one message, and no frame carries anything besides its message.
-/

namespace Chainname

open Rlp (encode Canonical bind_decode_eq_some bind_decodeItem_eq_some)

/-! ### Records -/

section Records

instance b256Canonical : Canonical B256 := Rlp.fixedCanonical 32 (2 ^ 256) (by norm_num)

instance addressCanonical : Canonical Address := Rlp.fixedCanonical 20 (2 ^ 160) (by norm_num)

/-- The end of a record: nothing is left of its payload. -/
theorem eq_some_of_ite_nil {α : Type} {rest : List UInt8} {x y : α}
    (h : (if rest = [] then some x else none) = some y) : rest = [] ∧ x = y := by
  split at h
  · next hnil => exact ⟨hnil, Option.some.inj h⟩
  · cases h

instance headerCanonical : Canonical Header where
  eq_encode_append h := by
    obtain ⟨payload, after, hbytes, h⟩ := bind_decodeItem_eq_some h
    -- the fields are taken off the payload one by one
    obtain ⟨version, rest₁, h₁, h⟩ := bind_decode_eq_some h
    obtain ⟨parents, rest₂, h₂, h⟩ := bind_decode_eq_some h
    obtain ⟨timestampMs, rest₃, h₃, h⟩ := bind_decode_eq_some h
    obtain ⟨bits, rest₄, h₄, h⟩ := bind_decode_eq_some h
    obtain ⟨nonce, rest₅, h₅, h⟩ := bind_decode_eq_some h
    obtain ⟨miner, rest₆, h₆, h⟩ := bind_decode_eq_some h
    obtain ⟨txsRoot, rest₇, h₇, h⟩ := bind_decode_eq_some h
    obtain ⟨deferredHeight, rest₈, h₈, h⟩ := bind_decode_eq_some h
    obtain ⟨deferredStateRoot, rest₉, h₉, h⟩ := bind_decode_eq_some h
    obtain ⟨deferredReceiptsRoot, rest₁₀, h₁₀, h⟩ := bind_decode_eq_some h
    obtain ⟨deferredGasUsed, rest₁₁, h₁₁, h⟩ := bind_decode_eq_some h
    obtain ⟨hnil, he⟩ := eq_some_of_ite_nil h
    obtain ⟨rfl, rfl⟩ := Prod.mk.inj he
    rw [hbytes, h₁, h₂, h₃, h₄, h₅, h₆, h₇, h₈, h₉, h₁₀, h₁₁, hnil]
    rfl

instance blockPayloadCanonical : Canonical BlockPayload where
  eq_encode_append h := by
    obtain ⟨payload, after, hbytes, h⟩ := bind_decodeItem_eq_some h
    obtain ⟨header, rest₁, h₁, h⟩ := bind_decode_eq_some h
    obtain ⟨transactions, rest₂, h₂, h⟩ := bind_decode_eq_some h
    obtain ⟨hnil, he⟩ := eq_some_of_ite_nil h
    obtain ⟨rfl, rfl⟩ := Prod.mk.inj he
    rw [hbytes, h₁, h₂, hnil]
    rfl

instance versionPayloadCanonical : Canonical VersionPayload where
  eq_encode_append h := by
    obtain ⟨payload, after, hbytes, h⟩ := bind_decodeItem_eq_some h
    obtain ⟨version, rest₁, h₁, h⟩ := bind_decode_eq_some h
    obtain ⟨genesis, rest₂, h₂, h⟩ := bind_decode_eq_some h
    obtain ⟨tips, rest₃, h₃, h⟩ := bind_decode_eq_some h
    obtain ⟨hnil, he⟩ := eq_some_of_ite_nil h
    obtain ⟨rfl, rfl⟩ := Prod.mk.inj he
    rw [hbytes, h₁, h₂, h₃, hnil]
    rfl

end Records

/-! ### Messages -/

namespace Message

section Accepted

variable {bytes rest : List UInt8} {message : Message}

/-- The next step of a decoder that accepts. -/
theorem bind_eq_ok {ε α β : Type} {x : Except ε α} {f : α → Except ε β} {y : β}
    (h : x.bind f = .ok y) : ∃ a, x = .ok a ∧ f a = .ok y := by
  cases x with
  | error e => cases h
  | ok a => exact ⟨a, rfl, h⟩

theorem decodeRlp_eq_ok {α : Type} [Rlp.Codec α] [Canonical α] {x : α}
    (h : decodeRlp α bytes = .ok (x, rest)) : bytes = encode x ++ rest := by
  unfold decodeRlp at h
  split at h
  · next item hitem =>
    cases h
    exact Rlp.eq_encode_append hitem
  · cases h

theorem decodeHashes_eq_ok {what : String} {hashes : List BlockHash}
    (h : decodeHashes bytes what = .ok (hashes, rest)) :
    bytes = encode hashes ++ rest ∧ hashes.length ≤ maxInvEntries := by
  obtain ⟨⟨xs, after⟩, hread, h⟩ := bind_eq_ok h
  obtain ⟨u, hcheck, h⟩ := bind_eq_ok h
  cases h
  exact ⟨decodeRlp_eq_ok hread, (checkLen_eq_ok_iff what).mp hcheck⟩

/-- What is read is a message of this discriminant, its body and nothing else before the rest,
within the limits of the protocol. -/
structure Reads (tag : UInt8) (bytes : List UInt8) (message : Message) (rest : List UInt8) :
    Prop where
  tag_eq : message.tag = tag
  body_append : bytes = message.body ++ rest
  withinLimits : message.WithinLimits

/-- A message that carries a nonce. -/
theorem Reads.of_nonce {tag : UInt8} (f : UInt64 → Message)
    (htag : ∀ nonce, (f nonce).tag = tag) (hbody : ∀ nonce, (f nonce).body = encode nonce)
    (hlimits : ∀ nonce, (f nonce).WithinLimits)
    (h : ((decodeRlp UInt64 bytes).bind fun item => .ok (f item.1, item.2)) = .ok (message, rest)) :
    Reads tag bytes message rest := by
  obtain ⟨⟨nonce, after⟩, hread, h⟩ := bind_eq_ok h
  cases h
  exact ⟨htag nonce, by rw [hbody, decodeRlp_eq_ok hread], hlimits nonce⟩

/-- A message that carries a list of hashes. -/
theorem Reads.of_hashes {tag : UInt8} {what : String} (f : List BlockHash → Message)
    (htag : ∀ hashes, (f hashes).tag = tag) (hbody : ∀ hashes, (f hashes).body = encode hashes)
    (hlimits : ∀ hashes, (f hashes).WithinLimits ↔ hashes.length ≤ maxInvEntries)
    (h : ((decodeHashes bytes what).bind fun item => .ok (f item.1, item.2))
      = .ok (message, rest)) :
    Reads tag bytes message rest := by
  obtain ⟨⟨hashes, after⟩, hread, h⟩ := bind_eq_ok h
  obtain ⟨hbytes, hlen⟩ := decodeHashes_eq_ok hread
  cases h
  exact ⟨htag hashes, by rw [hbody, hbytes], (hlimits hashes).mpr hlen⟩

/-- **A body that is accepted** is that of a message within the limits. -/
theorem reads_of_decodeBody {tag : UInt8} (h : decodeBody tag bytes = .ok (message, rest)) :
    Reads tag bytes message rest := by
  unfold decodeBody at h
  obtain ⟨htag, h⟩ | ⟨-, h⟩ := ite_eq_iff.mp h
  · -- the opening message
    obtain ⟨⟨payload, after⟩, hread, h⟩ := bind_eq_ok h
    obtain ⟨u, hcheck, h⟩ := bind_eq_ok h
    cases h
    exact ⟨htag.symm, decodeRlp_eq_ok hread, (checkLen_eq_ok_iff _).mp hcheck⟩
  -- the two messages without a body
  obtain ⟨htag, h⟩ | ⟨-, h⟩ := ite_eq_iff.mp h
  · cases h
    exact ⟨htag.symm, rfl, trivial⟩
  obtain ⟨htag, h⟩ | ⟨-, h⟩ := ite_eq_iff.mp h
  · cases h
    exact ⟨htag.symm, rfl, trivial⟩
  -- the two that carry a nonce
  obtain ⟨htag, h⟩ | ⟨-, h⟩ := ite_eq_iff.mp h
  · exact Reads.of_nonce .ping (fun _ => htag.symm) (fun _ => rfl) (fun _ => trivial) h
  obtain ⟨htag, h⟩ | ⟨-, h⟩ := ite_eq_iff.mp h
  · exact Reads.of_nonce .pong (fun _ => htag.symm) (fun _ => rfl) (fun _ => trivial) h
  -- the five that carry a list of hashes
  obtain ⟨htag, h⟩ | ⟨-, h⟩ := ite_eq_iff.mp h
  · exact Reads.of_hashes .tips (fun _ => htag.symm) (fun _ => rfl) (fun _ => Iff.rfl) h
  obtain ⟨htag, h⟩ | ⟨-, h⟩ := ite_eq_iff.mp h
  · exact Reads.of_hashes .invBlocks (fun _ => htag.symm) (fun _ => rfl) (fun _ => Iff.rfl) h
  obtain ⟨htag, h⟩ | ⟨-, h⟩ := ite_eq_iff.mp h
  · exact Reads.of_hashes .getBlocks (fun _ => htag.symm) (fun _ => rfl) (fun _ => Iff.rfl) h
  obtain ⟨htag, h⟩ | ⟨-, h⟩ := ite_eq_iff.mp h
  · exact Reads.of_hashes .invTxs (fun _ => htag.symm) (fun _ => rfl) (fun _ => Iff.rfl) h
  obtain ⟨htag, h⟩ | ⟨-, h⟩ := ite_eq_iff.mp h
  · exact Reads.of_hashes .getTxs (fun _ => htag.symm) (fun _ => rfl) (fun _ => Iff.rfl) h
  obtain ⟨htag, h⟩ | ⟨-, h⟩ := ite_eq_iff.mp h
  · -- a batch of blocks, each with its transactions within the limit
    obtain ⟨⟨batch, after⟩, hread, h⟩ := bind_eq_ok h
    obtain ⟨u, hcheck, h⟩ := bind_eq_ok h
    obtain ⟨v, hbodies, h⟩ := bind_eq_ok h
    cases h
    exact ⟨htag.symm, decodeRlp_eq_ok hread, (checkLen_eq_ok_iff _).mp hcheck,
      checkBodies_eq_ok_iff.mp hbodies⟩
  · cases h

/-- **A frame that is accepted** is the encoding of its message, which is within the limits. -/
theorem encodeToVec_of_decodeFromSlice (h : decodeFromSlice bytes = .ok message) :
    message.WithinLimits ∧ message.encodeToVec = bytes := by
  cases bytes with
  | nil => cases h
  | cons tag body =>
    have hreads := reads_of_decodeBody (decodeFromSlice_cons.mp h)
    refine ⟨hreads.withinLimits, ?_⟩
    unfold encodeToVec
    rw [hreads.tag_eq, hreads.body_append, List.append_nil]

end Accepted

/-- **The wire format is a bijection onto its grammar**: a message within the limits is decoded
from its encoding, what is decoded is within the limits and encoded by the very bytes it was
decoded from, and no two byte strings are decoded to the same message. A buffer has fewer than
`2 ^ 64` bytes. -/
theorem codec_bijective :
    (∀ message : Message, message.WithinLimits → message.encodeToVec.length < 2 ^ 64 →
      decodeFromSlice message.encodeToVec = .ok message) ∧
    (∀ bytes message, decodeFromSlice bytes = .ok message →
      message.WithinLimits ∧ message.encodeToVec = bytes) ∧
    (∀ bytes bytes' message, decodeFromSlice bytes = .ok message →
      decodeFromSlice bytes' = .ok message → bytes = bytes') := by
  refine ⟨?_, ?_, ?_⟩
  · intro message hlimits hlen
    exact (decodeFromSlice_encodeToVec_iff hlen).mpr hlimits
  · intro bytes message h
    exact encodeToVec_of_decodeFromSlice h
  · intro bytes bytes' message h h'
    rw [← (encodeToVec_of_decodeFromSlice h).2, (encodeToVec_of_decodeFromSlice h').2]

end Message

end Chainname
