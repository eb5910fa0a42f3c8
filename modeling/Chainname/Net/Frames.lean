import Chainname.Library.Framing
import Chainname.Net.Canonical
import Chainname.Net.Receivable

/-!
# Frames on the wire

The wire is a stream of frames, a four-byte big-endian length followed by that many bytes of
message. The reader refuses frames that are empty or too large, and fails on a stream that ends
inside a body.

A stream that ends inside the length of a frame is taken for one that ends after its last frame,
and the writer lets an empty payload through that the reader refuses. `parsesExactly_iff` and
`readFrames_writeFrames_iff` say that these are all the ways in which frames are not read as
they should.
-/

namespace Chainname

/-- Bytes in the length prefix. -/
def lengthPrefixBytes : ℕ := 4

/-- Reasons a frame could not be read or written. -/
inductive FrameError where
  /-- The frame exceeds the protocol limit. -/
  | tooLarge (length limit : ℕ)
  /-- A zero-length frame. -/
  | empty
  /-- The peer declared more bytes than it sent. -/
  | truncated (expected : ℕ)
  deriving DecidableEq

/-- `read_exact`: the next bytes and the rest of the stream, or nothing when it ends before. -/
def readExact (n : ℕ) (stream : List UInt8) : Option (List UInt8 × List UInt8) :=
  if n ≤ stream.length then some (stream.take n, stream.drop n) else none

/-- The length of a payload, in big-endian bytes, and the payload. -/
def frame (payload : List UInt8) : List UInt8 :=
  Rlp.toFixed lengthPrefixBytes payload.length ++ payload

/-- Writes one length-prefixed frame. -/
def writeFrame (payload : List UInt8) : Except FrameError (List UInt8) :=
  -- a length that does not fit the prefix is reported as the largest
  if 2 ^ 32 ≤ payload.length then .error (.tooLarge (2 ^ 64 - 1) maxFrameBytes)
  else if maxFrameBytes < payload.length then .error (.tooLarge payload.length maxFrameBytes)
  else .ok (frame payload)

/-- Writes a frame for each payload. -/
def writeFrames : List (List UInt8) → Except FrameError (List UInt8)
  | [] => .ok []
  | payload :: payloads => do
    let framed ← writeFrame payload
    let rest ← writeFrames payloads
    pure (framed ++ rest)

/-- Reads one length-prefixed frame. At the end of the stream there is none. -/
def readFrame (stream : List UInt8) : Except FrameError (Option (List UInt8 × List UInt8)) :=
  match readExact lengthPrefixBytes stream with
  -- the source does not ask how many bytes of the prefix were there
  | none => .ok none
  | some (pre, rest) =>
    let length := Rlp.ofBytes pre
    if maxFrameBytes < length then .error (.tooLarge length maxFrameBytes)
    else if length = 0 then .error .empty
    else
      match readExact length rest with
      | some item => .ok (some item)
      | none => .error (.truncated length)

/-- A payload that the reader accepts. -/
def LegalPayload (payload : List UInt8) : Prop :=
  payload ≠ [] ∧ payload.length ≤ maxFrameBytes

section Frame

variable {payload rest stream : List UInt8}

theorem readExact_append {n : ℕ} (h : payload.length = n) (rest : List UInt8) :
    readExact n (payload ++ rest) = some (payload, rest) := by
  subst h
  unfold readExact
  rw [if_pos (by rw [List.length_append]; omega), List.take_left, List.drop_left]

theorem readExact_eq_some {n : ℕ} (h : readExact n stream = some (payload, rest)) :
    payload.length = n ∧ stream = payload ++ rest := by
  unfold readExact at h
  split at h
  · next hle =>
    cases h
    exact ⟨List.length_take_of_le hle, (List.take_append_drop n stream).symm⟩
  · cases h

theorem readExact_eq_none_iff {n : ℕ} : readExact n stream = none ↔ stream.length < n := by
  unfold readExact
  split
  · next h => exact iff_of_false nofun (not_lt.mpr h)
  · next h => exact iff_of_true rfl (not_le.mp h)

/-- A length within the limit fits the prefix. -/
theorem lt_prefix_of_le {length : ℕ} (h : length ≤ maxFrameBytes) :
    length < 256 ^ lengthPrefixBytes := by
  refine h.trans_lt ?_
  unfold maxFrameBytes lengthPrefixBytes
  norm_num

/-- **A frame is read** exactly when the stream starts with that of a legal payload. -/
theorem readFrame_eq_some_iff :
    readFrame stream = .ok (some (payload, rest)) ↔
      LegalPayload payload ∧ stream = frame payload ++ rest := by
  refine ⟨?_, ?_⟩
  · -- the reader's guards: end of stream, a length too large, a zero length, a body cut short
    intro h
    unfold readFrame at h
    split at h
    · cases h
    · next pre after hprefix =>
      obtain ⟨hlen, rfl⟩ := readExact_eq_some hprefix
      dsimp only at h
      split at h
      · cases h
      · next hsmall =>
        split at h
        · cases h
        · next hpos =>
          split at h
          · next item hbody =>
            cases h
            obtain ⟨hbodyLen, rfl⟩ := readExact_eq_some hbody
            refine ⟨⟨?_, hbodyLen.trans_le (not_lt.mp hsmall)⟩, ?_⟩
            · rintro rfl
              exact hpos hbodyLen.symm
            · -- the prefix spells the length of the body
              unfold frame
              rw [hbodyLen, ← hlen, Rlp.toFixed_ofBytes, List.append_assoc]
          · cases h
  · -- a legal payload passes each of them
    rintro ⟨⟨hne, hsmall⟩, rfl⟩
    have hprefix : (Rlp.toFixed lengthPrefixBytes payload.length).length = lengthPrefixBytes :=
      Rlp.length_toFixed (lt_prefix_of_le hsmall)
    have hpos : payload.length ≠ 0 := fun hzero => hne (List.length_eq_zero_iff.mp hzero)
    unfold readFrame frame
    rw [List.append_assoc, readExact_append hprefix]
    dsimp only
    rw [Rlp.ofBytes_toFixed, if_neg (not_lt.mpr hsmall), if_neg hpos, readExact_append rfl]

/-- **The end of the stream** is reported as soon as no length prefix is left. -/
theorem readFrame_eq_none_iff : readFrame stream = .ok none ↔ stream.length < lengthPrefixBytes := by
  rw [← readExact_eq_none_iff]
  refine ⟨?_, ?_⟩
  · intro h
    unfold readFrame at h
    split at h
    · next hnone => exact hnone
    · -- past the prefix no branch reads as the end of the stream
      next pre after hprefix =>
      dsimp only at h
      split at h
      · cases h
      · split at h
        · cases h
        · split at h
          · cases h
          · cases h
  · intro h
    unfold readFrame
    rw [h]

end Frame

/-! ### Streams -/

/-- The frames of the wire. -/
def frames : Framing.Format UInt8 (List UInt8) FrameError where
  frame := frame
  Legal := LegalPayload
  read := readFrame
  frame_ne_nil h := List.append_ne_nil_of_right_ne_nil _ h.1
  read_eq_some_iff := readFrame_eq_some_iff

/-- Reads frame after frame until the stream ends or a frame cannot be read. -/
def readFrames (stream : List UInt8) : List (List UInt8) × Except FrameError Unit :=
  frames.readAll stream

/-- The payloads are those of the complete frames at the front of the stream. -/
def CompleteFrames (payloads : List (List UInt8)) (stream : List UInt8) : Prop :=
  (∀ payload ∈ payloads, LegalPayload payload) ∧
    ∃ tail, stream = payloads.flatMap frame ++ tail ∧
      ¬ ∃ payload rest, LegalPayload payload ∧ tail = frame payload ++ rest

/-- A stream is read as it should: it ends well exactly when it is made of frames, and is read
up to its last complete frame otherwise. -/
structure ParsesExactly (stream : List UInt8) : Prop where
  clean_iff : ∀ payloads, readFrames stream = (payloads, .ok ()) ↔
    (∀ payload ∈ payloads, LegalPayload payload) ∧ stream = payloads.flatMap frame
  complete : ∀ payloads e, readFrames stream = (payloads, .error e) →
    CompleteFrames payloads stream

/-- The stream ends inside the length of a frame. -/
def EndsInPrefix (stream : List UInt8) : Prop :=
  ∃ (payloads : List (List UInt8)) (tail : List UInt8),
    (∀ payload ∈ payloads, LegalPayload payload) ∧
      stream = payloads.flatMap frame ++ tail ∧ tail ≠ [] ∧ tail.length < lengthPrefixBytes

section Streams

variable {stream : List UInt8} {payloads : List (List UInt8)}

theorem completeFrames_of_readFrames {result : Except FrameError Unit}
    (h : readFrames stream = (payloads, result)) : CompleteFrames payloads stream := by
  obtain ⟨hlegal, tail, he, hend⟩ := Framing.Format.readAll_eq_iff.mp h
  exact ⟨hlegal, tail, he, Framing.Format.not_frame_of_read hend⟩

/-- **A clean end** is reported of every stream of frames, and of fewer bytes after them than a
length has. -/
theorem readFrames_eq_ok_iff :
    readFrames stream = (payloads, .ok ()) ↔ (∀ payload ∈ payloads, LegalPayload payload) ∧
      ∃ tail, stream = payloads.flatMap frame ++ tail ∧ tail.length < lengthPrefixBytes := by
  refine Framing.Format.readAll_eq_iff.trans (and_congr_right fun _ => ?_)
  exact exists_congr fun tail => and_congr_right fun _ => readFrame_eq_none_iff

/-- **A stream is read as it should** exactly when it does not end inside a length. -/
theorem parsesExactly_iff : ParsesExactly stream ↔ ¬ EndsInPrefix stream := by
  refine ⟨?_, ?_⟩
  · rintro h ⟨payloads, tail, hlegal, rfl, hne, hshort⟩
    -- the incomplete prefix is read as a clean end
    have hread := readFrames_eq_ok_iff.mpr ⟨hlegal, tail, rfl, hshort⟩
    have hframes := ((h.clean_iff payloads).mp hread).2
    exact hne (List.append_right_eq_self.mp hframes)
  · intro hends
    refine ⟨fun payloads => ⟨fun h => ?_, ?_⟩, fun payloads e h => completeFrames_of_readFrames h⟩
    · obtain ⟨hlegal, tail, rfl, hshort⟩ := readFrames_eq_ok_iff.mp h
      have hnil : tail = [] := by
        by_contra hne
        exact hends ⟨payloads, tail, hlegal, rfl, hne, hshort⟩
      rw [hnil, List.append_nil]
      exact ⟨hlegal, rfl⟩
    · rintro ⟨hlegal, rfl⟩
      exact readFrames_eq_ok_iff.mpr ⟨hlegal, [], (List.append_nil _).symm, by decide⟩

/-- The writer accepts what is not too large. -/
theorem writeFrame_eq_ok_iff {payload framed : List UInt8} :
    writeFrame payload = .ok framed ↔
      payload.length ≤ maxFrameBytes ∧ framed = frame payload := by
  -- the length fits the prefix, whose check is the first of the two
  have hmax : maxFrameBytes < 2 ^ 32 := by
    unfold maxFrameBytes
    norm_num
  unfold writeFrame
  split
  · next hhuge => exact iff_of_false nofun fun h => by omega
  · split
    · next hlarge => exact iff_of_false nofun fun h => absurd h.1 (not_le.mpr hlarge)
    · next hfits =>
      rw [Except.ok.injEq, eq_comm]
      exact (and_iff_right (not_lt.mp hfits)).symm

theorem writeFrames_eq_ok_iff :
    writeFrames payloads = .ok stream ↔
      (∀ payload ∈ payloads, payload.length ≤ maxFrameBytes) ∧ stream = payloads.flatMap frame := by
  -- frame after frame
  induction payloads generalizing stream with
  | nil =>
    unfold writeFrames
    rw [Except.ok.injEq, eq_comm]
    exact (and_iff_right nofun).symm
  | cons payload payloads ih =>
    rw [List.forall_mem_cons, List.flatMap_cons]
    refine ⟨?_, ?_⟩
    · intro h
      obtain ⟨framed, hframed, h⟩ := Message.bind_eq_ok h
      obtain ⟨rest, hrest, h⟩ := Message.bind_eq_ok h
      cases h
      obtain ⟨hlen, rfl⟩ := writeFrame_eq_ok_iff.mp hframed
      obtain ⟨hall, rfl⟩ := ih.mp hrest
      exact ⟨⟨hlen, hall⟩, rfl⟩
    · rintro ⟨⟨hlen, hall⟩, rfl⟩
      unfold writeFrames
      rw [writeFrame_eq_ok_iff.mpr ⟨hlen, rfl⟩, ih.mpr ⟨hall, rfl⟩]
      rfl

/-- **What is written is read back** exactly when no payload is empty. -/
theorem readFrames_writeFrames_iff (h : writeFrames payloads = .ok stream) :
    readFrames stream = (payloads, .ok ()) ↔ ∀ payload ∈ payloads, payload ≠ [] := by
  obtain ⟨hlen, rfl⟩ := writeFrames_eq_ok_iff.mp h
  refine ⟨?_, ?_⟩
  · intro hread payload hmem
    exact ((readFrames_eq_ok_iff.mp hread).1 payload hmem).1
  · intro hne
    refine readFrames_eq_ok_iff.mpr ⟨fun payload hmem => ⟨hne payload hmem, hlen payload hmem⟩, ?_⟩
    exact ⟨[], (List.append_nil _).symm, by decide⟩

/-- **Frame streams parse exactly** but for the streams that end inside a length and for the
empty payloads that are written. -/
theorem frames_parse_iff (stream : List UInt8) (payloads : List (List UInt8)) :
    (ParsesExactly stream ↔ ¬ EndsInPrefix stream) ∧
      ∀ written, writeFrames payloads = .ok written →
        (readFrames written = (payloads, .ok ()) ↔ ∀ payload ∈ payloads, payload ≠ []) :=
  ⟨parsesExactly_iff, fun _ h => readFrames_writeFrames_iff h⟩

/-- A single byte is read as a clean end, and the frame of an empty payload is not read. -/
theorem byte_read_as_end :
    (readFrames [0] = ([], .ok ()) ∧ ¬ ParsesExactly [0]) ∧
      writeFrames [[]] = .ok [0, 0, 0, 0] ∧
      readFrames [0, 0, 0, 0] = ([], .error .empty) := by
  refine ⟨⟨?_, ?_⟩, ?_, ?_⟩
  · exact readFrames_eq_ok_iff.mpr ⟨nofun, [0], rfl, by decide⟩
  · rw [parsesExactly_iff, not_not]
    exact ⟨[], [0], nofun, rfl, by decide, by decide⟩
  · decide
  · exact Framing.Format.readAll_of_error (by decide)

end Streams

end Chainname
