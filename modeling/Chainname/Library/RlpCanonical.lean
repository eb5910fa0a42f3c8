import Chainname.Library.Rlp

/-!
# Canonical decoding

The converse of the round trip: a decoder that accepts bytes has read the encoding of what it
returns, and nothing else. `Canonical` is this law for a type with a codec. It holds of numbers,
of strings and of lists of items that have it, since a header is refused where a shorter one
would do and a number is refused with a leading zero. Records follow field by field with
`bind_decode_eq_some`.
-/

namespace Rlp

/-! ### Big-endian numbers -/

section BigEndian

theorem toNat_lt_of_mem_map {bytes : List UInt8} {d : ℕ} (h : d ∈ bytes.map UInt8.toNat) :
    d < 256 := by
  obtain ⟨b, -, rfl⟩ := List.mem_map.mp h
  exact b.toNat_lt

theorem ofBytes_lt (bytes : List UInt8) : ofBytes bytes < 256 ^ bytes.length := by
  calc ofBytes bytes < 256 ^ (bytes.reverse.map UInt8.toNat).length :=
        Nat.ofDigits_lt_base_pow_length (by decide) fun _ => toNat_lt_of_mem_map
    _ = 256 ^ bytes.length := by rw [List.length_map, List.length_reverse]

/-- Bytes without a leading zero are those of the number they spell. -/
theorem toBytes_ofBytes {bytes : List UInt8} (h : bytes.head? ≠ some 0) :
    toBytes (ofBytes bytes) = bytes := by
  have hdigits : Nat.digits 256 (ofBytes bytes) = bytes.reverse.map UInt8.toNat := by
    refine Nat.digits_ofDigits 256 (by decide) _ (fun _ => toNat_lt_of_mem_map) fun hne hzero => h ?_
    -- the most significant digit is the first byte
    have hlast : (bytes.reverse.map UInt8.toNat).getLast? = some 0 := by
      rw [List.getLast?_eq_some_getLast hne, hzero]
    rw [List.getLast?_map, List.getLast?_reverse, Option.map_eq_some_iff] at hlast
    obtain ⟨b, hb, hb0⟩ := hlast
    rw [hb, ← UInt8.ofNat_toNat (x := b), hb0]
    rfl
  have hback : (bytes.reverse.map UInt8.toNat).map UInt8.ofNat = bytes.reverse := by
    rw [List.map_map]
    refine (List.map_congr_left fun b _ => ?_).trans (List.map_id _)
    exact UInt8.ofNat_toNat
  unfold toBytes
  rw [hdigits, hback, List.reverse_reverse]

/-- Bytes are those of the number they spell, filled up to their length. -/
theorem toFixed_ofBytes (bytes : List UInt8) : toFixed bytes.length (ofBytes bytes) = bytes := by
  have hlength : (toFixed bytes.length (ofBytes bytes)).length = bytes.length :=
    length_toFixed (ofBytes_lt bytes)
  have hspells : ofBytes (toFixed bytes.length (ofBytes bytes)) = ofBytes bytes :=
    ofBytes_toFixed _ _
  have hdigits := Nat.ofDigits_inj_of_len_eq (by decide)
    (by rw [List.length_map, List.length_map, List.length_reverse, List.length_reverse, hlength])
    (fun _ => toNat_lt_of_mem_map) (fun _ => toNat_lt_of_mem_map) hspells
  exact List.reverse_injective
    (List.map_injective_iff.mpr (fun _ _ => UInt8.toNat_inj.mp) hdigits)

end BigEndian

/-! ### Items -/

section Items

variable {isList : Bool} {bytes rest : List UInt8} {length : ℕ}

/-- A long length is spelled by its own digits. -/
theorem decodeLong_eq_some {width : ℕ} {kind : Bool}
    (h : decodeLong isList width bytes = some (kind, length, rest)) :
    kind = isList ∧ 56 ≤ length ∧ (toBytes length).length = width ∧
      bytes = toBytes length ++ rest := by
  unfold decodeLong at h
  dsimp only at h
  split at h
  · cases h
  · next hok =>
    -- the width fits, the first byte is not zero, and the length needs the long form
    push Not at hok
    obtain ⟨hwidth, hzero, hlong⟩ := hok
    cases h
    have hdigits := toBytes_ofBytes hzero
    refine ⟨rfl, hlong, ?_, ?_⟩
    · rw [hdigits, List.length_take, min_eq_left hwidth]
    · rw [hdigits, List.take_append_drop]

/-- The first byte of a header, from the byte that was read. -/
theorem ofNat_eq_of_toNat_eq {b : UInt8} {n : ℕ} (h : n = b.toNat) : UInt8.ofNat n = b := by
  rw [h, UInt8.ofNat_toNat]

theorem header_of_short (h : length < 56) :
    header isList length = [UInt8.ofNat ((if isList then 0xc0 else 0x80) + length)] :=
  if_pos h

theorem header_of_long (h : 56 ≤ length) :
    header isList length = UInt8.ofNat ((if isList then 0xc0 else 0x80) + 55
      + (toBytes length).length) :: toBytes length :=
  if_neg (not_lt.mpr h)

/-- **A header that is accepted** is that of a single small byte, or the header of its length
and not one that a single small byte could do without. -/
theorem decodeHeader_eq_some (h : decodeHeader bytes = some (isList, length, rest)) :
    (isList = false ∧ length = 1 ∧ rest = bytes ∧ bytes.head?.any (fun c => c.toNat < 0x80)) ∨
      (bytes = header isList length ++ rest ∧
        (isList = false → length = 1 → rest.head?.any (fun c => c.toNat < 0x80) = false)) := by
  cases bytes with
  | nil => cases h
  | cons b after =>
    dsimp only [decodeHeader] at h
    split at h
    · next hsmall =>
      cases h
      exact Or.inl ⟨rfl, rfl, rfl, decide_eq_true hsmall⟩
    · next hbig =>
      right
      split at h
      · next hstring =>
        split at h
        · cases h
        · next hcanonical =>
          -- a short string
          simp only [Option.some.injEq, Prod.mk.injEq] at h
          obtain ⟨rfl, rfl, rfl⟩ := h
          refine ⟨?_, fun _ hone => ?_⟩
          · rw [header_of_short (by omega), ofNat_eq_of_toNat_eq (b := b) (by simp; omega)]
            rfl
          · exact Bool.eq_false_iff.mpr fun hany => hcanonical ⟨by omega, hany⟩
      · next hlongString =>
        split at h
        · -- a long string
          obtain ⟨rfl, hlong, hwidth, rfl⟩ := decodeLong_eq_some h
          refine ⟨?_, fun _ hone => by omega⟩
          rw [header_of_long hlong, ofNat_eq_of_toNat_eq (b := b) (by simp; omega)]
          rfl
        · next hlist =>
          split at h
          · next hshort =>
            -- a short list
            simp only [Option.some.injEq, Prod.mk.injEq] at h
            obtain ⟨rfl, rfl, rfl⟩ := h
            refine ⟨?_, fun hkind => by cases hkind⟩
            rw [header_of_short (by omega), ofNat_eq_of_toNat_eq (b := b) (by simp; omega)]
            rfl
          · -- a long list
            obtain ⟨rfl, hlong, hwidth, rfl⟩ := decodeLong_eq_some h
            refine ⟨?_, fun hkind => by cases hkind⟩
            rw [header_of_long hlong, ofNat_eq_of_toNat_eq (b := b) (by simp; omega)]
            rfl

/-- An item that is accepted has a header and all of its payload. -/
theorem decodeItem_eq_some {payload : List UInt8}
    (h : decodeItem isList bytes = some (payload, rest)) :
    decodeHeader bytes = some (isList, payload.length, payload ++ rest) := by
  unfold decodeItem at h
  rw [Option.bind_eq_some_iff] at h
  obtain ⟨⟨kind, length, after⟩, hheader, h⟩ := h
  dsimp only at h
  split at h
  · next hok =>
    obtain ⟨rfl, hlength⟩ := hok
    cases h
    rw [hheader, List.length_take, min_eq_left hlength, List.take_append_drop]
  · cases h

/-- **A list that is accepted** is the encoding of its payload. -/
theorem eq_encodeList_of_decodeItem {payload : List UInt8}
    (h : decodeItem true bytes = some (payload, rest)) : bytes = encodeList payload ++ rest := by
  obtain ⟨hkind, -⟩ | ⟨he, -⟩ := decodeHeader_eq_some (decodeItem_eq_some h)
  · cases hkind
  · rw [he]
    unfold encodeList
    rw [List.append_assoc]

/-- **A string that is accepted** is encoded in its only way. -/
theorem eq_encodeString_of_decodeItem {s : List UInt8}
    (h : decodeItem false bytes = some (s, rest)) : bytes = encodeString s ++ rest := by
  unfold encodeString
  obtain ⟨-, hone, he, hsmall⟩ | ⟨he, hlarge⟩ := decodeHeader_eq_some (decodeItem_eq_some h)
  · obtain ⟨b, rfl⟩ := List.length_eq_one_iff.mp hone
    rw [← he, List.singleton_append, List.head?_cons, Option.any_some] at hsmall
    rw [if_pos (isSmall_iff.mpr ⟨b, rfl, of_decide_eq_true hsmall⟩), he]
  · rw [if_neg, List.append_assoc, he]
    intro hsmall
    obtain ⟨b, rfl, hb⟩ := isSmall_iff.mp hsmall
    have hany := hlarge rfl rfl
    rw [List.singleton_append, List.head?_cons, Option.any_some] at hany
    exact of_decide_eq_false hany hb

end Items

/-! ### Codecs -/

/-- A codec whose decoder accepts nothing but encodings. -/
class Canonical (α : Type) [Codec α] : Prop where
  eq_encode_append : ∀ {bytes rest : List UInt8} {x : α},
    decode bytes = some (x, rest) → bytes = encode x ++ rest

export Canonical (eq_encode_append)

section Canonical

variable {α β : Type} [Codec α] [Canonical α] {bytes : List UInt8}

/-- The next field of a record that is accepted. -/
theorem bind_decode_eq_some {f : α × List UInt8 → Option β} {y : β}
    (h : (decode bytes).bind f = some y) :
    ∃ x rest, bytes = encode x ++ rest ∧ f (x, rest) = some y := by
  obtain ⟨⟨x, rest⟩, hx, hy⟩ := Option.bind_eq_some_iff.mp h
  exact ⟨x, rest, eq_encode_append hx, hy⟩

/-- The payload of a record that is accepted. -/
theorem bind_decodeItem_eq_some {f : List UInt8 × List UInt8 → Option β} {y : β}
    (h : (decodeItem true bytes).bind f = some y) :
    ∃ payload rest, bytes = encodeList payload ++ rest ∧ f (payload, rest) = some y := by
  obtain ⟨⟨payload, rest⟩, hp, hy⟩ := Option.bind_eq_some_iff.mp h
  exact ⟨payload, rest, eq_encodeList_of_decodeItem hp, hy⟩

/-- A number that is accepted is below its bound and has no leading zero. -/
theorem decodeNat_eq_some {bound n : ℕ} {rest : List UInt8}
    (h : decodeNat bound bytes = some (n, rest)) :
    n < bound ∧ bytes = encodeString (toBytes n) ++ rest := by
  unfold decodeNat at h
  rw [Option.bind_eq_some_iff] at h
  obtain ⟨⟨s, after⟩, hitem, h⟩ := h
  dsimp only at h
  split at h
  · cases h
  · -- no leading zero, so the digits are those of the number
    next hok =>
    push Not at hok
    cases h
    refine ⟨hok.2, ?_⟩
    rw [toBytes_ofBytes hok.1]
    exact eq_encodeString_of_decodeItem hitem

instance uint16Canonical : Canonical UInt16 where
  eq_encode_append h := by
    obtain ⟨⟨n, rest⟩, hn, he⟩ := Option.map_eq_some_iff.mp h
    cases he
    obtain ⟨hlt, he⟩ := decodeNat_eq_some hn
    change _ = encodeString (toBytes (UInt16.ofNat n).toNat) ++ rest
    rwa [UInt16.toNat_ofNat_of_lt' hlt]

instance uint32Canonical : Canonical UInt32 where
  eq_encode_append h := by
    obtain ⟨⟨n, rest⟩, hn, he⟩ := Option.map_eq_some_iff.mp h
    cases he
    obtain ⟨hlt, he⟩ := decodeNat_eq_some hn
    change _ = encodeString (toBytes (UInt32.ofNat n).toNat) ++ rest
    rwa [UInt32.toNat_ofNat_of_lt' hlt]

instance uint64Canonical : Canonical UInt64 where
  eq_encode_append h := by
    obtain ⟨⟨n, rest⟩, hn, he⟩ := Option.map_eq_some_iff.mp h
    cases he
    obtain ⟨hlt, he⟩ := decodeNat_eq_some hn
    change _ = encodeString (toBytes (UInt64.ofNat n).toNat) ++ rest
    rwa [UInt64.toNat_ofNat_of_lt' hlt]

instance bytesCanonical : Canonical (List UInt8) where
  eq_encode_append := eq_encodeString_of_decodeItem

theorem fixedCanonical (width bound : ℕ) (hbound : bound = 256 ^ width) :
    @Canonical (Fin bound) (fixedCodec width bound hbound) := by
  refine @Canonical.mk _ (fixedCodec width bound hbound) fun {bytes rest x} h => ?_
  obtain ⟨⟨s, after⟩, hitem, h⟩ := Option.bind_eq_some_iff.mp h
  dsimp only at h
  split at h
  · next hok =>
    cases h
    change bytes = encodeString (toFixed width (ofBytes s)) ++ rest
    rw [← hok.1, toFixed_ofBytes]
    exact eq_encodeString_of_decodeItem hitem
  · cases h

/-- Items that are accepted up to the end are encoded one after the other. -/
theorem decodeMany_eq_some {n : ℕ} {xs : List α} (h : decodeMany n bytes = some xs) :
    bytes = xs.flatMap encode := by
  -- item by item, each read back from the bytes it consumed
  induction n generalizing bytes xs with
  | zero =>
    cases bytes with
    | nil =>
      cases h
      rfl
    | cons b bytes => cases h
  | succ n ih =>
    cases bytes with
    | nil =>
      cases h
      rfl
    | cons b bytes =>
      unfold decodeMany at h
      obtain ⟨x, rest, he, h⟩ := bind_decode_eq_some h
      obtain ⟨ys, hys, rfl⟩ := Option.map_eq_some_iff.mp h
      rw [he, List.flatMap_cons, ← ih hys]

instance listCanonical : Canonical (List α) where
  eq_encode_append h := by
    obtain ⟨payload, rest, hpayload, hitems⟩ := bind_decodeItem_eq_some h
    obtain ⟨xs, hxs, he⟩ := Option.map_eq_some_iff.mp hitems
    obtain ⟨rfl, rfl⟩ := Prod.mk.inj he
    rw [hpayload, show payload = xs.flatMap encode from decodeMany_eq_some hxs]
    rfl

end Canonical

end Rlp
