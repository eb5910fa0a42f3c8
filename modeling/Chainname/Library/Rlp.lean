import Mathlib.Algebra.Order.BigOperators.Group.List
import Mathlib.Data.Nat.Digits.Lemmas

/-!
# Recursive length prefix

Canonical RLP for natural numbers of bounded width, byte strings of fixed and of any length,
and lists. An item is a string or a list of items; its header carries the length of its
payload, in one byte below 56 and with a big-endian length of at most eight bytes from there.
A single byte below 128 is its own item.

`Codec` is a type with an encoder and a decoder that reads one item and returns what follows
it. The law `decode_encode` is the round trip; it is subject to the payload length fitting
eight bytes. Records are decoded field by field with `bind_decode_encode`.
-/

namespace Rlp

/-! ### Big-endian numbers -/

/-- The big-endian bytes of a number, without leading zeros. -/
def toBytes (n : ℕ) : List UInt8 := ((Nat.digits 256 n).map UInt8.ofNat).reverse

/-- The number that bytes spell. -/
def ofBytes (bytes : List UInt8) : ℕ := Nat.ofDigits 256 (bytes.reverse.map UInt8.toNat)

theorem map_toNat_ofNat {digits : List ℕ} (h : ∀ d ∈ digits, d < 256) :
    (digits.map UInt8.ofNat).map UInt8.toNat = digits := by
  rw [List.map_map]
  refine (List.map_congr_left fun d hd => ?_).trans (List.map_id digits)
  exact UInt8.toNat_ofNat_of_lt' (h d hd)

@[simp] theorem ofBytes_toBytes (n : ℕ) : ofBytes (toBytes n) = n := by
  unfold ofBytes toBytes
  rw [List.reverse_reverse, map_toNat_ofNat fun d hd => Nat.digits_lt_base (by decide) hd,
    Nat.ofDigits_digits]

theorem length_toBytes_le_iff {n k : ℕ} : (toBytes n).length ≤ k ↔ n < 256 ^ k := by
  unfold toBytes
  rw [List.length_reverse, List.length_map, Nat.digits_length_le_iff (by decide)]

theorem head_toBytes_ne_zero {n : ℕ} : (toBytes n).head? ≠ some 0 := by
  intro h
  unfold toBytes at h
  rw [List.head?_reverse, List.getLast?_map, Option.map_eq_some_iff] at h
  -- the head is the highest digit, and that is not zero
  obtain ⟨d, hd, hzero⟩ := h
  have hlt : d < 256 := Nat.digits_lt_base (by decide) (List.mem_of_getLast? hd)
  have hd0 : d = 0 := by
    have hnat := congrArg UInt8.toNat hzero
    rwa [UInt8.toNat_ofNat_of_lt' hlt] at hnat
  have hne : n ≠ 0 := by
    rintro rfl
    simp at hd
  have hlast := Nat.getLast_digit_ne_zero 256 hne
  rw [List.getLast?_eq_some_getLast (Nat.digits_ne_nil_iff_ne_zero.mpr hne)] at hd
  exact hlast ((Option.some.inj hd).trans hd0)

/-- The big-endian bytes of a number, filled up with leading zeros. -/
def toFixed (width n : ℕ) : List UInt8 :=
  List.replicate (width - (toBytes n).length) 0 ++ toBytes n

theorem length_toFixed {width n : ℕ} (h : n < 256 ^ width) : (toFixed width n).length = width := by
  have hle := length_toBytes_le_iff.mpr h
  unfold toFixed
  rw [List.length_append, List.length_replicate]
  omega

theorem ofBytes_replicate_append (k : ℕ) (bytes : List UInt8) :
    ofBytes (List.replicate k 0 ++ bytes) = ofBytes bytes := by
  unfold ofBytes
  rw [List.reverse_append, List.map_append, List.reverse_replicate, List.map_replicate]
  have hzero : (0 : UInt8).toNat = 0 := rfl
  rw [hzero, Nat.ofDigits_append_replicate_zero]

@[simp] theorem ofBytes_toFixed (width n : ℕ) : ofBytes (toFixed width n) = n := by
  unfold toFixed
  rw [ofBytes_replicate_append, ofBytes_toBytes]

/-! ### Items -/

/-- The header of a string or of a list with a payload of this length. -/
def header (isList : Bool) (length : ℕ) : List UInt8 :=
  let offset := if isList then 0xc0 else 0x80
  if length < 56 then [UInt8.ofNat (offset + length)]
  else UInt8.ofNat (offset + 55 + (toBytes length).length) :: toBytes length

/-- Reads a length of `width` bytes. It has no leading zero, and would not fit the first byte. -/
def decodeLong (isList : Bool) (width : ℕ) (bytes : List UInt8) :
    Option (Bool × ℕ × List UInt8) :=
  let digits := bytes.take width
  if bytes.length < width ∨ digits.head? = some 0 ∨ ofBytes digits < 56 then none
  else some (isList, ofBytes digits, bytes.drop width)

/-- Reads a header: whether a list follows, the length of its payload, and what comes after
the header. -/
def decodeHeader : List UInt8 → Option (Bool × ℕ × List UInt8)
  | [] => none
  | b :: rest =>
    if b.toNat < 0x80 then some (false, 1, b :: rest)
    else if b.toNat < 0xb8 then
      -- a single byte below 128 has no header
      if b.toNat = 0x81 ∧ rest.head?.any (fun c => c.toNat < 0x80) then none
      else some (false, b.toNat - 0x80, rest)
    else if b.toNat < 0xc0 then decodeLong false (b.toNat - 0xb7) rest
    else if b.toNat < 0xf8 then some (true, b.toNat - 0xc0, rest)
    else decodeLong true (b.toNat - 0xf7) rest

/-- Reads one item of the given kind: its payload, and what follows it. -/
def decodeItem (isList : Bool) (bytes : List UInt8) : Option (List UInt8 × List UInt8) :=
  (decodeHeader bytes).bind fun item =>
    if item.1 = isList ∧ item.2.1 ≤ item.2.2.length then
      some (item.2.2.take item.2.1, item.2.2.drop item.2.1)
    else none

/-- A single byte below 128. -/
def isSmall : List UInt8 → Bool
  | [b] => b.toNat < 0x80
  | _ => false

theorem isSmall_iff {s : List UInt8} : isSmall s = true ↔ ∃ b, s = [b] ∧ b.toNat < 0x80 := by
  refine ⟨?_, ?_⟩
  · intro h
    match s with
    | [] => cases h
    | [b] => exact ⟨b, rfl, of_decide_eq_true h⟩
    | _ :: _ :: _ => cases h
  · rintro ⟨b, rfl, hb⟩
    exact decide_eq_true hb

/-- The item of a string. -/
def encodeString (s : List UInt8) : List UInt8 :=
  if isSmall s then s else header false s.length ++ s

/-- The item of a list whose items have been encoded. -/
def encodeList (payload : List UInt8) : List UInt8 := header true payload.length ++ payload

section Items

theorem length_toBytes_le_eight {length : ℕ} (h : length < 2 ^ 64) :
    (toBytes length).length ≤ 8 :=
  length_toBytes_le_iff.mpr (lt_of_lt_of_eq h (by norm_num))

theorem length_header_le_of_lt (isList : Bool) {length k : ℕ} (h : length < 256 ^ k) :
    (header isList length).length ≤ k + 1 := by
  have hlen := length_toBytes_le_iff.mpr h
  unfold header
  dsimp only
  split
  · simp
  · rw [List.length_cons]
    omega

theorem length_header_le (isList : Bool) {length : ℕ} (h : length < 2 ^ 64) :
    (header isList length).length ≤ 9 :=
  length_header_le_of_lt isList (lt_of_lt_of_eq h (by norm_num))

/-- The header of a long payload holds all the digits of its length. -/
theorem lt_length_header (isList : Bool) {length k : ℕ} (hlong : 56 ≤ length)
    (h : 256 ^ k ≤ length) : k + 1 < (header isList length).length := by
  have hlen : k < (toBytes length).length := by
    rw [← not_le, length_toBytes_le_iff, not_lt]
    exact h
  unfold header
  dsimp only
  rw [if_neg (not_lt.mpr hlong), List.length_cons]
  exact Nat.succ_lt_succ hlen

theorem decodeLong_toBytes (isList : Bool) {length : ℕ} (rest : List UInt8) (h : 56 ≤ length) :
    decodeLong isList (toBytes length).length (toBytes length ++ rest)
      = some (isList, length, rest) := by
  have htake : (toBytes length ++ rest).take (toBytes length).length = toBytes length :=
    List.take_left
  unfold decodeLong
  dsimp only
  rw [htake, ofBytes_toBytes, List.drop_left, if_neg]
  rintro (hshort | hzero | hsmall)
  · rw [List.length_append] at hshort
    omega
  · exact head_toBytes_ne_zero hzero
  · omega

/-- **A header is read back.** -/
theorem decodeHeader_header {isList : Bool} {length : ℕ} {rest : List UInt8}
    (h : length < 2 ^ 64)
    (hsmall : isList = false → length = 1 → rest.head?.any (fun c => c.toNat < 0x80) = false) :
    decodeHeader (header isList length ++ rest) = some (isList, length, rest) := by
  have hlen := length_toBytes_le_eight h
  unfold header
  dsimp only
  split
  · -- a short length is in the first byte
    next hshort =>
    have hbyte : (UInt8.ofNat ((if isList then 0xc0 else 0x80) + length)).toNat
        = (if isList then 0xc0 else 0x80) + length :=
      UInt8.toNat_ofNat_of_lt' (by cases isList <;> simp [UInt8.size] <;> omega)
    unfold decodeHeader
    simp only [List.singleton_append, hbyte]
    cases isList with
    | true =>
      simp only [if_true]
      rw [if_neg (by omega), if_neg (by omega), if_neg (by omega), if_pos (by omega)]
      simp
    | false =>
      simp only [Bool.false_eq_true, if_false]
      rw [if_neg (by omega), if_pos (by omega), if_neg]
      · -- a single byte below 0x80 would have been written as itself
        simp
      · rintro ⟨hone, hany⟩
        rw [hsmall rfl (by omega)] at hany
        cases hany
  · -- a long length follows in bytes of its own, counted in the first byte
    next hlong =>
    have hpos : 0 < (toBytes length).length := by
      by_contra hzero
      have hlt : length < 256 ^ 0 := length_toBytes_le_iff.mp (by omega)
      omega
    have hbyte : (UInt8.ofNat ((if isList then 0xc0 else 0x80) + 55
        + (toBytes length).length)).toNat
        = (if isList then 0xc0 else 0x80) + 55 + (toBytes length).length :=
      UInt8.toNat_ofNat_of_lt' (by cases isList <;> simp [UInt8.size] <;> omega)
    unfold decodeHeader
    simp only [List.cons_append, hbyte]
    cases isList with
    | true =>
      simp only [if_true]
      rw [if_neg (by omega), if_neg (by omega), if_neg (by omega), if_neg (by omega)]
      have hwidth : 0xc0 + 55 + (toBytes length).length - 0xf7 = (toBytes length).length := by omega
      rw [hwidth]
      exact decodeLong_toBytes true rest (by omega)
    | false =>
      simp only [Bool.false_eq_true, if_false]
      rw [if_neg (by omega), if_neg (by omega), if_pos (by omega)]
      have hwidth : 0x80 + 55 + (toBytes length).length - 0xb7 = (toBytes length).length := by omega
      rw [hwidth]
      exact decodeLong_toBytes false rest (by omega)

/-- **A list is read back.** -/
theorem decodeItem_encodeList {payload : List UInt8} (rest : List UInt8)
    (h : payload.length < 2 ^ 64) :
    decodeItem true (encodeList payload ++ rest) = some (payload, rest) := by
  unfold decodeItem encodeList
  rw [List.append_assoc, decodeHeader_header h (fun hlist => by cases hlist), Option.bind_some]
  simp

/-- **A string is read back.** -/
theorem decodeItem_encodeString {s : List UInt8} (rest : List UInt8) (h : s.length < 2 ^ 64) :
    decodeItem false (encodeString s ++ rest) = some (s, rest) := by
  unfold decodeItem encodeString
  split
  · next hsmall =>
    -- the byte is its own item
    obtain ⟨b, rfl, hlt⟩ := isSmall_iff.mp hsmall
    rw [List.singleton_append]
    unfold decodeHeader
    dsimp only
    rw [if_pos hlt, Option.bind_some]
    simp
  · next hsmall =>
    rw [List.append_assoc, decodeHeader_header h, Option.bind_some]
    · simp
    · intro _ hone
      obtain ⟨b, rfl⟩ := List.length_eq_one_iff.mp hone
      rw [isSmall_iff] at hsmall
      simp only [List.singleton_append, List.head?_cons, Option.any_some, decide_eq_false_iff_not]
      exact fun hlt => hsmall ⟨b, rfl, hlt⟩

theorem length_encodeString_le {s : List UInt8} (h : s.length < 2 ^ 64) :
    (encodeString s).length ≤ s.length + 9 := by
  have hheader := length_header_le false h
  unfold encodeString
  split
  · omega
  · rw [List.length_append]
    omega

theorem length_le_length_encodeString (s : List UInt8) : s.length ≤ (encodeString s).length := by
  unfold encodeString
  split
  · exact le_rfl
  · rw [List.length_append]
    omega

theorem length_le_length_encodeList (payload : List UInt8) :
    payload.length ≤ (encodeList payload).length := by
  unfold encodeList
  rw [List.length_append]
  omega

theorem header_ne_nil (isList : Bool) (length : ℕ) : header isList length ≠ [] := by
  unfold header
  dsimp only
  split
  · exact List.cons_ne_nil _ _
  · exact List.cons_ne_nil _ _

theorem encodeString_ne_nil (s : List UInt8) : encodeString s ≠ [] := by
  unfold encodeString
  split
  · next hsmall =>
    rintro rfl
    cases hsmall
  · exact List.append_ne_nil_of_left_ne_nil (header_ne_nil _ _) _

theorem encodeList_ne_nil (payload : List UInt8) : encodeList payload ≠ [] :=
  List.append_ne_nil_of_left_ne_nil (header_ne_nil _ _) _

end Items

/-! ### Codecs -/

/-- A type whose values are encoded as one item each. -/
class Codec (α : Type) where
  encode : α → List UInt8
  /-- Reads one item, and returns what follows it. -/
  decode : List UInt8 → Option (α × List UInt8)
  encode_ne_nil : ∀ x, encode x ≠ []
  /-- The round trip, for payloads whose length fits eight bytes. -/
  decode_encode : ∀ x rest, (encode x).length < 2 ^ 64 → decode (encode x ++ rest) = some (x, rest)

export Codec (encode decode)

/-- The next field of a record is read back. -/
theorem bind_decode_encode {α β : Type} [Codec α] (x : α) (rest : List UInt8)
    (f : α × List UInt8 → Option β) (h : (encode x).length < 2 ^ 64) :
    (decode (encode x ++ rest)).bind f = f (x, rest) := by
  rw [Codec.decode_encode x rest h, Option.bind_some]

/-- The payload of a record is read back. -/
theorem bind_decodeItem_encodeList {β : Type} (payload rest : List UInt8)
    (f : List UInt8 × List UInt8 → Option β) (h : payload.length < 2 ^ 64) :
    (decodeItem true (encodeList payload ++ rest)).bind f = f (payload, rest) := by
  rw [decodeItem_encodeList rest h, Option.bind_some]

section Numbers

/-- Numbers below `bound`, without leading zeros. -/
def decodeNat (bound : ℕ) (bytes : List UInt8) : Option (ℕ × List UInt8) :=
  (decodeItem false bytes).bind fun item =>
    if item.1.head? = some 0 ∨ bound ≤ ofBytes item.1 then none
    else some (ofBytes item.1, item.2)

theorem decodeNat_encodeString {bound n : ℕ} (rest : List UInt8) (hn : n < bound)
    (h : (encodeString (toBytes n)).length < 2 ^ 64) :
    decodeNat bound (encodeString (toBytes n) ++ rest) = some (n, rest) := by
  have hlen := (length_le_length_encodeString (toBytes n)).trans_lt h
  unfold decodeNat
  rw [decodeItem_encodeString rest hlen, Option.bind_some, ofBytes_toBytes, if_neg]
  rintro (hzero | hbound)
  · exact head_toBytes_ne_zero hzero
  · omega

instance uint16Codec : Codec UInt16 where
  encode x := encodeString (toBytes x.toNat)
  decode bytes := (decodeNat (2 ^ 16) bytes).map fun item => (UInt16.ofNat item.1, item.2)
  encode_ne_nil x := encodeString_ne_nil _
  decode_encode x rest h := by
    rw [decodeNat_encodeString rest x.toNat_lt h, Option.map_some, UInt16.ofNat_toNat]

instance uint32Codec : Codec UInt32 where
  encode x := encodeString (toBytes x.toNat)
  decode bytes := (decodeNat (2 ^ 32) bytes).map fun item => (UInt32.ofNat item.1, item.2)
  encode_ne_nil x := encodeString_ne_nil _
  decode_encode x rest h := by
    rw [decodeNat_encodeString rest x.toNat_lt h, Option.map_some, UInt32.ofNat_toNat]

instance uint64Codec : Codec UInt64 where
  encode x := encodeString (toBytes x.toNat)
  decode bytes := (decodeNat (2 ^ 64) bytes).map fun item => (UInt64.ofNat item.1, item.2)
  encode_ne_nil x := encodeString_ne_nil _
  decode_encode x rest h := by
    rw [decodeNat_encodeString rest x.toNat_lt h, Option.map_some, UInt64.ofNat_toNat]

/-- The encoding of a number below `256 ^ 8` takes at most 17 bytes. -/
theorem length_encodeString_toBytes_le {n : ℕ} (h : n < 2 ^ 64) :
    (encodeString (toBytes n)).length ≤ 17 := by
  have hlen := length_toBytes_le_eight h
  have henc := length_encodeString_le (s := toBytes n) (by omega)
  omega

theorem length_encode_uint64_le (x : UInt64) : (encode x).length ≤ 17 :=
  length_encodeString_toBytes_le x.toNat_lt

theorem length_encode_uint32_le (x : UInt32) : (encode x).length ≤ 17 :=
  length_encodeString_toBytes_le (x.toNat_lt.trans (by decide))

end Numbers

section Strings

/-- Strings of any length. -/
instance bytesCodec : Codec (List UInt8) where
  encode := encodeString
  decode := decodeItem false
  encode_ne_nil := encodeString_ne_nil
  decode_encode s rest h :=
    decodeItem_encodeString rest ((length_le_length_encodeString s).trans_lt h)

/-- Strings of `width` bytes, for the numbers they spell. -/
@[reducible] def fixedCodec (width bound : ℕ) (hbound : bound = 256 ^ width) : Codec (Fin bound) where
  encode x := encodeString (toFixed width x)
  decode bytes := (decodeItem false bytes).bind fun item =>
    if h : item.1.length = width ∧ ofBytes item.1 < bound then some (⟨ofBytes item.1, h.2⟩, item.2)
    else none
  encode_ne_nil x := encodeString_ne_nil _
  decode_encode x rest h := by
    have hlen := (length_le_length_encodeString (toFixed width x)).trans_lt h
    have hwidth : (toFixed width x).length = width := length_toFixed (hbound ▸ x.isLt)
    rw [decodeItem_encodeString rest hlen, Option.bind_some, dif_pos ⟨hwidth, by simp⟩]
    simp

end Strings

section Lists

variable {α : Type} [Codec α]

/-- Reads items until nothing is left, at most `n` of them. -/
def decodeMany : ℕ → List UInt8 → Option (List α)
  | _, [] => some []
  | 0, _ :: _ => none
  | n + 1, b :: bytes =>
    (decode (b :: bytes)).bind fun item => (decodeMany n item.2).map (item.1 :: ·)

theorem decodeMany_flatMap {xs : List α} {n : ℕ} (hn : xs.length ≤ n)
    (h : (xs.flatMap encode).length < 2 ^ 64) : decodeMany n (xs.flatMap encode) = some xs := by
  -- item by item; the fuel is the number of items left
  induction xs generalizing n with
  | nil =>
    rw [List.flatMap_nil]
    unfold decodeMany
    rfl
  | cons x xs ih =>
    rw [List.flatMap_cons, List.length_append] at h
    rw [List.length_cons] at hn
    obtain ⟨b, bytes, hb⟩ := List.exists_cons_of_ne_nil (Codec.encode_ne_nil x)
    obtain ⟨m, rfl⟩ : ∃ m, n = m + 1 := ⟨n - 1, by omega⟩
    have hcons : encode x ++ xs.flatMap encode = b :: (bytes ++ xs.flatMap encode) := by
      rw [hb, List.cons_append]
    rw [List.flatMap_cons, hcons]
    unfold decodeMany
    rw [← hcons, bind_decode_encode x _ _ (by omega)]
    dsimp only
    rw [ih (by omega) (by omega), Option.map_some]

theorem length_le_length_flatMap (xs : List α) : xs.length ≤ (xs.flatMap encode).length := by
  induction xs with
  | nil => exact le_rfl
  | cons x xs ih =>
    have hpos := List.length_pos_of_ne_nil (Codec.encode_ne_nil x)
    rw [List.flatMap_cons, List.length_append, List.length_cons]
    omega

instance listCodec : Codec (List α) where
  encode xs := encodeList (xs.flatMap encode)
  decode bytes := (decodeItem true bytes).bind fun item =>
    (decodeMany item.1.length item.1).map fun xs => (xs, item.2)
  encode_ne_nil xs := encodeList_ne_nil _
  decode_encode xs rest h := by
    have hlen := (length_le_length_encodeList (xs.flatMap encode)).trans_lt h
    rw [bind_decodeItem_encodeList _ _ _ hlen]
    dsimp only
    rw [decodeMany_flatMap (length_le_length_flatMap xs) hlen, Option.map_some]

/-- The encoding of a list of items of bounded length. -/
theorem length_encode_list_le {xs : List α} {bound : ℕ} (hx : ∀ x ∈ xs, (encode x).length ≤ bound)
    (h : xs.length * bound < 2 ^ 64) : (encode xs).length ≤ xs.length * bound + 9 := by
  -- the payload is at most the bound for each item, and its header nine bytes
  have hpayload : (xs.flatMap encode).length ≤ xs.length * bound := by
    rw [List.length_flatMap]
    refine (List.sum_le_card_nsmul (xs.map fun x => (encode x).length) bound ?_).trans ?_
    · intro l hl
      obtain ⟨x, hmem, rfl⟩ := List.mem_map.mp hl
      exact hx x hmem
    · rw [List.length_map]
      exact le_rfl
  have hheader := length_header_le true (hpayload.trans_lt h)
  change (encodeList (xs.flatMap encode)).length ≤ _
  unfold encodeList
  rw [List.length_append]
  omega

end Lists

end Rlp
