import Mathlib.Data.Int.CardIntervalMod
import Mathlib.Data.List.Nodup

/-!
# Dealing in turn

The entries of a list are dealt to `n` hands in turn, from the hand `start` on. Hand `j` gets
the entries at the places `i` with `(start + i) % n = j`, in order (`hand`).

The entry at place `i` is the `i / n`th of its hand (`getElem?_hand`), so it is among the first
`m` exactly when `i < m * n` (`mem_take_hand_iff`).
-/

namespace RoundRobin

variable {α : Type} {l : List α} {start n i j : ℕ} {x : α}

/-- What hand `j` of `n` gets. -/
def hand (l : List α) (start n j : ℕ) : List α :=
  (l.zipIdx.filter fun entry => (start + entry.2) % n = j).map Prod.fst

theorem mem_hand : x ∈ hand l start n j ↔ ∃ i, l[i]? = some x ∧ (start + i) % n = j := by
  unfold hand
  rw [List.mem_map]
  refine ⟨?_, ?_⟩
  · rintro ⟨⟨y, i⟩, hmem, rfl⟩
    rw [List.mem_filter, List.mk_mem_zipIdx_iff_getElem?, decide_eq_true_eq] at hmem
    exact ⟨i, hmem⟩
  · rintro ⟨i, hi, hj⟩
    refine ⟨(x, i), List.mem_filter.mpr ⟨?_, decide_eq_true hj⟩, rfl⟩
    exact List.mk_mem_zipIdx_iff_getElem?.mpr hi

theorem hand_subset : hand l start n j ⊆ l := by
  intro x hx
  obtain ⟨i, hi, -⟩ := mem_hand.mp hx
  exact List.mem_of_getElem? hi

theorem nodup_hand (h : l.Nodup) : (hand l start n j).Nodup := by
  have hsub : (hand l start n j).Sublist (l.zipIdx.map Prod.fst) := List.filter_sublist.map Prod.fst
  rw [List.zipIdx_map_fst] at hsub
  exact h.sublist hsub

/-- No entry is dealt to two hands. -/
theorem hand_unique (h : l.Nodup) {j' : ℕ} (hx : x ∈ hand l start n j)
    (hx' : x ∈ hand l start n j') : j = j' := by
  obtain ⟨i, hi, rfl⟩ := mem_hand.mp hx
  obtain ⟨i', hi', rfl⟩ := mem_hand.mp hx'
  obtain ⟨hlt, -⟩ := List.getElem?_eq_some_iff.mp hi
  rw [(List.getElem?_inj hlt h).mp (hi.trans hi'.symm)]

/-- The place of an entry among those that pass a test. -/
theorem getElem?_filter_countP {q : α → Bool} (hi : l[i]? = some x) (hq : q x = true) :
    (l.filter q)[(l.take i).countP q]? = some x := by
  obtain ⟨hlt, rfl⟩ := List.getElem?_eq_some_iff.mp hi
  have hsplit : l = l.take i ++ l[i] :: l.drop (i + 1) := by
    rw [List.getElem_cons_drop, List.take_append_drop]
  have hfilter : l.filter q = (l.take i).filter q ++ l[i] :: (l.drop (i + 1)).filter q := by
    conv_lhs => rw [hsplit]
    rw [List.filter_append, List.filter_cons_of_pos hq]
  rw [hfilter, List.countP_eq_length_filter, List.getElem?_append_right le_rfl, Nat.sub_self]
  rfl

/-- Before place `i`, the hand of this place gets `i / n` entries. -/
theorem countP_take_zipIdx (start : ℕ) (hn : 0 < n) (hi : i < l.length) :
    (l.zipIdx.take i).countP (fun entry => (start + entry.2) % n = (start + i) % n) = i / n := by
  have hplaces : (l.zipIdx.take i).map Prod.snd = List.range i := by
    rw [List.map_take, List.zipIdx_map_snd, List.range_eq_range',
      List.take_range'_of_length_ge hi.le]
  -- of the places below `i`, every `n`th is of the same hand
  have hcount := Nat.count_modEq_card i hn i
  rw [if_neg (lt_irrefl _), Nat.add_zero] at hcount
  calc (l.zipIdx.take i).countP (fun entry => (start + entry.2) % n = (start + i) % n)
      = ((l.zipIdx.take i).map Prod.snd).countP fun i' => (start + i') % n = (start + i) % n := by
        rw [List.countP_map]
        rfl
    _ = (List.range i).countP fun i' => i' ≡ i [MOD n] := by
        rw [hplaces]
        refine List.countP_congr fun i' _ => ?_
        rw [decide_eq_true_iff, decide_eq_true_iff]
        exact ⟨Nat.ModEq.add_left_cancel' start, Nat.ModEq.add_left start⟩
    _ = i / n := hcount

/-- **The place of an entry in its hand.** -/
theorem getElem?_hand (start : ℕ) (hn : 0 < n) (hi : l[i]? = some x) :
    (hand l start n ((start + i) % n))[i / n]? = some x := by
  obtain ⟨hlt, -⟩ := List.getElem?_eq_some_iff.mp hi
  have hentry : l.zipIdx[i]? = some (x, i) := by
    rw [List.getElem?_zipIdx, hi]
    simp
  unfold hand
  rw [← countP_take_zipIdx start hn hlt, List.getElem?_map,
    getElem?_filter_countP hentry (decide_eq_true rfl)]
  rfl

/-- **The first `m` of each hand** are the entries at the places below `m * n`. -/
theorem mem_take_hand_iff (start : ℕ) (h : l.Nodup) (hn : 0 < n) (hi : l[i]? = some x) {m : ℕ} :
    x ∈ (hand l start n ((start + i) % n)).take m ↔ i < m * n := by
  have hplace := getElem?_hand start hn hi
  obtain ⟨hlt, hget⟩ := List.getElem?_eq_some_iff.mp hplace
  rw [← Nat.div_lt_iff_lt_mul hn]
  refine ⟨?_, ?_⟩
  · intro hmem
    obtain ⟨k, hk, he⟩ := List.mem_take_iff_getElem.mp hmem
    obtain ⟨hkm, hkl⟩ := lt_min_iff.mp hk
    -- no entry is twice in a hand, so its place is the one found above
    have hsame : k = i / n := by
      refine (List.getElem?_inj hkl (nodup_hand h)).mp ?_
      rw [hplace, List.getElem?_eq_getElem hkl, he]
    exact hsame ▸ hkm
  · intro hm
    exact List.mem_take_iff_getElem.mpr ⟨i / n, lt_min hm hlt, hget⟩

end RoundRobin
