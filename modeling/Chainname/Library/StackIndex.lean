import Mathlib.Data.List.Nodup

/-!
# An index beside a stack

The blocks of a stack have labels and list keys. An index tells where a key is: at which height,
counted from the bottom, in the block of which label, and where in its list. `Mirrors` says that
it tells what is the case, no more and no less.

Blocks are popped by label and pushed with their keys, and the index follows: it drops what
points to a popped label (`Mirrors.pop`) and learns where the new keys are (`Mirrors.push`). The
first needs labels that occur once, the second keys that are new.

Stacks are listed from the top.
-/

namespace StackIndex

variable {β γ κ : Type*} (label : β → γ) (keys : β → List κ)

/-- The key is at `i` in the block at `height`, which has label `l`. -/
def Located (stack : List β) (k : κ) (height : ℕ) (l : γ) (i : ℕ) : Prop :=
  ∃ b, stack.reverse[height]? = some b ∧ label b = l ∧ (keys b)[i]? = some k

/-- The index tells where the keys of the stack are. -/
def Mirrors (index : κ → ℕ → γ → ℕ → Prop) (stack : List β) : Prop :=
  ∀ k height l i, index k height l i ↔ Located label keys stack k height l i

variable {label keys} {index : κ → ℕ → γ → ℕ → Prop} {b : β} {top rest : List β}

/-- The keys that are located are those of the blocks. -/
theorem Located.mem {k : κ} {height : ℕ} {l : γ} {i : ℕ}
    (h : Located label keys rest k height l i) : l ∈ rest.map label ∧ k ∈ rest.flatMap keys := by
  obtain ⟨b, hb, rfl, hk⟩ := h
  have hmem : b ∈ rest := List.mem_reverse.mp (List.mem_of_getElem? hb)
  exact ⟨List.mem_map_of_mem hmem, List.mem_flatMap.mpr ⟨b, hmem, List.mem_of_getElem? hk⟩⟩

/-- What lies below the top keeps its height. -/
theorem located_append {k : κ} {height : ℕ} {l : γ} {i : ℕ} (hl : l ∉ top.map label) :
    Located label keys (top ++ rest) k height l i ↔ Located label keys rest k height l i := by
  have hget : ∀ b, label b = l →
      ((top ++ rest).reverse[height]? = some b ↔ rest.reverse[height]? = some b) := by
    rintro b rfl
    rw [List.reverse_append]
    -- positions below `top` read the same; those in it carry a label of `top`
    by_cases hlt : height < rest.reverse.length
    · rw [List.getElem?_append_left hlt]
    · rw [List.getElem?_append_right (Nat.le_of_not_lt hlt), List.getElem?_eq_none (Nat.le_of_not_lt hlt)]
      refine iff_of_false (fun hb => hl ?_) (Option.some_ne_none b).symm
      exact List.mem_map_of_mem (List.mem_reverse.mp (List.mem_of_getElem? hb))
  refine ⟨?_, ?_⟩
  · rintro ⟨b, hb, hlabel, hk⟩
    exact ⟨b, (hget b hlabel).mp hb, hlabel, hk⟩
  · rintro ⟨b, hb, hlabel, hk⟩
    exact ⟨b, (hget b hlabel).mpr hb, hlabel, hk⟩

/-- Neighbours in height are neighbours in the stack. -/
theorem split_of_neighbours {stack : List β} {i : ℕ} {lower upper : β}
    (hlower : stack.reverse[i]? = some lower) (hupper : stack.reverse[i + 1]? = some upper) :
    ∃ above below, stack = above ++ upper :: lower :: below := by
  obtain ⟨hlt, hget⟩ := List.getElem?_eq_some_iff.mp hlower
  obtain ⟨hlt', hget'⟩ := List.getElem?_eq_some_iff.mp hupper
  refine ⟨(stack.reverse.drop (i + 2)).reverse, (stack.reverse.take i).reverse, ?_⟩
  have hsplit : stack.reverse.take i ++ lower :: upper :: stack.reverse.drop (i + 2)
      = stack.reverse := by
    rw [← hget, ← hget', ← List.drop_eq_getElem_cons hlt', ← List.drop_eq_getElem_cons hlt,
      List.take_append_drop]
  calc stack = stack.reverse.reverse := (List.reverse_reverse stack).symm
    _ = (stack.reverse.take i ++ lower :: upper :: stack.reverse.drop (i + 2)).reverse := by
        rw [hsplit]
    _ = _ := by simp

/-- **Popping blocks** is dropping what points to their labels. -/
theorem Mirrors.pop (h : Mirrors label keys index (top ++ rest))
    (hlabels : ((top ++ rest).map label).Nodup) :
    Mirrors label keys (fun k height l i => index k height l i ∧ l ∉ top.map label) rest := by
  intro k height l i
  rw [List.map_append] at hlabels
  refine ⟨?_, ?_⟩
  · rintro ⟨hindex, hl⟩
    exact (located_append hl).mp ((h k height l i).mp hindex)
  · intro hlocated
    have hl : l ∉ top.map label := fun hmem =>
      (List.disjoint_of_nodup_append hlabels) hmem hlocated.mem.1
    exact ⟨(h k height l i).mpr ((located_append hl).mpr hlocated), hl⟩

/-- **Pushing a block** is learning where its keys are. -/
theorem Mirrors.push (h : Mirrors label keys index rest)
    (hfresh : ∀ k ∈ keys b, k ∉ rest.flatMap keys) :
    Mirrors label keys (fun k height l i =>
      (height = rest.length ∧ l = label b ∧ (keys b)[i]? = some k) ∨
        k ∉ keys b ∧ index k height l i) (b :: rest) := by
  intro k height l i
  unfold Located
  rw [List.reverse_cons]
  refine ⟨?_, ?_⟩
  · -- the new block on top, or an entry of the index that stands below it
    rintro (⟨rfl, rfl, hk⟩ | ⟨-, hindex⟩)
    · refine ⟨b, ?_, rfl, hk⟩
      rw [List.getElem?_append_right (by simp)]
      simp
    · obtain ⟨c, hc, hl, hk⟩ := (h k height l i).mp hindex
      refine ⟨c, ?_, hl, hk⟩
      rw [List.getElem?_append_left (List.getElem?_eq_some_iff.mp hc).1, hc]
  · rintro ⟨c, hc, rfl, hk⟩
    by_cases hlt : height < rest.reverse.length
    · rw [List.getElem?_append_left hlt] at hc
      have hlocated : Located label keys rest k height (label c) i := ⟨c, hc, rfl, hk⟩
      exact Or.inr ⟨fun hmem => hfresh k hmem hlocated.mem.2, (h k height _ i).mpr hlocated⟩
    · -- nothing lies above the new block
      rw [List.getElem?_append_right (Nat.le_of_not_lt hlt), List.getElem?_singleton] at hc
      split at hc
      · next hzero =>
        obtain rfl := Option.some.inj hc
        rw [List.length_reverse] at hlt hzero
        exact Or.inl ⟨by omega, rfl, hk⟩
      · cases hc

end StackIndex
