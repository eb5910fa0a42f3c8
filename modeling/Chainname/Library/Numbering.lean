import Mathlib.Data.List.Nodup

/-!
# Numbering the items of groups

Items come in groups, and a number runs through all of them. `number` gives every item the place
of its group and its own number, and is what two nested loops with a counter compute that is
never set back (`foldl_number`).

The items of one group are `ofGroup`: consecutive numbers, beginning after the groups before it
(`filter_number`). Numbers are unique, as they count up (`map_index_number`).
-/

namespace Numbering

/-- An item with the place of its group and its number. -/
structure Numbered (α : Type*) where
  group : ℕ
  index : ℕ
  item : α
  deriving DecidableEq

variable {α β γ : Type*}

/-- The items of one group, numbered from `index`. -/
def ofGroup (group index : ℕ) (items : List α) : List (Numbered α) :=
  (items.zipIdx index).map fun entry => ⟨group, entry.2, entry.1⟩

/-- The items of groups, numbered from `index`. -/
def number : ℕ → ℕ → List (List α) → List (Numbered α)
  | _, _, [] => []
  | group, index, items :: groups =>
    ofGroup group index items ++ number (group + 1) (index + items.length) groups

theorem ofGroup_cons (group index : ℕ) (item : α) (items : List α) :
    ofGroup group index (item :: items)
      = ⟨group, index, item⟩ :: ofGroup group (index + 1) items := by
  unfold ofGroup
  rw [List.zipIdx_cons, List.map_cons]

theorem map_item_ofGroup (group index : ℕ) (items : List α) :
    (ofGroup group index items).map Numbered.item = items := by
  unfold ofGroup
  rw [List.map_map]
  exact List.zipIdx_map_fst index items

theorem map_index_ofGroup (group index : ℕ) (items : List α) :
    (ofGroup group index items).map Numbered.index = List.range' index items.length := by
  unfold ofGroup
  rw [List.map_map]
  exact List.zipIdx_map_snd index items

theorem group_of_mem_ofGroup {group index : ℕ} {items : List α} {n : Numbered α}
    (h : n ∈ ofGroup group index items) : n.group = group := by
  unfold ofGroup at h
  obtain ⟨entry, -, rfl⟩ := List.mem_map.mp h
  rfl

/-! ### All groups -/

theorem map_item_number (group index : ℕ) (groups : List (List α)) :
    (number group index groups).map Numbered.item = groups.flatten := by
  induction groups generalizing group index with
  | nil => rfl
  | cons items groups ih =>
    rw [number, List.map_append, map_item_ofGroup, ih, List.flatten_cons]

/-- **Numbers count up.** -/
theorem map_index_number (group index : ℕ) (groups : List (List α)) :
    (number group index groups).map Numbered.index = List.range' index groups.flatten.length := by
  induction groups generalizing group index with
  | nil => rfl
  | cons items groups ih =>
    rw [number, List.map_append, map_index_ofGroup, ih, List.range'_append_1, List.flatten_cons,
      List.length_append]

/-- Items with one number are one. -/
theorem eq_of_index_eq {group index : ℕ} {groups : List (List α)} {n n' : Numbered α}
    (h : n ∈ number group index groups) (h' : n' ∈ number group index groups)
    (he : n.index = n'.index) : n = n' := by
  have hnodup : ((number group index groups).map Numbered.index).Nodup := by
    rw [map_index_number]
    exact List.nodup_range'
  exact List.inj_on_of_nodup_map hnodup h h' he

theorem le_group_of_mem_number {group index : ℕ} {groups : List (List α)} {n : Numbered α}
    (h : n ∈ number group index groups) : group ≤ n.group := by
  induction groups generalizing group index with
  | nil => exact absurd h List.not_mem_nil
  | cons items groups ih =>
    rw [number] at h
    rcases List.mem_append.mp h with h | h
    · exact Nat.le_of_eq (group_of_mem_ofGroup h).symm
    · exact Nat.le_of_succ_le (ih h)

theorem filter_ofGroup_self (group index : ℕ) (items : List α) :
    ((ofGroup group index items).filter fun n => n.group = group) = ofGroup group index items :=
  List.filter_eq_self.mpr fun _ h => decide_eq_true (group_of_mem_ofGroup h)

/-- **The items of one group** are numbered from where the groups before it end. -/
theorem filter_number (group index place : ℕ) (groups : List (List α)) :
    ((number group index groups).filter fun n => n.group = group + place)
      = ofGroup (group + place) (index + (groups.take place).flatten.length)
          (groups[place]?.getD []) := by
  induction groups generalizing group index place with
  | nil => rw [List.getElem?_nil]; rfl
  | cons items groups ih =>
    rw [number, List.filter_append]
    cases place with
    | zero =>
      -- the groups after it have other places
      have hrest : (number (group + 1) (index + items.length) groups).filter
          (fun n => n.group = group + 0) = [] := by
        rw [List.filter_eq_nil_iff]
        intro n hn
        have := le_group_of_mem_number hn
        simp only [decide_eq_true_eq]
        omega
      rw [hrest, List.append_nil]
      exact filter_ofGroup_self group index items
    | succ place =>
      -- the first group has another place, and the rest is numbered after it
      have hfirst : (ofGroup group index items).filter
          (fun n => n.group = group + (place + 1)) = [] := by
        rw [List.filter_eq_nil_iff]
        intro n hn
        have := group_of_mem_ofGroup hn
        simp only [decide_eq_true_eq]
        omega
      have hplace : group + (place + 1) = group + 1 + place := by omega
      rw [hfirst, List.nil_append, hplace, ih, List.take_succ_cons, List.flatten_cons,
        List.length_append, List.getElem?_cons_succ, Nat.add_assoc index]

/-! ### The loops -/

section Loops

variable (keep : α → Bool) (view : Numbered α → β)

/-- The inner loop: every item takes a number, and those to keep are viewed. -/
def visit (group : ℕ) (st : ℕ × List β) (item : α) : ℕ × List β :=
  (st.1 + 1, if keep item then st.2 ++ [view ⟨group, st.1, item⟩] else st.2)

theorem foldl_visit (group index : ℕ) (out : List β) (items : List α) :
    items.foldl (visit keep view group) (index, out) = (index + items.length,
      out ++ ((ofGroup group index items).filter fun n => keep n.item).map view) := by
  induction items generalizing index out with
  | nil => exact Prod.ext rfl (List.append_nil out).symm
  | cons item items ih =>
    rw [List.foldl_cons, ofGroup_cons]
    unfold visit
    refine (ih _ _).trans (Prod.ext ?_ ?_)
    · show index + 1 + items.length = index + (items.length + 1)
      omega
    · -- a dropped item takes its number all the same
      by_cases hkeep : keep item = true
      · rw [if_pos hkeep, List.filter_cons_of_pos (by exact hkeep), List.map_cons,
          List.append_assoc, List.singleton_append]
      · rw [if_neg hkeep, List.filter_cons_of_neg (by exact hkeep)]

/-- **Two nested loops** with one counter number all items. -/
theorem foldl_number (items : γ → List α) (group index : ℕ) (out : List β) (groups : List γ) :
    (groups.zipIdx group).foldl
        (fun st entry => (items entry.1).foldl (visit keep view entry.2) st) (index, out)
      = (index + (groups.map items).flatten.length, out ++
          ((number group index (groups.map items)).filter fun n => keep n.item).map view) := by
  induction groups generalizing group index out with
  | nil => exact Prod.ext rfl (List.append_nil out).symm
  | cons first groups ih =>
    rw [List.zipIdx_cons, List.foldl_cons, foldl_visit, ih, List.map_cons, number,
      List.filter_append, List.map_append, List.flatten_cons, List.length_append, Nat.add_assoc,
      List.append_assoc]

end Loops

end Numbering
