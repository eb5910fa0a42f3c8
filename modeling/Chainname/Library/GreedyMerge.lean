import Mathlib.Algebra.BigOperators.Group.Finset.Basic
import Mathlib.Data.List.Basic
import Mathlib.Order.Defs.LinearOrder

/-!
# Greedy merging of queues

Queues are merged by taking, again and again, the head of least key, until enough has been taken
or no queue has anything left (`Merge`). What comes out takes each queue in its own order
(`Merge.prefix_filter`), leaves nothing out before its time (`Merge.length_eq`), and has at every
place the best of the heads that were left (`Merge.choice`).

`least` is the choice itself, the scan of a list for an element of least key.
-/

namespace Greedy

section Least

variable {α κ : Type*} [LinearOrder κ] (key : α → κ)

/-- The first element of least key. -/
def least (a : α) (l : List α) : α := l.foldl (fun a b => if key b < key a then b else a) a

theorem least_mem (a : α) (l : List α) : least key a l ∈ a :: l := by
  unfold least
  induction l generalizing a with
  | nil => exact List.mem_cons_self
  | cons b l ih =>
    rw [List.foldl_cons]
    split
    · exact List.mem_cons_of_mem a (ih b)
    · obtain heq | hmem := List.mem_cons.mp (ih a)
      · rw [heq]
        exact List.mem_cons_self
      · exact List.mem_cons_of_mem a (List.mem_cons_of_mem b hmem)

theorem key_least_le (a : α) (l : List α) : ∀ b ∈ a :: l, key (least key a l) ≤ key b := by
  unfold least
  -- the best so far against the elements left
  induction l generalizing a with
  | nil =>
    intro b hb
    rw [List.mem_singleton.mp hb]
    exact le_rfl
  | cons c l ih =>
    intro b hb
    rw [List.foldl_cons]
    split
    · next hlt =>
      obtain rfl | hb := List.mem_cons.mp hb
      · exact (ih c c List.mem_cons_self).trans hlt.le
      · exact ih c b hb
    · next hle =>
      obtain rfl | hb := List.mem_cons.mp hb
      · exact ih b b List.mem_cons_self
      · obtain rfl | hb := List.mem_cons.mp hb
        · exact (ih a a List.mem_cons_self).trans (not_lt.mp hle)
        · exact ih a b (List.mem_cons_of_mem a hb)

end Least

section Merge

variable {ι α κ : Type*} [DecidableEq ι] [LinearOrder κ]

/-- What merging queues greedily yields, up to a number of elements. -/
inductive Merge (key : α → κ) : ℕ → (ι → List α) → List α → Prop
  | full (queue : ι → List α) : Merge key 0 queue []
  | dry (n : ℕ) {queue : ι → List α} (hempty : ∀ i, queue i = []) : Merge key n queue []
  | take {n : ℕ} {queue : ι → List α} {i : ι} {a : α} {rest out : List α}
      (hhead : queue i = a :: rest)
      (hleast : ∀ j b rest', queue j = b :: rest' → key a ≤ key b)
      (h : Merge key n (Function.update queue i rest) out) : Merge key (n + 1) queue (a :: out)

variable {key : α → κ} {owner : α → ι} {n : ℕ} {queue : ι → List α} {out : List α}

/-- Elements stay with their owner when a head is taken. -/
theorem owner_update (howner : ∀ i, ∀ a ∈ queue i, owner a = i) {i : ι} {a : α} {rest : List α}
    (hhead : queue i = a :: rest) : ∀ j, ∀ b ∈ Function.update queue i rest j, owner b = j := by
  intro j b hb
  by_cases hj : j = i
  · subst hj
    rw [Function.update_self] at hb
    exact howner j b (hhead ▸ List.mem_cons_of_mem a hb)
  · rw [Function.update_of_ne hj] at hb
    exact howner j b hb

/-- **Every queue comes out in its own order**, from its start and without a gap. -/
theorem Merge.prefix_filter (h : Merge key n queue out)
    (howner : ∀ i, ∀ a ∈ queue i, owner a = i) (i : ι) :
    out.filter (owner · = i) <+: queue i := by
  induction h with
  | full => exact List.nil_prefix
  | dry => exact List.nil_prefix
  | @take n queue j a rest out hhead _ _ ih =>
    have hrest := ih (owner_update howner hhead)
    have ha : owner a = j := howner j a (hhead ▸ List.mem_cons_self)
    -- the element taken belongs to one queue and is its head
    by_cases hi : i = j
    · subst hi
      rw [Function.update_self] at hrest
      rw [List.filter_cons, if_pos (decide_eq_true ha), hhead]
      exact List.cons_prefix_cons.mpr ⟨rfl, hrest⟩
    · rw [Function.update_of_ne hi] at hrest
      have hne : ¬ owner a = i := fun heq => hi (heq.symm.trans ha)
      rw [List.filter_cons, if_neg (by simpa using hne)]
      exact hrest

/-- What comes out was in a queue. -/
theorem Merge.mem_queue (h : Merge key n queue out) (howner : ∀ i, ∀ a ∈ queue i, owner a = i)
    {a : α} (ha : a ∈ out) : a ∈ queue (owner a) :=
  (h.prefix_filter howner (owner a)).subset
    (List.mem_filter.mpr ⟨ha, decide_eq_true rfl⟩)

/-- Nothing comes out twice that is not in a queue twice. -/
theorem Merge.nodup [DecidableEq α] (h : Merge key n queue out)
    (howner : ∀ i, ∀ a ∈ queue i, owner a = i) (hnodup : ∀ i, (queue i).Nodup) : out.Nodup := by
  refine List.nodup_iff_count_le_one.mpr fun a => ?_
  calc out.count a = (out.filter (owner · = owner a)).count a :=
        (List.count_filter (p := (owner · = owner a)) (decide_eq_true rfl)).symm
    _ ≤ (queue (owner a)).count a := (h.prefix_filter howner (owner a)).sublist.count_le a
    _ ≤ 1 := List.nodup_iff_count_le_one.mp (hnodup (owner a)) a

/-- **As much comes out as was asked for**, or as there is. -/
theorem Merge.length_eq (h : Merge key n queue out) (ids : Finset ι)
    (hids : ∀ i, i ∉ ids → queue i = []) : out.length = min n (∑ i ∈ ids, (queue i).length) := by
  induction h with
  | full => exact (Nat.zero_min _).symm
  | @dry n queue hempty =>
    have hzero : ∑ i ∈ ids, (queue i).length = 0 :=
      Finset.sum_eq_zero fun i _ => congrArg List.length (hempty i)
    rw [hzero]
    exact (Nat.min_zero n).symm
  | @take n queue j a rest out hhead _ _ ih =>
    have hmem : j ∈ ids := by
      by_contra hnot
      rw [hids j hnot] at hhead
      cases hhead
    have hothers : ∀ i, i ∉ ids → Function.update queue j rest i = [] := by
      intro i hi
      have hne : i ≠ j := by
        rintro rfl
        exact hi hmem
      rw [Function.update_of_ne hne]
      exact hids i hi
    have hrest := ih hothers
    -- one element has left the queue of `j`, and no other queue has changed
    have hsum : ∑ i ∈ ids, (queue i).length
        = ∑ i ∈ ids, (Function.update queue j rest i).length + 1 := by
      rw [← Finset.add_sum_erase ids _ hmem, ← Finset.add_sum_erase ids _ hmem, hhead,
        Function.update_self, List.length_cons]
      have hsame : ∀ i ∈ ids.erase j,
          (Function.update queue j rest i).length = (queue i).length := fun i hi => by
        rw [Function.update_of_ne (Finset.ne_of_mem_erase hi)]
      rw [Finset.sum_congr rfl hsame]
      exact Nat.add_right_comm _ _ _
    rw [List.length_cons, hrest, hsum, Nat.add_min_add_right]

/-- What is left of the queues after some of the elements have been taken. -/
def left (owner : α → ι) (queue : ι → List α) (done : List α) (i : ι) : List α :=
  (queue i).drop (done.countP (owner · = i))

theorem left_nil (owner : α → ι) (queue : ι → List α) : left owner queue [] = queue := rfl

/-- Taking a head first. -/
theorem left_cons (howner : ∀ i, ∀ a ∈ queue i, owner a = i) {i : ι} {a : α} {rest : List α}
    (hhead : queue i = a :: rest) (done : List α) :
    left owner queue (a :: done) = left owner (Function.update queue i rest) done := by
  have ha : owner a = i := howner i a (hhead ▸ List.mem_cons_self)
  funext j
  unfold left
  by_cases hj : j = i
  · subst hj
    rw [Function.update_self, hhead, List.countP_cons, if_pos (decide_eq_true ha),
      List.drop_succ_cons]
  · have hne : ¬ owner a = j := fun heq => hj (heq.symm.trans ha)
    rw [Function.update_of_ne hj, List.countP_cons, if_neg (by simpa using hne), Nat.add_zero]

/-- **Every choice is the best one**: a head of least key among the heads that were left. -/
theorem Merge.choice (h : Merge key n queue out) (howner : ∀ i, ∀ a ∈ queue i, owner a = i)
    {done todo : List α} {a : α} (hout : out = done ++ a :: todo) :
    (∃ rest, left owner queue done (owner a) = a :: rest) ∧
      ∀ i b rest, left owner queue done i = b :: rest → key a ≤ key b := by
  induction h generalizing done with
  | full => cases done <;> cases hout
  | dry => cases done <;> cases hout
  | @take n queue i c rest out hhead hleast _ ih =>
    -- the element asked for is the one taken now, or one taken later
    cases done with
    | nil =>
      obtain ⟨rfl, rfl⟩ := List.cons.inj hout
      rw [left_nil]
      refine ⟨⟨rest, ?_⟩, hleast⟩
      rw [howner i c (hhead ▸ List.mem_cons_self)]
      exact hhead
    | cons d done =>
      obtain ⟨rfl, htail⟩ := List.cons.inj hout
      rw [left_cons howner hhead]
      exact ih (owner_update howner hhead) htail

end Merge

end Greedy
