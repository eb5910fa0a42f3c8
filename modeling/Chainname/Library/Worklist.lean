import Mathlib.Data.Finset.Card
import Mathlib.Data.Finset.Insert
import Mathlib.Data.Finset.SDiff
import Mathlib.Data.List.TakeWhile
import Mathlib.Logic.Relation

/-!
# Search with a visited set

`visit next n seen queue` pops items off a queue and pushes the successors `next` gives
that were not seen before, for at most `n` pops, and returns the popped items in order.
The visited set is what makes it terminate: every item is pushed at most once, so on a
finite universe closed under `next` the unseen items and the queue together bound the
number of pops (`visit_spec`), and a search started from a duplicate-free queue pops
exactly the items reachable from it (`mem_visit_iff`), each once (`nodup_visit`). A depth-first
search, which marks an item when it is popped, sees the same (`mem_explore_iff`).
-/

namespace Worklist

variable {α : Type} [DecidableEq α]

/-- Push the items of a list that were not seen before, marking each as seen. -/
def push : List α → Finset α → List α → Finset α × List α
  | [], seen, queue => (seen, queue)
  | x :: xs, seen, queue =>
    if x ∈ seen then push xs seen queue else push xs (insert x seen) (queue ++ [x])

/-- The items a breadth-first search pops, in order, with at most `n` pops. -/
def visit (next : α → List α) : ℕ → Finset α → List α → List α
  | 0, _, _ => []
  | _ + 1, _, [] => []
  | n + 1, seen, x :: queue =>
    x :: visit next n (push (next x) seen queue).1 (push (next x) seen queue).2

theorem mem_push_fst {x : α} : ∀ (xs : List α) (seen : Finset α) (queue : List α),
    x ∈ (push xs seen queue).1 ↔ x ∈ seen ∨ x ∈ xs := by
  intro xs
  induction xs with
  | nil => intro seen queue; simp [push]
  | cons y ys ih =>
    intro seen queue
    unfold push
    split
    · next h =>
      rw [ih, List.mem_cons]
      refine ⟨?_, ?_⟩
      · exact fun hx => hx.imp_right Or.inr
      · rintro (hx | rfl | hx)
        · exact Or.inl hx
        · exact Or.inl h
        · exact Or.inr hx
    · rw [ih, Finset.mem_insert, List.mem_cons]
      tauto

theorem mem_push_snd {x : α} : ∀ (xs : List α) (seen : Finset α) (queue : List α),
    x ∈ (push xs seen queue).2 ↔ x ∈ queue ∨ (x ∈ xs ∧ x ∉ seen) := by
  intro xs
  induction xs with
  | nil => intro seen queue; simp [push]
  | cons y ys ih =>
    intro seen queue
    unfold push
    split
    · next h =>
      rw [ih, List.mem_cons]
      refine ⟨?_, ?_⟩
      · exact fun hx => hx.imp_right fun hx => ⟨Or.inr hx.1, hx.2⟩
      · rintro (hx | ⟨rfl | hx, hn⟩)
        · exact Or.inl hx
        · exact absurd h hn
        · exact Or.inr ⟨hx, hn⟩
    · next h =>
      rw [ih, List.mem_append, List.mem_singleton, Finset.mem_insert, List.mem_cons]
      refine ⟨?_, ?_⟩
      · rintro ((hx | rfl) | ⟨hx, hn⟩)
        · exact Or.inl hx
        · exact Or.inr ⟨Or.inl rfl, h⟩
        · exact Or.inr ⟨Or.inr hx, fun hs => hn (Or.inr hs)⟩
      · rintro (hx | ⟨rfl | hx, hn⟩)
        · exact Or.inl (Or.inl hx)
        · exact Or.inl (Or.inr rfl)
        · by_cases hxy : x = y
          · exact Or.inl (Or.inr hxy)
          · exact Or.inr ⟨hx, fun hs => hs.elim hxy hn⟩

theorem nodup_push : ∀ (xs : List α) (seen : Finset α) (queue : List α),
    (∀ q ∈ queue, q ∈ seen) → queue.Nodup → (push xs seen queue).2.Nodup := by
  intro xs
  induction xs with
  | nil => intro seen queue _ hnd; exact hnd
  | cons y ys ih =>
    intro seen queue hsub hnd
    unfold push
    split
    · exact ih seen queue hsub hnd
    · next h =>
      refine ih _ _ ?_ ?_
      · intro q hq
        rcases List.mem_append.mp hq with hq | hq
        · exact Finset.mem_insert_of_mem (hsub q hq)
        · rw [List.mem_singleton.mp hq]
          exact Finset.mem_insert_self _ _
      · refine List.nodup_append.mpr ⟨hnd, List.nodup_singleton _, ?_⟩
        rintro a ha b hb rfl
        rw [List.mem_singleton.mp hb] at ha
        exact h (hsub _ ha)

/-- The measure of the search: a push moves one unseen item of the universe into the
queue, so unseen items and queue length together never grow. -/
theorem push_measure (U : Finset α) : ∀ (xs : List α) (seen : Finset α) (queue : List α),
    (∀ x ∈ xs, x ∈ U) →
    (U \ (push xs seen queue).1).card + (push xs seen queue).2.length
      ≤ (U \ seen).card + queue.length := by
  intro xs
  induction xs with
  | nil => intro seen queue _; exact le_rfl
  | cons y ys ih =>
    intro seen queue hU
    have hys : ∀ x ∈ ys, x ∈ U := fun x hx => hU x (List.mem_cons_of_mem y hx)
    unfold push
    split
    · exact ih seen queue hys
    · next h =>
      refine (ih _ _ hys).trans ?_
      have hy : y ∈ U \ seen := Finset.mem_sdiff.mpr ⟨hU y List.mem_cons_self, h⟩
      have hcard : (U \ insert y seen).card + 1 = (U \ seen).card := by
        rw [Finset.sdiff_insert, Finset.card_erase_of_mem hy]
        have := Finset.card_pos.mpr ⟨y, hy⟩
        omega
      rw [List.length_append, List.length_singleton]
      omega

/-- What a search pops: the queue and all it leads to, but for what had been seen. -/
structure Pops (next : α → List α) (seen : Finset α) (queue popped : List α) : Prop where
  queued : ∀ q ∈ queue, q ∈ popped
  closed : ∀ x ∈ popped, ∀ y ∈ next x, y ∈ popped ∨ y ∈ seen
  reached : ∀ x ∈ popped, ∃ q ∈ queue, Relation.ReflTransGen (fun a b => b ∈ next a) q x
  nodup : popped.Nodup
  fresh : ∀ x ∈ popped, x ∈ queue ∨ x ∉ seen

omit [DecidableEq α] in
theorem Pops.nil (next : α → List α) (seen : Finset α) : Pops next seen [] [] where
  queued := fun _ h => h
  closed := fun _ h => absurd h List.not_mem_nil
  reached := fun _ h => absurd h List.not_mem_nil
  nodup := List.nodup_nil
  fresh := fun _ h => absurd h List.not_mem_nil

/-- One pop: the item goes, and what it leads to has been pushed. -/
theorem Pops.cons {next : α → List α} {q : α} {seen : Finset α} {queue popped : List α}
    (h : Pops next (push (next q) seen queue).1 (push (next q) seen queue).2 popped)
    (hseen : q ∈ seen) (hq : q ∉ queue) : Pops next seen (q :: queue) (q :: popped) where
  queued := by
    intro x hx
    rcases List.mem_cons.mp hx with rfl | hx
    · exact List.mem_cons_self
    · exact List.mem_cons_of_mem _ (h.queued x ((mem_push_snd _ _ _).mpr (Or.inl hx)))
  closed := by
    -- what has been pushed is popped later, unless it had been seen
    have hpushed : ∀ y ∈ next q, y ∈ q :: popped ∨ y ∈ seen := by
      intro y hy
      by_cases hys : y ∈ seen
      · exact Or.inr hys
      · exact Or.inl (List.mem_cons_of_mem _
          (h.queued y ((mem_push_snd _ _ _).mpr (Or.inr ⟨hy, hys⟩))))
    intro x hx y hy
    rcases List.mem_cons.mp hx with rfl | hx
    · exact hpushed y hy
    · rcases h.closed x hx y hy with hpopped | hpush
      · exact Or.inl (List.mem_cons_of_mem _ hpopped)
      · rcases (mem_push_fst _ _ _).mp hpush with hys | hy
        · exact Or.inr hys
        · exact hpushed y hy
  reached := by
    intro x hx
    rcases List.mem_cons.mp hx with rfl | hx
    · exact ⟨x, List.mem_cons_self, Relation.ReflTransGen.refl⟩
    · obtain ⟨z, hz, hzx⟩ := h.reached x hx
      rcases (mem_push_snd _ _ _).mp hz with hz | hz
      · exact ⟨z, List.mem_cons_of_mem q hz, hzx⟩
      · exact ⟨q, List.mem_cons_self, Relation.ReflTransGen.head hz.1 hzx⟩
  nodup := by
    refine List.nodup_cons.mpr ⟨fun hmem => ?_, h.nodup⟩
    rcases h.fresh q hmem with hqueue | hnew
    · rcases (mem_push_snd _ _ _).mp hqueue with hqueue | hnew
      · exact hq hqueue
      · exact hnew.2 hseen
    · exact hnew ((mem_push_fst _ _ _).mpr (Or.inl hseen))
  fresh := by
    intro x hx
    rcases List.mem_cons.mp hx with rfl | hx
    · exact Or.inl List.mem_cons_self
    · rcases h.fresh x hx with hqueue | hnew
      · rcases (mem_push_snd _ _ _).mp hqueue with hqueue | hnew
        · exact Or.inl (List.mem_cons_of_mem q hqueue)
        · exact Or.inr hnew.2
      · exact Or.inr fun hs => hnew ((mem_push_fst _ _ _).mpr (Or.inl hs))

/-- Enough pops for everything: no unseen item of the universe and no queued item can be
left over. -/
theorem visit_spec (next : α → List α) (U : Finset α) (hU : ∀ x ∈ U, ∀ y ∈ next x, y ∈ U) :
    ∀ (n : ℕ) (seen : Finset α) (queue : List α), (∀ q ∈ queue, q ∈ seen) →
      (∀ q ∈ queue, q ∈ U) → queue.Nodup → (U \ seen).card + queue.length ≤ n →
      Pops next seen queue (visit next n seen queue) := by
  intro n
  induction n with
  | zero =>
    intro seen queue _ _ _ hn
    obtain rfl : queue = [] := List.length_eq_zero_iff.mp (by omega)
    exact Pops.nil next seen
  | succ n ih =>
    intro seen queue hsub hqU hnd hn
    cases queue with
    | nil => exact Pops.nil next seen
    | cons q queue =>
      have hxs : ∀ x ∈ next q, x ∈ U := hU q (hqU q List.mem_cons_self)
      obtain ⟨hq, hnd⟩ := List.nodup_cons.mp hnd
      have hsub' : ∀ x ∈ queue, x ∈ seen := fun x hx => hsub x (List.mem_cons_of_mem q hx)
      have hm := push_measure U (next q) seen queue hxs
      rw [List.length_cons] at hn
      refine Pops.cons (ih _ _ (fun x hx => ?_) (fun x hx => ?_) (nodup_push _ _ _ hsub' hnd)
        (by omega)) (hsub q List.mem_cons_self) hq
      · rcases (mem_push_snd _ _ _).mp hx with hx | hx
        · exact (mem_push_fst _ _ _).mpr (Or.inl (hsub' x hx))
        · exact (mem_push_fst _ _ _).mpr (Or.inr hx.1)
      · rcases (mem_push_snd _ _ _).mp hx with hx | hx
        · exact hqU x (List.mem_cons_of_mem q hx)
        · exact hxs x hx.1

section FromQueue

variable {next : α → List α} {U : Finset α} {n : ℕ} {queue : List α}

/-- A search whose seen set is its initial queue goes through. -/
theorem pops_visit (hU : ∀ x ∈ U, ∀ y ∈ next x, y ∈ U) (hq : ∀ q ∈ queue, q ∈ U)
    (hnd : queue.Nodup) (hn : U.card ≤ n) :
    Pops next queue.toFinset queue (visit next n queue.toFinset queue) := by
  refine visit_spec next U hU n queue.toFinset queue (fun q hq => List.mem_toFinset.mpr hq) hq hnd ?_
  have hsub : queue.toFinset ⊆ U := fun a ha => hq a (List.mem_toFinset.mp ha)
  have := Finset.card_sdiff_add_card_eq_card hsub
  rw [List.toFinset_card_of_nodup hnd] at this
  omega

/-- It pops exactly what is reachable from the queue. -/
theorem mem_visit_iff (hU : ∀ x ∈ U, ∀ y ∈ next x, y ∈ U) (hq : ∀ q ∈ queue, q ∈ U)
    (hnd : queue.Nodup) (hn : U.card ≤ n) {x : α} :
    x ∈ visit next n queue.toFinset queue ↔
      ∃ q ∈ queue, Relation.ReflTransGen (fun a b => b ∈ next a) q x := by
  have hpops := pops_visit hU hq hnd hn
  refine ⟨hpops.reached x, ?_⟩
  rintro ⟨q, hqm, hqx⟩
  induction hqx with
  | refl => exact hpops.queued q hqm
  | tail _ hbc ih =>
    rcases hpops.closed _ ih _ hbc with h | h
    · exact h
    · exact hpops.queued _ (List.mem_toFinset.mp h)

theorem nodup_visit (hU : ∀ x ∈ U, ∀ y ∈ next x, y ∈ U) (hq : ∀ q ∈ queue, q ∈ U)
    (hnd : queue.Nodup) (hn : U.card ≤ n) : (visit next n queue.toFinset queue).Nodup :=
  (pops_visit hU hq hnd hn).nodup

end FromQueue

/-! ### Depth first -/

/-- What a depth-first search has seen after at most `n` new items. The top of the stack comes
first, and what has been seen is passed over. -/
def explore (next : α → List α) : ℕ → Finset α → List α → Finset α
  | 0, seen, _ => seen
  | n + 1, seen, stack =>
    match stack.dropWhile (· ∈ seen) with
    | [] => seen
    | x :: rest => explore next n (insert x seen) (next x ++ rest)

/-- What a search finds: all that was seen, the stack, and all the stack leads to. -/
structure Explored (next : α → List α) (seen : Finset α) (stack : List α) (found : Finset α) :
    Prop where
  kept : ∀ x ∈ seen, x ∈ found
  stacked : ∀ x ∈ stack, x ∈ found
  closed : ∀ x ∈ found, x ∈ seen ∨ ∀ y ∈ next x, y ∈ found
  reached : ∀ x ∈ found,
    x ∈ seen ∨ ∃ q ∈ stack, Relation.ReflTransGen (fun a b => b ∈ next a) q x

omit [DecidableEq α] in
/-- Nothing is left to be seen. -/
theorem Explored.of_seen {next : α → List α} {seen : Finset α} {stack : List α}
    (h : ∀ x ∈ stack, x ∈ seen) : Explored next seen stack seen :=
  ⟨fun _ hx => hx, h, fun _ hx => Or.inl hx, fun _ hx => Or.inl hx⟩

/-- One new item: it is seen, and what it leads to is put on the stack. -/
theorem Explored.cons {next : α → List α} {seen found : Finset α} {passed rest : List α} {x : α}
    (h : Explored next (insert x seen) (next x ++ rest) found) (hpassed : ∀ y ∈ passed, y ∈ seen) :
    Explored next seen (passed ++ x :: rest) found where
  kept y hy := h.kept y (Finset.mem_insert_of_mem hy)
  stacked y hy := by
    obtain hy | hy := List.mem_append.mp hy
    · exact h.kept y (Finset.mem_insert_of_mem (hpassed y hy))
    · obtain rfl | hy := List.mem_cons.mp hy
      · exact h.kept y (Finset.mem_insert_self y seen)
      · exact h.stacked y (List.mem_append_right _ hy)
  closed y hy := by
    obtain hy | hy := h.closed y hy
    · obtain rfl | hy := Finset.mem_insert.mp hy
      · exact Or.inr fun z hz => h.stacked z (List.mem_append_left _ hz)
      · exact Or.inl hy
    · exact Or.inr hy
  reached y hy := by
    have htop : x ∈ passed ++ x :: rest := List.mem_append_right _ List.mem_cons_self
    obtain hy | ⟨q, hq, hqy⟩ := h.reached y hy
    · obtain rfl | hy := Finset.mem_insert.mp hy
      · exact Or.inr ⟨y, htop, Relation.ReflTransGen.refl⟩
      · exact Or.inl hy
    · obtain hq | hq := List.mem_append.mp hq
      · exact Or.inr ⟨x, htop, Relation.ReflTransGen.head hq hqy⟩
      · exact Or.inr ⟨q, List.mem_append_right _ (List.mem_cons_of_mem x hq), hqy⟩

theorem explore_spec (next : α → List α) (U : Finset α) (hU : ∀ x ∈ U, ∀ y ∈ next x, y ∈ U) :
    ∀ (n : ℕ) (seen : Finset α) (stack : List α), (∀ x ∈ stack, x ∈ U) → (U \ seen).card ≤ n →
      Explored next seen stack (explore next n seen stack) := by
  intro n
  induction n with
  | zero =>
    intro seen stack hstack hn
    refine Explored.of_seen fun x hx => ?_
    have hempty : U \ seen = ∅ := Finset.card_eq_zero.mp (Nat.le_zero.mp hn)
    exact Finset.sdiff_eq_empty_iff_subset.mp hempty (hstack x hx)
  | succ n ih =>
    intro seen stack hstack hn
    have hsplit : stack.takeWhile (· ∈ seen) ++ stack.dropWhile (· ∈ seen) = stack :=
      List.takeWhile_append_dropWhile
    have hpassed : ∀ y ∈ stack.takeWhile (· ∈ seen), y ∈ seen := by
      intro y hy
      have hseen := List.mem_takeWhile_imp hy
      exact of_decide_eq_true hseen
    unfold explore
    cases hdrop : stack.dropWhile (· ∈ seen) with
    | nil =>
      rw [hdrop, List.append_nil] at hsplit
      refine Explored.of_seen fun x hx => hpassed x ?_
      rwa [hsplit]
    | cons x rest =>
      have hx : x ∉ seen := by
        have hne : stack.dropWhile (· ∈ seen) ≠ [] := hdrop ▸ List.cons_ne_nil x rest
        have hhead := List.head_dropWhile_not (fun y => decide (y ∈ seen)) hne
        simp only [hdrop, List.head_cons] at hhead
        exact of_decide_eq_false hhead
      rw [hdrop] at hsplit
      have hmem : ∀ y ∈ x :: rest, y ∈ U := fun y hy =>
        hstack y (hsplit ▸ List.mem_append_right _ hy)
      rw [← hsplit]
      refine (ih (insert x seen) (next x ++ rest) (fun y hy => ?_) ?_).cons hpassed
      · obtain hy | hy := List.mem_append.mp hy
        · exact hU x (hmem x List.mem_cons_self) y hy
        · exact hmem y (List.mem_cons_of_mem x hy)
      · have hunseen : x ∈ U \ seen := Finset.mem_sdiff.mpr ⟨hmem x List.mem_cons_self, hx⟩
        rw [Finset.sdiff_insert, Finset.card_erase_of_mem hunseen]
        omega

/-- It sees exactly what is reachable from the stack. -/
theorem mem_explore_iff {next : α → List α} {U : Finset α} {n : ℕ} {stack : List α}
    (hU : ∀ x ∈ U, ∀ y ∈ next x, y ∈ U) (hstack : ∀ x ∈ stack, x ∈ U) (hn : U.card ≤ n) {x : α} :
    x ∈ explore next n ∅ stack ↔
      ∃ q ∈ stack, Relation.ReflTransGen (fun a b => b ∈ next a) q x := by
  have hunseen : (U \ ∅).card ≤ n := by rwa [Finset.sdiff_empty]
  have hfound := explore_spec next U hU n ∅ stack hstack hunseen
  refine ⟨fun hx => (hfound.reached x hx).resolve_left (Finset.notMem_empty x), ?_⟩
  rintro ⟨q, hq, hqx⟩
  induction hqx with
  | refl => exact hfound.stacked q hq
  | tail _ hbc ih => exact (hfound.closed _ ih).resolve_left (Finset.notMem_empty _) _ hbc

end Worklist
