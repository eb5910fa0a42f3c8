import Chainname.Ghostdag.Reachability

/-!
# The merge set

`ordered_mergeset` searches backwards from a block's parents, stopping at whatever lies in
the selected parent's past, and sorts what it kept. This module says what comes out. The
members are exactly the blocks behind some parent and not behind the selected parent
(`InMergeset`), the merge set is refused exactly when there are more of them than the
limit, and the order is a function of the members alone that lists no block before one
of its ancestors.

All of this is about the search run over the truth. `orderedMergeset_computes` carries it
over to the memoised query.
-/

namespace Chainname.DagStore

open Memo

variable {D : DagStore}

/-! ### The canonical order -/

section Compare

theorem compareBlocks_ne_gt {a b : BlockHash} :
    D.compareBlocks a b ≠ .gt ↔
      D.blueWork a < D.blueWork b ∨ D.blueWork a = D.blueWork b ∧ a ≤ b := by
  unfold compareBlocks
  rw [ne_eq, Ordering.then_eq_gt, compare_gt_iff_gt, compare_eq_iff_eq, compare_gt_iff_gt]
  rcases lt_trichotomy (D.blueWork a) (D.blueWork b) with h | h | h
  · simp [h, h.not_gt, h.ne]
  · simp [h]
  · simp [h, h.not_gt, h.ne']

theorem compareBlocks_total (a b : BlockHash) :
    D.compareBlocks a b ≠ .gt ∨ D.compareBlocks b a ≠ .gt := by
  rw [compareBlocks_ne_gt, compareBlocks_ne_gt]
  rcases lt_trichotomy (D.blueWork a) (D.blueWork b) with h | h | h
  · exact Or.inl (Or.inl h)
  · rcases le_total a b with hab | hab
    · exact Or.inl (Or.inr ⟨h, hab⟩)
    · exact Or.inr (Or.inr ⟨h.symm, hab⟩)
  · exact Or.inr (Or.inl h)

theorem compareBlocks_trans {a b c : BlockHash} (hab : D.compareBlocks a b ≠ .gt)
    (hbc : D.compareBlocks b c ≠ .gt) : D.compareBlocks a c ≠ .gt := by
  rw [compareBlocks_ne_gt] at hab hbc ⊢
  rcases hab with hab | ⟨hab, hab'⟩ <;> rcases hbc with hbc | ⟨hbc, hbc'⟩
  · exact Or.inl (hab.trans hbc)
  · exact Or.inl (hab.trans_eq hbc)
  · exact Or.inl (hab.trans_lt hbc)
  · exact Or.inr ⟨hab.trans hbc, hab'.trans hbc'⟩

/-- The order has no ties. -/
theorem compareBlocks_antisymm {a b : BlockHash} (hab : D.compareBlocks a b ≠ .gt)
    (hba : D.compareBlocks b a ≠ .gt) : a = b := by
  rw [compareBlocks_ne_gt] at hab hba
  rcases hab with hab | ⟨hab, hab'⟩ <;> rcases hba with hba | ⟨hba, hba'⟩
  · exact absurd hba hab.not_gt
  · exact absurd hba hab.ne'
  · exact absurd hab hba.ne'
  · exact le_antisymm hab' hba'

instance : Std.Total fun a b => D.compareBlocks a b ≠ .gt := ⟨compareBlocks_total⟩

instance : IsTrans BlockHash fun a b => D.compareBlocks a b ≠ .gt :=
  ⟨fun _ _ _ => compareBlocks_trans⟩

/-- A sort by `(blue_work, hash)` depends on the members and their blue works only. -/
theorem sort_congr {D₁ D₂ : DagStore} {l₁ l₂ : List BlockHash} (hperm : l₁.Perm l₂)
    (hwork : ∀ b ∈ l₁, D₁.blueWork b = D₂.blueWork b) :
    l₁.insertionSort (fun a b => D₁.compareBlocks a b ≠ .gt)
      = l₂.insertionSort (fun a b => D₂.compareBlocks a b ≠ .gt) := by
  have hp₁ := List.perm_insertionSort (fun a b => D₁.compareBlocks a b ≠ .gt) l₁
  have hp₂ := List.perm_insertionSort (fun a b => D₂.compareBlocks a b ≠ .gt) l₂
  have hsorted := List.pairwise_insertionSort (fun a b => D₁.compareBlocks a b ≠ .gt) l₁
  -- two lists sorted by one antisymmetric order, each a permutation of the other
  refine List.Perm.eq_of_pairwise (fun a b _ _ hab hba => compareBlocks_antisymm hab hba)
    (List.Pairwise.imp_of_mem ?_ hsorted)
    (List.pairwise_insertionSort (fun a b => D₂.compareBlocks a b ≠ .gt) l₂)
    ((hp₁.trans hperm).trans hp₂.symm)
  intro a b ha hb hab
  rw [compareBlocks_ne_gt] at hab ⊢
  rwa [← hwork a (hp₁.mem_iff.mp ha), ← hwork b (hp₁.mem_iff.mp hb)]

end Compare

/-! ### The search over the truth -/

section Collect

open Classical in
/-- The parents the merge-set search follows out of a block. -/
noncomputable def unmerged (D : DagStore) (selectedParent b : BlockHash) : List BlockHash :=
  if D.Anc b selectedParent then [] else (D.parentsOf b).filter (· ≠ selectedParent)

theorem mem_unmerged {selectedParent b p : BlockHash} :
    p ∈ D.unmerged selectedParent b ↔
      ¬ D.Anc b selectedParent ∧ p ∈ D.parentsOf b ∧ p ≠ selectedParent := by
  unfold unmerged
  split
  · next h => simp [h]
  · next h => simp [h]

open Classical in
/-- What the search keeps of the blocks it pops. -/
noncomputable def kept (D : DagStore) (selectedParent : BlockHash) (popped : List BlockHash) :
    List BlockHash :=
  popped.filter fun b => ¬ D.Anc b selectedParent

theorem mem_kept {selectedParent x : BlockHash} {popped : List BlockHash} :
    x ∈ D.kept selectedParent popped ↔ x ∈ popped ∧ ¬ D.Anc x selectedParent := by
  classical
  unfold kept
  rw [List.mem_filter, decide_eq_true_iff]

/-- The search is a breadth-first search that keeps what is not merged yet, and fails when
it keeps too much. -/
theorem collectMergeset_truth (hash selectedParent : BlockHash) :
    ∀ (n : ℕ) (seen : Finset BlockHash) (queue mergeset : List BlockHash),
      mergeset.length ≤ D.mergesetSizeLimit →
      D.collectMergeset (m := Id) D.truth hash selectedParent n seen queue mergeset =
        let all := mergeset ++
          D.kept selectedParent (Worklist.visit (D.unmerged selectedParent) n seen queue)
        if D.mergesetSizeLimit < all.length then
          .error (.mergesetTooLarge hash D.mergesetSizeLimit)
        else .ok all := by
  intro n
  -- induction on the fuel; the mergeset so far is within the limit
  induction n with
  | zero =>
    intro seen queue mergeset hlen
    simp only [Worklist.visit, kept, List.filter_nil, List.append_nil, if_neg (not_lt.mpr hlen)]
    rfl
  | succ n ih =>
    intro seen queue mergeset hlen
    cases queue with
    | nil =>
      simp only [Worklist.visit, kept, List.filter_nil, List.append_nil, if_neg (not_lt.mpr hlen)]
      rfl
    | cons current queue =>
      unfold collectMergeset Worklist.visit
      rw [id_bind]
      by_cases hanc : D.Anc current selectedParent
      · -- already merged: dropped, and nothing is pushed
        have hu : D.unmerged selectedParent current = [] := if_pos hanc
        have hk : ∀ l, D.kept selectedParent (current :: l) = D.kept selectedParent l :=
          fun l => List.filter_cons_of_neg (by simpa using hanc)
        rw [if_pos (truth_iff.mpr hanc), hu, hk]
        exact ih seen queue mergeset hlen
      · have hk : ∀ l, D.kept selectedParent (current :: l) = current :: D.kept selectedParent l :=
          fun l => List.filter_cons_of_pos (by simpa using hanc)
        rw [if_neg (fun h => hanc (truth_iff.mp h)), hk]
        by_cases hlim : D.mergesetSizeLimit < (mergeset ++ [current]).length
        · -- too many: the source stops here, while the search goes on and finds no fewer
          rw [if_pos hlim]
          simp only [List.length_append, List.length_cons, List.length_nil] at hlim ⊢
          rw [if_pos (by omega)]
          rfl
        · rw [if_neg hlim]
          have hlen' := not_lt.mp hlim
          have hu : D.unmerged selectedParent current
              = (D.parentsOf current).filter (· ≠ selectedParent) := if_neg hanc
          have hstep := fun seen queue => ih seen queue (mergeset ++ [current]) hlen'
          simp only [List.append_assoc, List.singleton_append] at hstep
          rw [hu]
          -- a block without a header queues no parents, as the source's `if let`
          cases hl : D.headers.lookup current with
          | none =>
            have hp : D.parentsOf current = [] := by unfold parentsOf; rw [hl]; rfl
            rw [hp]
            exact hstep seen queue
          | some header =>
            have hp : D.parentsOf current = header.parents := by unfold parentsOf; rw [hl]; rfl
            rw [hp]
            exact hstep _ _

end Collect

/-! ### The members -/

/-- `x` is behind one of `parents` and not behind the selected parent. -/
def InMergeset (D : DagStore) (parents : List BlockHash) (selectedParent x : BlockHash) : Prop :=
  (∃ p ∈ parents, D.Anc x p) ∧ ¬ D.Anc x selectedParent

section Members

variable (D) in
/-- The blocks the search starts from. -/
def frontier (parents : List BlockHash) (selectedParent : BlockHash) :
    Finset BlockHash × List BlockHash :=
  Worklist.push (parents.filter (· ≠ selectedParent)) ∅ []

theorem frontier_fst (parents : List BlockHash) (selectedParent : BlockHash) :
    (frontier parents selectedParent).1 = (frontier parents selectedParent).2.toFinset := by
  refine Finset.ext fun x => ?_
  unfold frontier
  rw [Worklist.mem_push_fst, List.mem_toFinset, Worklist.mem_push_snd]
  simp

theorem mem_frontier {parents : List BlockHash} {selectedParent x : BlockHash} :
    x ∈ (frontier parents selectedParent).2 ↔ x ∈ parents ∧ x ≠ selectedParent := by
  unfold frontier
  rw [Worklist.mem_push_snd]
  simp

variable (D) in
/-- What the search collects when the limit does not stop it. -/
noncomputable def collected (parents : List BlockHash) (selectedParent : BlockHash) :
    List BlockHash :=
  D.kept selectedParent (Worklist.visit (D.unmerged selectedParent) D.len
    (frontier parents selectedParent).1 (frontier parents selectedParent).2)

/-- A block outside the past of a stored block is not genesis. -/
theorem Layered.ne_genesis_of_not_anc (hD : D.Layered) {b selectedParent : BlockHash}
    (hs : selectedParent ∈ D.headers) (h : ¬ D.Anc b selectedParent) : b ≠ D.genesis := by
  rintro rfl
  exact h (hD.genesis_anc hs)

theorem unmerged_edge (hD : D.Layered) {selectedParent b p : BlockHash}
    (hs : selectedParent ∈ D.headers) (h : p ∈ D.unmerged selectedParent b) : D.Edge p b := by
  obtain ⟨hanc, hp, -⟩ := mem_unmerged.mp h
  exact edge_iff.mpr ⟨hD.ne_genesis_of_not_anc hs hanc, hp⟩

section

variable (hD : D.Layered) {parents : List BlockHash} {selectedParent : BlockHash}
  (hs : selectedParent ∈ D.headers) (hp : ∀ p ∈ parents, p ∈ D.headers)

include hD hs hp

theorem visit_mem_iff {x : BlockHash} :
    x ∈ Worklist.visit (D.unmerged selectedParent) D.len (frontier parents selectedParent).1
        (frontier parents selectedParent).2 ↔
      ∃ q ∈ (frontier parents selectedParent).2,
        Relation.ReflTransGen (fun a b => b ∈ D.unmerged selectedParent a) q x := by
  rw [frontier_fst]
  refine Worklist.mem_visit_iff (U := D.headers.keys) ?_ ?_ ?_ le_rfl
  · exact fun b _ p hbp => Finmap.mem_keys.mpr (hD.parent_mem (unmerged_edge hD hs hbp))
  · exact fun q hq => Finmap.mem_keys.mpr (hp q (mem_frontier.mp hq).1)
  · exact Worklist.nodup_push _ _ _ (fun q hq => absurd hq List.not_mem_nil) List.nodup_nil

/-- **Exactness of the frontier.** What the search collects is the merge set: a path from a
parent to a block outside the selected parent's past stays outside it. -/
theorem mem_collected {x : BlockHash} :
    x ∈ D.collected parents selectedParent ↔ D.InMergeset parents selectedParent x := by
  unfold collected
  rw [mem_kept, visit_mem_iff hD hs hp]
  refine and_congr_left fun hx => ?_
  refine ⟨?_, ?_⟩
  · rintro ⟨q, hq, hqx⟩
    refine ⟨q, (mem_frontier.mp hq).1, ?_⟩
    clear hx
    induction hqx with
    | refl => exact Anc.refl _
    | tail _ hbc ih => exact (unmerged_edge hD hs hbc).anc.trans ih
  · rintro ⟨p, hpm, hxp⟩
    refine ⟨p, mem_frontier.mpr ⟨hpm, fun he => hx (he ▸ hxp)⟩, ?_⟩
    -- walk down the path from `p`; each block on it has `x` behind it
    induction hxp using Relation.ReflTransGen.head_induction_on with
    | refl => exact Relation.ReflTransGen.refl
    | head hab _ ih =>
      have hb : ¬ D.Anc _ selectedParent := fun hb => hx (hab.anc.trans hb)
      refine Relation.ReflTransGen.tail (ih hb) (mem_unmerged.mpr ⟨hb, (edge_iff.mp hab).2, ?_⟩)
      rintro rfl
      exact hx (Anc.refl _)

theorem nodup_collected : (D.collected parents selectedParent).Nodup := by
  unfold collected kept
  refine List.Nodup.filter _ ?_
  rw [frontier_fst]
  refine Worklist.nodup_visit (U := D.headers.keys) ?_ ?_ ?_ le_rfl
  · exact fun b _ p hbp => Finmap.mem_keys.mpr (hD.parent_mem (unmerged_edge hD hs hbp))
  · exact fun q hq => Finmap.mem_keys.mpr (hp q (mem_frontier.mp hq).1)
  · exact Worklist.nodup_push _ _ _ (fun q hq => absurd hq List.not_mem_nil) List.nodup_nil

end

end Members

/-! ### The order -/

section Canonical

theorem topologicalSort_perm (D : DagStore) (blocks : List BlockHash) :
    (D.topologicalSort blocks).Perm blocks := by
  unfold topologicalSort
  refine (TopoSort.passes_perm _ _ _ _ _).trans ?_
  exact List.perm_insertionSort _ _

/-- The order is a function of the members, of their blue works and of their headers. -/
theorem topologicalSort_congr {D₁ D₂ : DagStore} {l₁ l₂ : List BlockHash} (hperm : l₁.Perm l₂)
    (hheader : ∀ b ∈ l₁, D₁.headers.lookup b = D₂.headers.lookup b)
    (hwork : ∀ b ∈ l₁, D₁.blueWork b = D₂.blueWork b) :
    D₁.topologicalSort l₁ = D₂.topologicalSort l₂ := by
  unfold topologicalSort
  rw [sort_congr hperm hwork, hperm.length_eq]
  refine TopoSort.passes_congr _ _ _ _ fun emitted b hb => ?_
  have hb' : b ∈ l₁ := hperm.mem_iff.mpr ((List.perm_insertionSort _ _).mem_iff.mp hb)
  rw [hheader b hb']
  cases D₂.headers.lookup b with
  | none => rfl
  | some header =>
    simp only [hperm.mem_iff]

/-- The order lists no block before one of its parents. -/
theorem topologicalSort_pairwise_edge (hwf : WellFounded D.Edge) {blocks : List BlockHash}
    (hnd : blocks.Nodup) (hg : D.genesis ∉ blocks) :
    (D.topologicalSort blocks).Pairwise fun a b => ¬ D.Edge b a := by
  -- the passes over the sorted list emit a block once its parents in the list are out
  have hperm := List.perm_insertionSort (fun a b => D.compareBlocks a b ≠ .gt) blocks
  unfold topologicalSort
  refine TopoSort.passes_pairwise (?_ : TopoSort.Asks D.Edge blocks.toFinset _) hwf _ _ _ _ ?_ ?_ ?_
  · -- what a pass asks of a block is what the edges ask
    intro emitted b hb
    have hb' : b ∈ blocks := List.mem_toFinset.mp hb
    have hne : b ≠ D.genesis := fun he => hg (he ▸ hb')
    have hedge : ∀ p, D.Edge p b ↔ p ∈ D.parentsOf b := fun p => by
      rw [edge_iff]
      exact and_iff_right hne
    unfold parentsOf at hedge
    cases hl : D.headers.lookup b with
    | none => simp [hedge, hl]
    | some header =>
      simp only [hedge, hl, Option.elim_some, List.all_eq_true, Bool.or_eq_true,
        decide_eq_true_eq, List.mem_toFinset]
      refine ⟨?_, ?_⟩
      · exact fun h p hpm hpp => (h p hpp).resolve_left (fun hn => hn hpm)
      · exact fun h p hpp => (em (p ∈ blocks)).symm.imp_right fun hpm => h p hpm hpp
  · -- before the first pass nothing is emitted and every block is pending
    refine ⟨by simp, ?_, ?_, by simp, List.Pairwise.nil⟩
    · rw [List.nil_append]
      exact hperm.nodup_iff.mpr hnd
    · exact fun b hb => List.mem_toFinset.mpr (hperm.mem_iff.mp hb)
  · exact fun b hb => Or.inr (hperm.mem_iff.mpr (List.mem_toFinset.mp hb))
  · exact hperm.length_eq.le

end Canonical

/-- What an ordered merge set is: its members once each, none before an ancestor of it. -/
structure IsMergeset (D : DagStore) (parents : List BlockHash) (selectedParent : BlockHash)
    (mergeset : List BlockHash) : Prop where
  nodup : mergeset.Nodup
  mem_iff : ∀ {x}, x ∈ mergeset ↔ D.InMergeset parents selectedParent x
  ancestors_first : mergeset.Pairwise fun a b => ¬ D.Anc b a

section Ordered

variable [HeaderHash]

/-- The merge set over the truth: refused when there is too much of it, otherwise sorted. -/
theorem orderedMergeset_truth (header : Header) (selectedParent : BlockHash) :
    D.orderedMergeset (m := Id) D.truth header selectedParent =
      if D.mergesetSizeLimit < (D.collected header.parents selectedParent).length then
        .error (.mergesetTooLarge header.hash D.mergesetSizeLimit)
      else .ok (D.topologicalSort (D.collected header.parents selectedParent)) := by
  unfold orderedMergeset
  dsimp only
  rw [id_bind, collectMergeset_truth _ _ _ _ _ _ (Nat.zero_le _)]
  dsimp only
  rw [List.nil_append]
  change Except.map _ (if D.mergesetSizeLimit < (D.collected header.parents selectedParent).length
    then _ else .ok (D.collected header.parents selectedParent)) = _
  split
  · rfl
  · rfl

section

variable (hD : D.Layered) {header : Header} {selectedParent : BlockHash}
  (hs : selectedParent ∈ D.headers) (hp : ∀ p ∈ header.parents, p ∈ D.headers)

include hD hs hp

/-- An accepted merge set is the merge set. -/
theorem isMergeset_of_ok {mergeset : List BlockHash}
    (h : D.orderedMergeset (m := Id) D.truth header selectedParent = .ok mergeset) :
    D.IsMergeset header.parents selectedParent mergeset := by
  rw [orderedMergeset_truth] at h
  split at h
  · exact absurd h (by simp)
  obtain rfl := Except.ok.inj h
  have hperm := D.topologicalSort_perm (D.collected header.parents selectedParent)
  have hnd := hperm.nodup_iff.mpr (nodup_collected hD hs hp)
  have hmem : ∀ {x}, x ∈ D.topologicalSort (D.collected header.parents selectedParent) ↔
      D.InMergeset header.parents selectedParent x := by
    intro x
    rw [hperm.mem_iff, mem_collected hD hs hp]
  refine ⟨hnd, hmem, TopoSort.pairwise_reflTransGen hnd ?_ ?_⟩
  · -- genesis is behind the selected parent and so never collected
    refine topologicalSort_pairwise_edge hD.wellFounded (nodup_collected hD hs hp) fun hg => ?_
    exact ((mem_collected hD hs hp).mp hg).2 (hD.genesis_anc hs)
  · -- a path that leaves the mergeset stays out of it
    intro a b c ha hab hbc hc
    obtain ⟨⟨p, hpm, hcp⟩, -⟩ := hmem.mp hc
    exact hmem.mpr ⟨⟨p, hpm, Anc.trans hbc hcp⟩, fun hb => (hmem.mp ha).2 (hab.anc.trans hb)⟩

variable {C : ReachCache → Prop} (hC : D.Answers C)

include hC

omit [HeaderHash] hp in
/-- The search over the memoised query returns what it returns over the truth. -/
theorem collectMergeset_computes (hash : BlockHash) :
    ∀ (n : ℕ) (seen : Finset BlockHash) (queue mergeset : List BlockHash),
      (∀ q ∈ queue, q ∈ D.headers) →
      Computes C
        (D.collectMergeset D.isAncestorOf hash selectedParent n seen queue mergeset)
        (D.collectMergeset (m := Id) D.truth hash selectedParent n seen queue mergeset) := by
  intro n
  induction n with
  | zero => intro _ _ _ _; exact Computes.pure _
  | succ n ih =>
    intro seen queue mergeset hq
    cases queue with
    | nil => exact Computes.pure _
    | cons current queue =>
      have hc : current ∈ D.headers := hq current List.mem_cons_self
      have hq' : ∀ q ∈ queue, q ∈ D.headers := fun q h => hq q (List.mem_cons_of_mem current h)
      unfold collectMergeset
      rw [id_bind]
      refine Computes.bind (hC _ _ hc hs) ?_
      by_cases hanc : D.truth current selectedParent = true
      · rw [if_pos hanc, if_pos hanc]
        exact ih seen queue mergeset hq'
      · rw [if_neg hanc, if_neg hanc]
        split
        · exact Computes.pure _
        · split
          · exact ih _ _ _ hq'
          · next current_header hl =>
            refine ih _ _ _ fun q h => ?_
            -- genesis is behind the selected parent, so it is never expanded
            have hne := hD.ne_genesis_of_not_anc hs fun h => hanc (truth_iff.mpr h)
            rcases (Worklist.mem_push_snd _ _ _).mp h with h | ⟨h, -⟩
            · exact hq' q h
            · exact hD.parent_mem ⟨current_header, hl, hne, (List.mem_filter.mp h).1⟩

theorem orderedMergeset_computes :
    Computes C (D.orderedMergeset D.isAncestorOf header selectedParent)
      (D.orderedMergeset (m := Id) D.truth header selectedParent) := by
  unfold orderedMergeset
  dsimp only
  rw [id_bind]
  refine Computes.bind (collectMergeset_computes hD hs hC _ _ _ _ _ ?_) (Computes.pure _)
  exact fun q hq => hp q (mem_frontier.mp hq).1

end

end Ordered

end Chainname.DagStore
