import Mathlib.Algebra.Order.BigOperators.Group.Finset
import Chainname.Ghostdag.BluePast

/-!
# Fork choice

As long as the works of all blocks sum to less than `2 ^ 256`, no sum saturates, and blue work
strictly increases from a parent to its child: the child adds its own work to that of its selected
parent, which has the most among the parents. What the store does with the order by
`(blue_work, hash)` follows. The virtual selected parent is the greatest block of the store, and a
merge set sorted by the order is already in a topological order, so that the passes of
`topologicalSort` emit it as it stands, which is the greedy order.
-/

namespace Chainname.DagStore

/-- The works of all blocks. -/
def totalWork (D : DagStore) : ℕ := ∑ b ∈ D.headers.keys, D.blockWork b

/-- The order by `(blue_work, hash)`. -/
def BlockLE (D : DagStore) (a b : BlockHash) : Prop := D.compareBlocks a b ≠ .gt

/-- The last of the blocks compared is the greatest. -/
theorem le_foldl_select (D : DagStore) : ∀ (parents : List BlockHash) (best : BlockHash),
    ∀ p ∈ best :: parents, D.BlockLE p (parents.foldl
      (fun best parent => if D.compareBlocks parent best = .gt then parent else best) best) := by
  intro parents
  -- induction on the parents left, the best of those before kept apart
  induction parents with
  | nil =>
    intro best p hp
    rw [List.mem_singleton.mp hp]
    exact (D.compareBlocks_total best best).elim id id
  | cons q parents ih =>
    intro best p hp
    rw [List.foldl_cons]
    have hq : D.BlockLE q (if D.compareBlocks q best = .gt then q else best) := by
      split
      · exact (D.compareBlocks_total q q).elim id id
      · next h => exact h
    have hbest : D.BlockLE best (if D.compareBlocks q best = .gt then q else best) := by
      -- the old best yields only to a block that is not behind it
      split
      · next h => exact (D.compareBlocks_total best q).resolve_right fun hne => hne h
      · exact (D.compareBlocks_total best best).elim id id
    have hnext := ih (if D.compareBlocks q best = .gt then q else best) _ List.mem_cons_self
    rw [List.mem_cons, List.mem_cons] at hp
    obtain rfl | rfl | hp := hp
    · exact compareBlocks_trans hbest hnext
    · exact compareBlocks_trans hq hnext
    · exact ih _ p (List.mem_cons_of_mem _ hp)

/-- The selected parent is the greatest parent. -/
theorem le_selectParent (D : DagStore) {parents : List BlockHash} {p : BlockHash}
    (hp : p ∈ parents) : D.BlockLE p (D.selectParent parents) := by
  cases parents with
  | nil => exact absurd hp List.not_mem_nil
  | cons first rest => exact D.le_foldl_select rest first p hp

section Facts

variable [HeaderHash] {D : DagStore} (hD : D.Valid) (hwork : D.totalWork < 2 ^ 256)

include hD hwork

/-- No blue work saturates. -/
theorem Valid.blueWork_unsaturated {b : BlockHash} (hb : b ∈ D.headers) :
    D.blueWork b = ∑ x ∈ D.bluePast b, D.blockWork x + D.blockWork b := by
  -- blue past and block are distinct stored blocks, so their works fit below the cap
  have hnot : b ∉ D.bluePast b := fun h => (hD.anc_of_mem_bluePast hb h).2 rfl
  have hsubset : insert b (D.bluePast b) ⊆ D.headers.keys := by
    intro x hx
    rw [Finmap.mem_keys]
    obtain rfl | hx := Finset.mem_insert.mp hx
    · exact hb
    · exact (hD.anc_of_mem_bluePast hb hx).1.mem hD.layered.toRooted hb
  have hle := Finset.sum_le_sum_of_subset (f := D.blockWork) hsubset
  rw [Finset.sum_insert hnot, Nat.add_comm] at hle
  rw [hD.blueWork_eq hb]
  refine Nat.min_eq_left (Nat.le_sub_one_of_lt ?_)
  exact Nat.lt_of_le_of_lt hle hwork

/-- **Blue work strictly increases** from every parent to its child. -/
theorem Valid.blueWork_lt {p b : BlockHash} (hedge : D.Edge p b) : D.blueWork p < D.blueWork b := by
  have hb := hedge.mem
  obtain ⟨header, hl, hne, hp⟩ := hedge
  obtain ⟨data, hdata⟩ := Maps.mem_iff_exists_lookup.mp (hD.data_mem.mpr hb)
  have hselected := (hD.describes hl hne hdata).selected
  -- the selected parent has the most work among the parents
  have hle : D.blueWork p ≤ D.blueWork data.selectedParent := by
    obtain hlt | ⟨heq, -⟩ := compareBlocks_ne_gt.mp (D.le_selectParent hp)
    · exact hselected ▸ hlt.le
    · exact hselected ▸ heq.le
  obtain ⟨blues, hblues, hnodup, -⟩ := hD.blues_eq hdata hne
  have hsum : D.blockWork data.selectedParent ≤ ∑ x ∈ data.mergesetBlues.toFinset, D.blockWork x := by
    refine Finset.single_le_sum (fun _ _ => Nat.zero_le _) ?_
    rw [hblues, List.mem_toFinset]
    exact List.mem_cons_self
  have hpos : 0 < D.blockWork b := by
    unfold blockWork
    rw [hl]
    exact (headerWork_bounds header).1
  refine Nat.lt_of_le_of_lt hle ?_
  rw [hD.blueWork_unsaturated hwork (hD.selected_mem hdata), hD.blueWork_unsaturated hwork hb,
    hD.bluePast_eq hdata hne, Finset.sum_union (hD.disjoint_blues hdata hne)]
  omega

theorem Valid.blueWork_lt_of_anc {a b : BlockHash} (h : D.Anc a b) (hne : a ≠ b) :
    D.blueWork a < D.blueWork b := by
  obtain ⟨p, hp, hap⟩ := h.exists_parent hne
  refine Nat.lt_of_le_of_lt ?_ (hD.blueWork_lt hwork hp)
  clear hp h hne
  induction hap with
  | refl => exact le_rfl
  | tail _ hedge ih => exact ih.trans (hD.blueWork_lt hwork hedge).le

/-- The selected parent of a block is not behind another parent. -/
theorem Valid.selected_not_anc {b : BlockHash} {header : Header} {data : GhostdagData}
    (hl : D.headers.lookup b = some header) (hdata : D.data.lookup b = some data)
    (hne : b ≠ D.genesis) {q : BlockHash} (hq : q ∈ header.parents) (hqne : q ≠ data.selectedParent) :
    ¬ D.Anc data.selectedParent q := by
  intro hanc
  have hlt := hD.blueWork_lt_of_anc hwork hanc (Ne.symm hqne)
  rw [(hD.describes hl hne hdata).selected] at hlt
  obtain h | ⟨h, -⟩ := compareBlocks_ne_gt.mp (D.le_selectParent hq) <;> omega

omit hwork in
/-- Every stored block lies behind a tip. -/
theorem Valid.exists_tip {b : BlockHash} (hb : b ∈ D.headers) : ∃ t ∈ D.tips, D.Anc b t := by
  classical
  -- the deepest descendant has no child
  obtain ⟨t, ht, hmax⟩ := Finset.exists_max_image (D.headers.keys.filter fun x => D.Anc b x)
    D.topologicalHeight ⟨b, Finset.mem_filter.mpr ⟨Finmap.mem_keys.mpr hb, Anc.refl b⟩⟩
  obtain ⟨hmem, hanc⟩ := Finset.mem_filter.mp ht
  refine ⟨t, hD.mem_tips.mpr ⟨Finmap.mem_keys.mp hmem, fun c hc => ?_⟩, hanc⟩
  have hle := hmax c (Finset.mem_filter.mpr ⟨Finmap.mem_keys.mpr hc.mem, hanc.trans hc.anc⟩)
  exact absurd (hD.layered.height_lt hc) (not_lt.mpr hle)

omit [HeaderHash] hD hwork in
/-- The virtual selected parent is the greatest tip. -/
theorem le_virtualSelectedParent_of_tip {t : BlockHash} (ht : t ∈ D.tips) :
    D.BlockLE t D.virtualSelectedParent := by
  have hsorted := List.pairwise_insertionSort (fun a b => D.compareBlocks b a ≠ .gt)
    (Maps.sortedKeys D.tips)
  change D.sortedTips.Pairwise _ at hsorted
  have hmem := mem_sortedTips.mpr ht
  -- the tips are sorted, heaviest first
  unfold virtualSelectedParent
  cases htips : D.sortedTips with
  | nil =>
    rw [htips] at hmem
    exact absurd hmem List.not_mem_nil
  | cons first rest =>
    rw [htips] at hmem hsorted
    obtain rfl | hmem := List.mem_cons.mp hmem
    · exact (D.compareBlocks_total t t).elim id id
    · exact List.rel_of_pairwise_cons hsorted hmem

/-- **The virtual selected parent is the greatest block of the store.** -/
theorem Valid.le_virtualSelectedParent {b : BlockHash} (hb : b ∈ D.headers) :
    D.BlockLE b D.virtualSelectedParent := by
  obtain ⟨t, ht, hanc⟩ := hD.exists_tip hb
  have htop := le_virtualSelectedParent_of_tip ht
  by_cases hne : b = t
  · exact hne ▸ htop
  · exact compareBlocks_trans
      (compareBlocks_ne_gt.mpr (Or.inl (hD.blueWork_lt_of_anc hwork hanc hne))) htop

/-! ### The merge order -/

/-- A set of blocks is emitted as it is sorted. -/
theorem Valid.topologicalSort_eq {blocks : List BlockHash} (hgenesis : D.genesis ∉ blocks) :
    D.topologicalSort blocks = blocks.insertionSort fun a b => D.compareBlocks a b ≠ .gt := by
  have hperm := List.perm_insertionSort (fun a b => D.compareBlocks a b ≠ .gt) blocks
  have hsorted := List.pairwise_insertionSort (fun a b => D.compareBlocks a b ≠ .gt) blocks
  unfold topologicalSort
  refine TopoSort.passes_of_ready _ fun before x after hsplit => ?_
  cases hl : D.headers.lookup x with
  | none => rfl
  | some header =>
    refine List.all_eq_true.mpr fun p hp => ?_
    rw [Bool.or_eq_true, decide_eq_true_eq, decide_eq_true_eq]
    refine (em (p ∈ blocks)).symm.imp_right fun hpm => ?_
    -- a parent has less work, so it stands before its child
    have hx : x ∈ blocks := hperm.mem_iff.mp (hsplit ▸ List.mem_append_right before List.mem_cons_self)
    have hne : x ≠ D.genesis := fun he => hgenesis (he ▸ hx)
    have hlt := hD.blueWork_lt hwork ⟨header, hl, hne, hp⟩
    have hin := hperm.mem_iff.mpr hpm
    rw [hsplit] at hin hsorted
    obtain hbefore | hin := List.mem_append.mp hin
    · exact List.mem_toFinset.mpr hbefore
    obtain rfl | hafter := List.mem_cons.mp hin
    · exact absurd hlt (lt_irrefl _)
    · have hle := List.rel_of_pairwise_cons (List.pairwise_append.mp hsorted).2.1 hafter
      obtain h | ⟨h, -⟩ := compareBlocks_ne_gt.mp hle <;> omega

/-- **The merge order is the greedy one.** -/
theorem Valid.greedy_mergeset {b : BlockHash} {header : Header} {data : GhostdagData}
    (hl : D.headers.lookup b = some header) (hdata : D.data.lookup b = some data)
    (hne : b ≠ D.genesis) :
    TopoSort.Greedy D.BlockLE D.Edge (D.InMergeset header.parents data.selectedParent)
      data.mergesetOrdered := by
  have hmergeset := (hD.describes hl hne hdata).mergeset
  -- the sort by work is greedy once every edge goes up in work
  refine TopoSort.greedy_of_sorted compareBlocks_antisymm hmergeset.nodup hmergeset.mem_iff ?_ ?_
  · obtain ⟨data', hdata', hcomp⟩ := hD.data_eq hl hne
    obtain rfl := Option.some.inj (hdata'.symm.trans hdata)
    obtain ⟨selectedData, mergeset, -, hordered, rfl⟩ := computeGhostdag_ok hcomp
    -- genesis is below every selected parent and is never merged
    have hgenesis : D.genesis ∉ D.collected header.parents (D.selectParent header.parents) := by
      intro hg
      have hmem : D.genesis ∈ mergeset := by
        rw [orderedMergeset_truth] at hordered
        split at hordered
        · cases hordered
        · rw [← Except.ok.inj hordered]
          exact (topologicalSort_perm D _).mem_iff.mpr hg
      exact (hmergeset.mem_iff.mp hmem).2 (hD.layered.genesis_anc (hD.selected_mem hdata))
    rw [orderedMergeset_truth] at hordered
    split at hordered
    · cases hordered
    · change mergeset.Pairwise _
      rw [← Except.ok.inj hordered, hD.topologicalSort_eq hwork hgenesis]
      exact List.pairwise_insertionSort (fun a b => D.compareBlocks a b ≠ .gt) _
  · -- a parent has strictly less work than its child
    intro p x _ _ hedge
    have hlt := hD.blueWork_lt hwork hedge
    refine ⟨compareBlocks_ne_gt.mpr (Or.inl hlt), ?_⟩
    rintro rfl
    exact lt_irrefl _ hlt

end Facts

/-- What the order by `(blue_work, hash)` is to the store. -/
structure ForkChoice (D : DagStore) : Prop where
  /-- Blue work strictly increases from every parent to its child. -/
  work_lt : ∀ p b, D.Edge p b → D.blueWork p < D.blueWork b
  /-- The selected parent is not behind another declared parent. -/
  selected : ∀ b header data, D.headers.lookup b = some header → D.data.lookup b = some data →
    b ≠ D.genesis → ∀ q ∈ header.parents, q ≠ data.selectedParent → ¬ D.Anc data.selectedParent q
  /-- The virtual selected parent is the greatest block. -/
  greatest : D.virtualSelectedParent ∈ D.headers ∧ ∀ b ∈ D.headers, D.BlockLE b D.virtualSelectedParent
  /-- The ordered merge set is the greedy order, and the only one. -/
  greedy : ∀ b header data, D.headers.lookup b = some header → D.data.lookup b = some data →
    b ≠ D.genesis → ∀ out, TopoSort.Greedy D.BlockLE D.Edge
      (D.InMergeset header.parents data.selectedParent) out ↔ out = data.mergesetOrdered

section Run

variable [HeaderHash]

theorem Valid.forkChoice {D : DagStore} (hD : D.Valid) (hwork : D.totalWork < 2 ^ 256) :
    D.ForkChoice where
  work_lt _ _ hedge := hD.blueWork_lt hwork hedge
  selected _ _ _ hl hdata hne _ hq hqne := hD.selected_not_anc hwork hl hdata hne hq hqne
  greatest := ⟨(hD.mem_tips.mp hD.virtualSelectedParent_mem).1, fun _ hb =>
    hD.le_virtualSelectedParent hwork hb⟩
  greedy b header data hl hdata hne out := by
    have hgreedy := hD.greedy_mergeset hwork hl hdata hne
    exact ⟨fun h => h.unique compareBlocks_antisymm hgreedy, fun he => he ▸ hgreedy⟩

/-- **Fork choice** in every run whose works sum to less than `2 ^ 256`: and the virtual selected
parent has never been a greater block before. -/
theorem forkChoice_addBlocks (genesis : Header) (k : UInt16) (limit : ℕ) (headers : List Header)
    (hwork : ((new genesis k limit).addBlocks headers).totalWork < 2 ^ 256) :
    ((new genesis k limit).addBlocks headers).ForkChoice ∧
      ∀ earlier later, headers = earlier ++ later →
        ((new genesis k limit).addBlocks headers).BlockLE
          ((new genesis k limit).addBlocks earlier).virtualSelectedParent
          ((new genesis k limit).addBlocks headers).virtualSelectedParent := by
  have hvalid := (new_valid genesis k limit).addBlocks headers
  refine ⟨hvalid.forkChoice hwork, ?_⟩
  rintro earlier later rfl
  have hearlier := (new_valid genesis k limit).addBlocks earlier
  -- what was selected is still stored
  obtain ⟨header, hl⟩ := Maps.mem_iff_exists_lookup.mp
    (hearlier.mem_tips.mp hearlier.virtualSelectedParent_mem).1
  refine hvalid.le_virtualSelectedParent hwork ?_
  rw [addBlocks_append]
  exact Maps.mem_of_lookup (lookup_addBlocks hl later)

end Run

open Sample in
/-- Two blocks on genesis and one that merges them. -/
theorem forkChoice_diamond :
    ((new root 2 10).addBlocks diamond).ForkChoice ∧
      ∀ earlier later, diamond = earlier ++ later →
        ((new root 2 10).addBlocks diamond).BlockLE
          ((new root 2 10).addBlocks earlier).virtualSelectedParent
          ((new root 2 10).addBlocks diamond).virtualSelectedParent :=
  forkChoice_addBlocks root 2 10 diamond (by decide +kernel)

end Chainname.DagStore
