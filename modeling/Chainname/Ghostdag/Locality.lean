import Chainname.Ghostdag.Mergeset

/-!
# A block's data depends on its past only

Two stores that agree on a set of blocks closed under going backwards (`AgreeOn`) compute
the same data for a new block whose parents are in the set: the same selected parent, the
same merge set in the same order, the same colours and counters. Every function that
`compute_ghostdag` calls gets one lemma, and `computeGhostdag_congr` assembles them.

The same agreement is used twice: between a store and itself after another block has
joined, and between two nodes.
-/

namespace Chainname.DagStore

open Memo

/-- The stores agree on the blocks of `P`, and nothing `P` refers to lies outside it. -/
structure AgreeOn (P : BlockHash → Prop) (D₁ D₂ : DagStore) : Prop where
  k_eq : D₁.k = D₂.k
  genesis_eq : D₁.genesis = D₂.genesis
  limit_eq : D₁.mergesetSizeLimit = D₂.mergesetSizeLimit
  header_eq : ∀ {b}, P b → D₁.headers.lookup b = D₂.headers.lookup b
  data_eq : ∀ {b}, P b → D₁.data.lookup b = D₂.data.lookup b
  mem : ∀ {b}, P b → b ∈ D₁.headers
  closed : ∀ {p c}, P c → D₁.Edge p c → P p
  selected : ∀ {b data}, P b → D₁.data.lookup b = some data → P data.selectedParent

namespace AgreeOn

variable {P : BlockHash → Prop} {D₁ D₂ : DagStore} (h : AgreeOn P D₁ D₂)

include h

/-! ### Ancestry -/

theorem mem' {b : BlockHash} (hb : P b) : b ∈ D₂.headers := by
  rw [← Finmap.lookup_isSome, ← h.header_eq hb, Finmap.lookup_isSome]
  exact h.mem hb

theorem edge_iff {p c : BlockHash} (hc : P c) : D₁.Edge p c ↔ D₂.Edge p c := by
  unfold Edge
  rw [h.header_eq hc, h.genesis_eq]

theorem anc_iff {a d : BlockHash} (hd : P d) : D₁.Anc a d ↔ D₂.Anc a d := by
  refine ⟨?_, ?_⟩
  · -- along the path every block stays among those the stores agree on
    intro hanc
    suffices D₂.Anc a d ∧ P a from this.1
    induction hanc using Relation.ReflTransGen.head_induction_on with
    | refl => exact ⟨Anc.refl _, hd⟩
    | head hab _ ih => exact ⟨((h.edge_iff ih.2).mp hab).anc.trans ih.1, h.closed ih.2 hab⟩
  · intro hanc
    suffices D₁.Anc a d ∧ P a from this.1
    induction hanc using Relation.ReflTransGen.head_induction_on with
    | refl => exact ⟨Anc.refl _, hd⟩
    | head hab _ ih =>
      have hedge := (h.edge_iff ih.2).mpr hab
      exact ⟨hedge.anc.trans ih.1, h.closed ih.2 hedge⟩

/-- The set is closed under going back to any ancestor. -/
theorem closed_anc {a d : BlockHash} (hd : P d) (hanc : D₁.Anc a d) : P a := by
  induction hanc using Relation.ReflTransGen.head_induction_on with
  | refl => exact hd
  | head hab _ ih => exact h.closed ih hab

theorem truth_eq {a d : BlockHash} (hd : P d) : D₁.truth a d = D₂.truth a d := by
  rw [Bool.eq_iff_iff, truth_iff, truth_iff]
  exact h.anc_iff hd

/-! ### Heights, works and the choice of the selected parent -/

theorem topologicalHeight_eq {b : BlockHash} (hb : P b) :
    D₁.topologicalHeight b = D₂.topologicalHeight b := by
  unfold topologicalHeight
  rw [h.data_eq hb]

theorem blueWork_eq {b : BlockHash} (hb : P b) : D₁.blueWork b = D₂.blueWork b := by
  unfold blueWork
  rw [h.data_eq hb]

theorem blockWork_eq {b : BlockHash} (hb : P b) : D₁.blockWork b = D₂.blockWork b := by
  unfold blockWork
  rw [h.header_eq hb]

theorem compareBlocks_eq {a b : BlockHash} (ha : P a) (hb : P b) :
    D₁.compareBlocks a b = D₂.compareBlocks a b := by
  unfold compareBlocks
  rw [h.blueWork_eq ha, h.blueWork_eq hb]

end AgreeOn

/-- The fold of `select_parent` stays among the parents it has seen. -/
theorem foldl_select_mem (D : DagStore) : ∀ (parents : List BlockHash) (best : BlockHash),
    parents.foldl (fun best p => if D.compareBlocks p best = .gt then p else best) best
      ∈ best :: parents := by
  intro parents
  induction parents with
  | nil => intro best; exact List.mem_cons_self
  | cons p parents ih =>
    intro best
    rw [List.foldl_cons]
    -- the best so far is replaced, or stays
    split
    · exact List.mem_cons_of_mem _ (ih p)
    · rcases List.mem_cons.mp (ih best) with heq | hmem
      · rw [heq]
        exact List.mem_cons_self
      · exact List.mem_cons_of_mem _ (List.mem_cons_of_mem _ hmem)

theorem selectParent_mem (D : DagStore) {parents : List BlockHash} (hne : parents ≠ []) :
    D.selectParent parents ∈ parents := by
  obtain ⟨p, parents, rfl⟩ := List.exists_cons_of_ne_nil hne
  exact D.foldl_select_mem parents p

section Congr

variable {P : BlockHash → Prop} {D₁ D₂ : DagStore} (h : AgreeOn P D₁ D₂)

include h

theorem selectParent_congr {parents : List BlockHash} (hp : ∀ p ∈ parents, P p)
    (hne : parents ≠ []) : D₁.selectParent parents = D₂.selectParent parents := by
  obtain ⟨p, parents, rfl⟩ := List.exists_cons_of_ne_nil hne
  have hfold : ∀ (l : List BlockHash) (best : BlockHash), P best → (∀ p ∈ l, P p) →
      l.foldl (fun best p => if D₁.compareBlocks p best = .gt then p else best) best
        = l.foldl (fun best p => if D₂.compareBlocks p best = .gt then p else best) best := by
    intro l
    induction l with
    | nil => intro _ _ _; rfl
    -- the next parent is compared with the best so far, both of which lie in the part agreed on
    | cons q l ih =>
      intro best hb hl
      have hq := hl q List.mem_cons_self
      rw [List.foldl_cons, List.foldl_cons, h.compareBlocks_eq hq hb]
      refine ih _ ?_ fun p hp => hl p (List.mem_cons_of_mem q hp)
      split
      · exact hq
      · exact hb
  exact hfold parents p (hp p List.mem_cons_self) fun q hq => hp q (List.mem_cons_of_mem p hq)

/-! ### The merge set -/

theorem orderedMergeset_congr [HeaderHash] (hD₁ : D₁.Layered) (hD₂ : D₂.Layered) {header : Header}
    {selectedParent : BlockHash} (hp : ∀ p ∈ header.parents, P p) (hs : P selectedParent) :
    D₁.orderedMergeset (m := Id) D₁.truth header selectedParent
      = D₂.orderedMergeset (m := Id) D₂.truth header selectedParent := by
  have hp₁ : ∀ p ∈ header.parents, p ∈ D₁.headers := fun p hpm => h.mem (hp p hpm)
  have hp₂ : ∀ p ∈ header.parents, p ∈ D₂.headers := fun p hpm => h.mem' (hp p hpm)
  -- both merge sets hold the same blocks
  have hperm : (D₁.collected header.parents selectedParent).Perm
      (D₂.collected header.parents selectedParent) := by
    refine (List.perm_ext_iff_of_nodup (nodup_collected hD₁ (h.mem hs) hp₁)
      (nodup_collected hD₂ (h.mem' hs) hp₂)).mpr fun x => ?_
    rw [mem_collected hD₁ (h.mem hs) hp₁, mem_collected hD₂ (h.mem' hs) hp₂]
    unfold InMergeset
    rw [h.anc_iff hs]
    refine and_congr_left fun _ => exists_congr fun p => and_congr_right fun hpm => ?_
    exact h.anc_iff (hp p hpm)
  -- and these lie behind a parent
  have hmem : ∀ b ∈ D₁.collected header.parents selectedParent, P b := by
    intro b hb
    obtain ⟨⟨p, hpm, hbp⟩, -⟩ := (mem_collected hD₁ (h.mem hs) hp₁).mp hb
    exact h.closed_anc (hp p hpm) hbp
  rw [orderedMergeset_truth, orderedMergeset_truth, h.limit_eq, hperm.length_eq,
    topologicalSort_congr hperm (fun b hb => h.header_eq (hmem b hb))
      (fun b hb => h.blueWork_eq (hmem b hb))]

/-! ### The colouring -/

theorem scanBlues_congr {candidate : BlockHash} (hc : P candidate) (k : UInt16)
    (sizes : Map BlockHash UInt16) :
    ∀ (blues : List BlockHash) (anticone : UInt16) (updates : List (BlockHash × UInt16)),
      scanBlues (m := Id) D₁.truth k sizes candidate blues anticone updates
        = scanBlues (m := Id) D₂.truth k sizes candidate blues anticone updates := by
  intro blues
  induction blues with
  | nil => intro _ _; rfl
  | cons blue blues ih =>
    intro anticone updates
    unfold scanBlues
    rw [h.truth_eq hc]
    simp only [ih]

theorem walkChain_congr {candidate : BlockHash} (hc : P candidate) :
    ∀ (n : ℕ) (chainBlock : BlockHash) (anticone : UInt16)
      (updates : List (BlockHash × UInt16)), P chainBlock →
      D₁.walkChain (m := Id) D₁.truth candidate n chainBlock anticone updates
        = D₂.walkChain (m := Id) D₂.truth candidate n chainBlock anticone updates := by
  intro n
  induction n with
  | zero => intro _ _ _ _; rfl
  | succ n ih =>
    intro chainBlock anticone updates hb
    unfold walkChain
    -- up to the step along the chain both stores read the same
    rw [h.truth_eq hc, ← h.data_eq hb, h.k_eq, h.genesis_eq]
    cases hl : D₁.data.lookup chainBlock with
    | none => rfl
    | some chainData =>
      have hs := h.selected hb hl
      simp only [scanBlues_congr h hc, ih _ _ _ hs]

theorem colourCandidate_congr {candidate selectedParent : BlockHash} (hc : P candidate)
    (hs : P selectedParent) (blues : List BlockHash) (sizes : Map BlockHash UInt16) :
    D₁.colourCandidate (m := Id) D₁.truth candidate selectedParent blues sizes
      = D₂.colourCandidate (m := Id) D₂.truth candidate selectedParent blues sizes := by
  unfold colourCandidate
  simp only [h.k_eq, scanBlues_congr h hc, h.topologicalHeight_eq hs,
    walkChain_congr h hc _ _ _ _ hs]

theorem colourMergeset_congr {selectedParent : BlockHash} (hs : P selectedParent) :
    ∀ (mergeset : List BlockHash) (st : Colouring), (∀ c ∈ mergeset, P c) →
      D₁.colourMergeset (m := Id) D₁.truth selectedParent mergeset st
        = D₂.colourMergeset (m := Id) D₂.truth selectedParent mergeset st := by
  intro mergeset
  induction mergeset with
  | nil => intro _ _; rfl
  | cons candidate mergeset ih =>
    intro st hm
    have hm' : ∀ c ∈ mergeset, P c := fun c hc => hm c (List.mem_cons_of_mem candidate hc)
    unfold colourMergeset
    simp only [colourCandidate_congr h (hm candidate List.mem_cons_self) hs, ih _ hm']

end Congr

/-- The colours split the merge set: the blues after the selected parent and the reds are
its members, each in merge-set order. -/
theorem colourMergeset_split (D : DagStore) (reach : BlockHash → BlockHash → Id Bool)
    (selectedParent : BlockHash) : ∀ (mergeset : List BlockHash) (st : Colouring),
    ∃ blues reds, blues.Sublist mergeset ∧ reds.Sublist mergeset ∧
      (blues ++ reds).Perm mergeset ∧
      (D.colourMergeset (m := Id) reach selectedParent mergeset st).blues = st.blues ++ blues ∧
      (D.colourMergeset (m := Id) reach selectedParent mergeset st).reds = st.reds ++ reds := by
  intro mergeset
  induction mergeset with
  | nil => exact fun st => ⟨[], [], .refl _, .refl _, .refl _,
      (List.append_nil _).symm, (List.append_nil _).symm⟩
  | cons candidate mergeset ih =>
    intro st
    unfold colourMergeset
    rw [id_bind]
    obtain ⟨colour, anticone, updates⟩ :=
      D.colourCandidate (m := Id) reach candidate selectedParent st.blues st.sizes
    -- the candidate goes to the end of the blues or of the reds
    cases colour with
    | blue =>
      obtain ⟨blues, reds, hb, hr, hp, hbe, hre⟩ := ih (st.addBlue candidate anticone updates)
      refine ⟨candidate :: blues, reds, hb.cons_cons _, hr.cons _, hp.cons _, ?_, hre⟩
      refine hbe.trans ?_
      rw [Colouring.addBlue, List.append_assoc, List.singleton_append]
    | red =>
      obtain ⟨blues, reds, hb, hr, hp, hbe, hre⟩ := ih (st.addRed candidate)
      refine ⟨blues, candidate :: reds, hb.cons _, hr.cons_cons _, ?_, hbe, ?_⟩
      · exact List.perm_middle.trans (hp.cons _)
      · refine hre.trans ?_
        rw [Colouring.addRed, List.append_assoc, List.singleton_append]

section Compute

variable [HeaderHash]

/-- The parts of a successful computation. -/
theorem computeGhostdag_ok {D : DagStore} {reach : BlockHash → BlockHash → Id Bool}
    {header : Header} {data : GhostdagData}
    (h : D.computeGhostdag (m := Id) reach header = .ok data) :
    ∃ selectedData mergeset,
      D.data.lookup (D.selectParent header.parents) = some selectedData ∧
      D.orderedMergeset (m := Id) reach header (D.selectParent header.parents) = .ok mergeset ∧
      data = D.assemble header (D.selectParent header.parents) selectedData mergeset
        (D.colourMergeset (m := Id) reach (D.selectParent header.parents) mergeset
          (.start (D.selectParent header.parents))) := by
  unfold computeGhostdag at h
  dsimp only at h
  cases hl : D.data.lookup (D.selectParent header.parents) with
  | none =>
    rw [hl] at h
    exact absurd h (by simp [pure])
  | some selectedData =>
    rw [hl] at h
    dsimp only at h
    rw [id_bind] at h
    cases hm : D.orderedMergeset (m := Id) reach header (D.selectParent header.parents) with
    | error e =>
      rw [hm] at h
      exact absurd h (by simp [pure])
    | ok mergeset =>
      rw [hm] at h
      exact ⟨selectedData, mergeset, rfl, rfl, (Except.ok.inj h).symm⟩

omit [HeaderHash] in
theorem assemble_congr {P : BlockHash → Prop} {D₁ D₂ : DagStore} (h : AgreeOn P D₁ D₂)
    {header : Header} (hp : ∀ p ∈ header.parents, P p) {selectedParent : BlockHash}
    {selectedData : GhostdagData} {mergeset : List BlockHash} {st : Colouring}
    (hb : ∀ b ∈ st.blues, P b) :
    D₁.assemble header selectedParent selectedData mergeset st
      = D₂.assemble header selectedParent selectedData mergeset st := by
  -- heights are read off the parents, works off the blues
  have hheights : header.parents.map D₁.topologicalHeight
      = header.parents.map D₂.topologicalHeight :=
    List.map_congr_left fun p hpm => h.topologicalHeight_eq (hp p hpm)
  have hwork : st.blues.tail.foldl
        (fun work blue => U256.saturatingAdd work (D₁.blockWork blue)) selectedData.blueWork
      = st.blues.tail.foldl
        (fun work blue => U256.saturatingAdd work (D₂.blockWork blue)) selectedData.blueWork :=
    List.foldl_ext _ _ _ fun work b hbm => by
      rw [h.blockWork_eq (hb b (List.mem_of_mem_tail hbm))]
  unfold assemble
  rw [hheights, hwork]

/-- **Locality.** Stores that agree on the past of a new block compute the same data for
it. -/
theorem computeGhostdag_congr {P : BlockHash → Prop} {D₁ D₂ : DagStore} (h : AgreeOn P D₁ D₂)
    (hD₁ : D₁.Layered) (hD₂ : D₂.Layered) {header : Header} (hp : ∀ p ∈ header.parents, P p)
    (hne : header.parents ≠ []) :
    D₁.computeGhostdag (m := Id) D₁.truth header
      = D₂.computeGhostdag (m := Id) D₂.truth header := by
  have hs : P (D₂.selectParent header.parents) := hp _ (selectParent_mem D₂ hne)
  have hp₁ : ∀ p ∈ header.parents, p ∈ D₁.headers := fun p hpm => h.mem (hp p hpm)
  unfold computeGhostdag
  rw [selectParent_congr h hp hne]
  dsimp only
  rw [h.data_eq hs]
  cases D₂.data.lookup (D₂.selectParent header.parents) with
  | none => rfl
  | some selectedData =>
    dsimp only
    rw [id_bind, id_bind, orderedMergeset_congr h hD₁ hD₂ hp hs]
    cases hm : D₂.orderedMergeset (m := Id) D₂.truth header (D₂.selectParent header.parents) with
    | error e => rfl
    | ok mergeset =>
      dsimp only
      -- the merge set lies in the part agreed on
      have hmem : ∀ c ∈ mergeset, P c := by
        intro c hc
        rw [← orderedMergeset_congr h hD₁ hD₂ hp hs] at hm
        obtain ⟨⟨p, hpm, hcp⟩, -⟩ := (isMergeset_of_ok hD₁ (h.mem hs) hp₁ hm).mem_iff.mp hc
        exact h.closed_anc (hp p hpm) hcp
      rw [id_bind, id_bind, colourMergeset_congr h hs mergeset _ hmem]
      refine congrArg Except.ok (assemble_congr h hp fun b hb => ?_)
      -- so do the blues, which are the selected parent and a part of the merge set
      obtain ⟨blues, -, hbs, -, -, hbe, -⟩ := colourMergeset_split D₂ D₂.truth
        (D₂.selectParent header.parents) mergeset (.start (D₂.selectParent header.parents))
      rw [hbe] at hb
      rcases List.mem_append.mp hb with hb | hb
      · exact List.mem_singleton.mp hb ▸ hs
      · exact hmem b (hbs.subset hb)

end Compute

end Chainname.DagStore
