import Chainname.Ghostdag.AnticoneSizes
import Chainname.Ghostdag.Queries

/-!
# When the blue set is a k-cluster

A set of blocks is a k-cluster when no member has more than `k` others in its anticone. The rule
asks this of a candidate and of the blues of the block itself. Of the blues along the chain it asks
the counter of the chain block that introduced them, which is never written again: it tells how
many concurrent blues there were then, and neither a later block nor an earlier candidate of the
same merge set is in it.

So the blue set of a block stays a k-cluster if and only if the rule, wherever it trusts such a
counter, would have found room in the blue set itself (`Valid.kCluster_iff`). In a run where this
fails, a blue collects more than `k` concurrent blues (`stale_counter`).
-/

namespace Chainname.DagStore

/-- No member has more than `k` others in its anticone. -/
def KCluster (D : DagStore) (S : Finset BlockHash) : Prop :=
  ∀ b ∈ S, (D.anticoneIn S b).card ≤ D.k.toNat

/-- A candidate that has at most `k` blues in its anticone, and room beside each blue of the chain
that is concurrent with it. -/
structure Keeps (D : DagStore) (s : BlockHash) (blues : List BlockHash) (c : BlockHash) :
    Prop where
  own : D.Own s blues c
  chain : ∀ x ∈ D.bluePast s, D.Concurrent x c →
    (D.anticoneIn (D.blueSet s blues) x).card < D.k.toNat

/-- When the counters recorded along the chain are not believed wrongly: each candidate that the
rule admits keeps the blue set a k-cluster. -/
def CountersHold [HeaderHash] (D : DagStore) (header : Header) : Prop :=
  ∀ mergeset,
    D.orderedMergeset (m := Id) D.truth header (D.selectParent header.parents) = .ok mergeset →
      D.Throughout (D.selectParent header.parents) (D.Keeps (D.selectParent header.parents))
        [D.selectParent header.parents] mergeset

section Cluster

variable {D : DagStore} {S T : Finset BlockHash} {c : BlockHash}

/-- A block joins a k-cluster that has room for it. -/
theorem KCluster.insert (h : D.KCluster S) (hc : c ∉ S)
    (hown : (D.anticoneIn S c).card ≤ D.k.toNat)
    (hroom : ∀ x ∈ S, D.Concurrent x c → (D.anticoneIn S x).card < D.k.toNat) :
    D.KCluster (insert c S) := by
  intro b hb
  obtain rfl | hb := Finset.mem_insert.mp hb
  · rw [anticoneIn_insert_of_not_concurrent (not_concurrent_self b)]
    exact hown
  · by_cases hcon : D.Concurrent b c
    · rw [card_anticoneIn_insert_of_concurrent hc hcon]
      exact hroom b hb hcon
    · rw [anticoneIn_insert_of_not_concurrent hcon]
      exact h b hb

/-- A block that joined a k-cluster found room in what was there before. -/
theorem KCluster.of_insert (h : D.KCluster T) (hc : c ∉ S) (hsub : Insert.insert c S ⊆ T) :
    (D.anticoneIn S c).card ≤ D.k.toNat ∧
      ∀ x ∈ S, D.Concurrent x c → (D.anticoneIn S x).card < D.k.toNat := by
  refine ⟨?_, fun x hx hcon => ?_⟩
  · calc (D.anticoneIn S c).card
        ≤ (D.anticoneIn T c).card :=
          Finset.card_le_card (anticoneIn_mono ((Finset.subset_insert c S).trans hsub))
      _ ≤ D.k.toNat := h c (hsub (Finset.mem_insert_self c S))
  · calc (D.anticoneIn S x).card + 1
        = (D.anticoneIn (Insert.insert c S) x).card :=
          (card_anticoneIn_insert_of_concurrent hc hcon).symm
      _ ≤ (D.anticoneIn T x).card := Finset.card_le_card (anticoneIn_mono hsub)
      _ ≤ D.k.toNat := h x (hsub (Finset.mem_insert_of_mem hx))

end Cluster

section Stored

variable [HeaderHash] {D : DagStore} (hD : D.Valid)

include hD

/-- The selected parent joins its own blue past. -/
theorem Valid.kCluster_start {s : BlockHash} (hs : s ∈ D.headers)
    (h : D.KCluster (D.bluePast s)) : D.KCluster (D.blueSet s [s]) := by
  have hset : D.blueSet s [s] = insert s (D.bluePast s) := by
    ext x
    rw [mem_blueSet, List.mem_singleton, Finset.mem_insert]
  -- the selected parent joins its own blue past, all of it behind it
  have hbehind : ∀ x ∈ D.bluePast s, D.Anc x s ∧ x ≠ s := fun x hx => hD.anc_of_mem_bluePast hs hx
  rw [hset]
  refine h.insert (fun hmem => (hbehind s hmem).2 rfl) ?_ fun x hx hcon => ?_
  · have hnone : D.anticoneIn (D.bluePast s) s = ∅ :=
      Finset.eq_empty_of_forall_notMem fun x hx =>
        (mem_anticoneIn.mp hx).2.2 (hbehind x (mem_anticoneIn.mp hx).1).1
    rw [hnone, Finset.card_empty]
    exact Nat.zero_le _
  · exact absurd (hbehind x hx).1 hcon.1

/-- **The blue set of a block is a k-cluster**, given that of its selected parent is one, if and
only if the counters hold. -/
theorem Valid.kCluster_iff {b : BlockHash} {header : Header}
    (hl : D.headers.lookup b = some header) (hne : b ≠ D.genesis)
    (hselected : D.KCluster (D.bluePast (D.selectParent header.parents))) :
    D.KCluster (D.bluePast b) ↔ D.CountersHold header := by
  obtain ⟨data, hdata⟩ := Maps.mem_iff_exists_lookup.mp (hD.data_mem.mpr (Maps.mem_of_lookup hl))
  obtain ⟨hsel, hmergeset, hready, hblues, -, hpast⟩ := hD.coloured hl hne hdata
  have hs := hD.selected_mem hdata
  rw [← hsel] at hselected
  rw [hpast]
  unfold CountersHold
  rw [← hsel]
  refine ⟨?_, ?_⟩
  · intro h mergeset hok
    obtain rfl := Except.ok.inj (hmergeset.symm.trans hok)
    refine hready.throughout hD hs (fun _ _ hkeeps => hkeeps.own) fun blues c hprefix hturn _ => ?_
    rw [← hblues] at hprefix
    have hsub : insert c (D.blueSet data.selectedParent blues)
        ⊆ D.blueSet data.selectedParent data.mergesetBlues := by
      rw [← blueSet_append]
      exact blueSet_mono hprefix.subset
    obtain ⟨hown, hroom⟩ := h.of_insert (hturn.notMem hD hs) hsub
    exact ⟨hown, fun x hx => hroom x (mem_blueSet.mpr (.inr hx))⟩
  · intro h
    -- an admitted candidate has room beside the blues of the block, by the rule
    have hstep : ∀ blues c, D.Turn data.selectedParent blues c →
        D.Admits data.selectedParent blues c → D.Keeps data.selectedParent blues c →
          D.KCluster (D.blueSet data.selectedParent blues) →
            D.KCluster (D.blueSet data.selectedParent (blues ++ [c])) := by
      intro blues c hturn hadmits hkeeps hcluster
      rw [blueSet_append]
      refine hcluster.insert (hturn.notMem hD hs) hkeeps.own fun x hx hcon => ?_
      obtain hx | hx := mem_blueSet.mp hx
      · exact hadmits.new x hx hcon
      · exact hkeeps.chain x hx hcon
    have hrun := hready.of_throughout hD hs (fun _ _ hkeeps => hkeeps.own)
      (I := fun blues => D.KCluster (D.blueSet data.selectedParent blues)) hstep
      (h _ hmergeset) (hD.kCluster_start hs hselected)
    rw [hblues]
    exact hrun.2

/-- **All blue sets are k-clusters** if and only if the counters of all blocks hold. -/
theorem Valid.forall_kCluster_iff : (∀ b ∈ D.headers, D.KCluster (D.bluePast b)) ↔
    ∀ b header, D.headers.lookup b = some header → b ≠ D.genesis → D.CountersHold header := by
  -- one way: a block that is a cluster is reached from one that is
  refine ⟨?_, ?_⟩
  · intro h b header hl hne
    have hp := selectParent_mem D (hD.parents_ne_nil hl hne)
    exact (hD.kCluster_iff hl hne (h _ (hD.parent_mem ⟨header, hl, hne, hp⟩))).mp
      (h b (Maps.mem_of_lookup hl))
  · -- other way: along the selected chain, genesis having an empty blue past
    intro h b hb
    induction b using hD.layered.wellFounded.induction with
    | _ b ih =>
      by_cases hne : b = D.genesis
      · rw [hne, hD.bluePast_genesis]
        exact fun x hx => absurd hx (Finset.notMem_empty x)
      obtain ⟨header, hl⟩ := Maps.mem_iff_exists_lookup.mp hb
      have hedge : D.Edge (D.selectParent header.parents) b :=
        ⟨header, hl, hne, selectParent_mem D (hD.parents_ne_nil hl hne)⟩
      exact (hD.kCluster_iff hl hne (ih _ hedge (hD.parent_mem hedge))).mpr (h b header hl hne)

end Stored

/-- **k-cluster safety** of a run, exactly when the counters of all its blocks hold. -/
theorem kCluster_addBlocks_iff [HeaderHash] (genesis : Header) (k : UInt16) (limit : ℕ)
    (headers : List Header) :
    (∀ b ∈ ((new genesis k limit).addBlocks headers).headers,
        ((new genesis k limit).addBlocks headers).KCluster
          (((new genesis k limit).addBlocks headers).bluePast b)) ↔
      ∀ b header, ((new genesis k limit).addBlocks headers).headers.lookup b = some header →
        b ≠ genesis.hash → ((new genesis k limit).addBlocks headers).CountersHold header := by
  have hiff := ((new_valid genesis k limit).addBlocks headers).forall_kCluster_iff
  rw [(addBlocks_fixed headers _).1] at hiff
  exact hiff

/-! ### A stale counter -/

section Stale

open Sample

/-- Block 2 is counted once, by block 3. What block 6 merges besides is concurrent with it too. -/
def stale : List Header :=
  [block 1 [0] 0x1f00ffff, block 2 [0] 0x2000ffff, block 3 [1, 2] 0x1f00ffff,
    block 4 [1] 0x2000ffff, block 5 [4] 0x2000ffff, block 6 [3, 5] 0x2000ffff]

/-- **A stale counter.** With `k = 2`, block 6 has block 2 in its blue set with three others in its
anticone. -/
theorem stale_counter : ∃ b ∈ ((new root 2 10).addBlocks stale).headers,
    ¬ ((new root 2 10).addBlocks stale).KCluster
      (((new root 2 10).addBlocks stale).bluePast b) := by
  have hvalid := (new_valid root 2 10).addBlocks stale
  have hexact : ((new root 2 10).addBlocks stale).Exact :=
    CacheTrue.exact hvalid.layered fun d a answer _ h => (hvalid.cache_ok d a answer h).2.2
  have hmem : ∀ i ∈ [1, 2, 4, 5], hashOf i ∈ ((new root 2 10).addBlocks stale).headers ∧
      hashOf i ∈ ((new root 2 10).addBlocks stale).bluePast (hashOf 6) := by decide +kernel
  have hanswer : ∀ i ∈ [1, 4, 5],
      ((new root 2 10).addBlocks stale).answer (hashOf 2) (hashOf i) = false ∧
        ((new root 2 10).addBlocks stale).answer (hashOf i) (hashOf 2) = false := by decide +kernel
  -- at block 6 the blue 2 has three blues apart from it, one more than k
  refine ⟨hashOf 6, by decide +kernel, fun h => ?_⟩
  have htwo := hmem 2 (by decide)
  have hsub : {hashOf 1, hashOf 4, hashOf 5} ⊆ ((new root 2 10).addBlocks stale).anticoneIn
      (((new root 2 10).addBlocks stale).bluePast (hashOf 6)) (hashOf 2) := by
    have hconcurrent : ∀ i ∈ [1, 4, 5], hashOf i ∈ ((new root 2 10).addBlocks stale).anticoneIn
        (((new root 2 10).addBlocks stale).bluePast (hashOf 6)) (hashOf 2) := by
      intro i hi
      have hin := hmem i (by revert i; decide)
      obtain ⟨hto, hfrom⟩ := hanswer i hi
      -- apart as the store answers, and the store answers truly
      refine mem_anticoneIn.mpr ⟨hin.2, fun hanc => ?_, fun hanc => ?_⟩
      · rw [(hexact _ _ htwo.1 hin.1).mpr hanc] at hto
        cases hto
      · rw [(hexact _ _ hin.1 htwo.1).mpr hanc] at hfrom
        cases hfrom
    intro x hx
    simp only [Finset.mem_insert, Finset.mem_singleton] at hx
    obtain rfl | rfl | rfl := hx
    · exact hconcurrent 1 (by decide)
    · exact hconcurrent 4 (by decide)
    · exact hconcurrent 5 (by decide)
  have hcard : ({hashOf 1, hashOf 4, hashOf 5} : Finset BlockHash).card = 3 := by decide +kernel
  have hle := (Finset.card_le_card hsub).trans (h (hashOf 2) htwo.2)
  rw [hcard, (addBlocks_fixed stale _).2.1] at hle
  exact absurd hle (by decide)

end Stale

end Chainname.DagStore
