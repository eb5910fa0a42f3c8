import Mathlib.Algebra.BigOperators.Group.Finset.Basic
import Chainname.Ghostdag.Growth

/-!
# The blue past of a block

The blue past of a block is what its blue score counts and its blue work weighs: the blues of the
block and of all blocks on its selected chain (`bluePast`). The store accumulates both numbers
along the chain, one block from the next, with the selected parent counted by its child and
weighed by itself. That no blue block is counted twice rests on the merge set of a block lying
outside its selected parent's past, while the selected parent's own blues lie within it
(`Valid.disjoint_blues`).
-/

namespace Chainname.DagStore

/-- The blues of a block, none when the block is unknown. -/
def bluesOf (D : DagStore) (b : BlockHash) : List BlockHash :=
  (D.data.lookup b).elim [] GhostdagData.mergesetBlues

/-- The blues of a block and of all blocks on its selected chain. -/
def bluePast (D : DagStore) (b : BlockHash) : Finset BlockHash :=
  (D.selectedParentChain b).toFinset.biUnion fun c => (D.bluesOf c).toFinset

theorem mem_bluePast {D : DagStore} {b x : BlockHash} :
    x ∈ D.bluePast b ↔ ∃ c ∈ D.selectedParentChain b, x ∈ D.bluesOf c := by
  simp [bluePast]

/-- A block's blue score, zero when the block is unknown. -/
def blueScore (D : DagStore) (b : BlockHash) : ℕ := (D.data.lookup b).elim 0 GhostdagData.blueScore

section Saturating

theorem saturatingAdd_min (a b : ℕ) :
    U256.saturatingAdd (min a U256.max) b = min (a + b) U256.max := by
  unfold U256.saturatingAdd
  omega

/-- A loop of saturating additions saturates once. -/
theorem foldl_saturatingAdd {α : Type} (work : α → ℕ) (l : List α) (a : ℕ) :
    l.foldl (fun total x => U256.saturatingAdd total (work x)) (min a U256.max)
      = min (a + (l.map work).sum) U256.max := by
  induction l generalizing a with
  | nil => rfl
  | cons x l ih =>
    rw [List.foldl_cons, saturatingAdd_min, ih, List.map_cons, List.sum_cons, Nat.add_assoc]

end Saturating

section Facts

variable [HeaderHash] {D : DagStore} (hD : D.Valid)

include hD

/-- Genesis has no blues. -/
theorem Valid.bluesOf_genesis : D.bluesOf D.genesis = [] := by
  obtain ⟨genesis, -, hg⟩ := hD.genesis_stored
  unfold bluesOf
  rw [hg]
  rfl

theorem Valid.bluePast_genesis : D.bluePast D.genesis = ∅ := by
  unfold bluePast
  rw [selectedParentChain_genesis]
  simp [hD.bluesOf_genesis]

/-- The blue past of a block is its blues and its selected parent's blue past. -/
theorem Valid.bluePast_eq {b : BlockHash} {data : GhostdagData}
    (hdata : D.data.lookup b = some data) (hne : b ≠ D.genesis) :
    D.bluePast b = data.mergesetBlues.toFinset ∪ D.bluePast data.selectedParent := by
  have hblues : D.bluesOf b = data.mergesetBlues := by
    unfold bluesOf
    rw [hdata]
    rfl
  unfold bluePast
  rw [hD.selectedParentChain_cons hdata hne, List.toFinset_cons, Finset.biUnion_insert, hblues]

/-- A blue lies strictly behind its block. -/
theorem Valid.anc_of_mem_bluesOf {b x : BlockHash} (hx : x ∈ D.bluesOf b) : D.Anc x b ∧ x ≠ b := by
  unfold bluesOf at hx
  cases hdata : D.data.lookup b with
  | none =>
    rw [hdata] at hx
    exact absurd hx List.not_mem_nil
  | some data =>
    rw [hdata] at hx
    exact hD.blue_anc hdata hx

/-- The blue past lies strictly behind the block. -/
theorem Valid.anc_of_mem_bluePast {b x : BlockHash} (hb : b ∈ D.headers) (hx : x ∈ D.bluePast b) :
    D.Anc x b ∧ x ≠ b := by
  obtain ⟨c, hc, hx⟩ := mem_bluePast.mp hx
  obtain ⟨hxc, hne⟩ := hD.anc_of_mem_bluesOf hx
  have hcb := hD.anc_of_mem_chain hb hc
  refine ⟨hxc.trans hcb, ?_⟩
  rintro rfl
  exact absurd (hxc.height_lt hD.layered hne) (not_lt.mpr (hcb.height_le hD.layered))

/-- The blues of a block: its selected parent, then members of its merge set in order. -/
theorem Valid.blues_eq {b : BlockHash} {data : GhostdagData} (hdata : D.data.lookup b = some data)
    (hne : b ≠ D.genesis) :
    ∃ blues, data.mergesetBlues = data.selectedParent :: blues ∧ data.mergesetBlues.Nodup ∧
      ∀ x ∈ blues, ¬ D.Anc x data.selectedParent := by
  obtain ⟨header, hl⟩ := Maps.mem_iff_exists_lookup.mp (hD.data_mem.mp (Maps.mem_of_lookup hdata))
  have hdesc := hD.describes hl hne hdata
  obtain ⟨blues, hblues, hsub, -, -⟩ := hdesc.blues
  have hout : ∀ x ∈ blues, ¬ D.Anc x data.selectedParent := fun x hx =>
    (hdesc.mergeset.mem_iff.mp (hsub.subset hx)).2
  refine ⟨blues, hblues, ?_, hout⟩
  rw [hblues, List.nodup_cons]
  exact ⟨fun hx => hout _ hx (Anc.refl _), hdesc.mergeset.nodup.sublist hsub⟩

theorem Valid.nodup_bluesOf (b : BlockHash) : (D.bluesOf b).Nodup := by
  by_cases hne : b = D.genesis
  · rw [hne, hD.bluesOf_genesis]
    exact List.nodup_nil
  unfold bluesOf
  cases hdata : D.data.lookup b with
  | none => exact List.nodup_nil
  | some data =>
    obtain ⟨-, -, hnodup, -⟩ := hD.blues_eq hdata hne
    exact hnodup

/-- The blues of a block are new to the blue past of its selected parent: this lies strictly
behind the selected parent, and no blue but the selected parent does. -/
theorem Valid.disjoint_blues {b : BlockHash} {data : GhostdagData}
    (hdata : D.data.lookup b = some data) (hne : b ≠ D.genesis) :
    Disjoint data.mergesetBlues.toFinset (D.bluePast data.selectedParent) := by
  obtain ⟨blues, hblues, -, hout⟩ := hD.blues_eq hdata hne
  refine Finset.disjoint_left.mpr fun x hx hx' => ?_
  obtain ⟨hanc, hxne⟩ := hD.anc_of_mem_bluePast (hD.selected_mem hdata) hx'
  rw [hblues, List.mem_toFinset, List.mem_cons] at hx
  exact hx.elim hxne fun hx => hout x hx hanc

/-- No block is blue twice along a chain. -/
theorem Valid.pairwise_disjoint_blues {b : BlockHash} (hb : b ∈ D.headers) :
    (D.selectedParentChain b).Pairwise fun c d => (D.bluesOf c).Disjoint (D.bluesOf d) := by
  -- down the selected chain: the blues of `b` are new to everything its selected parent counts
  induction b using hD.layered.wellFounded.induction with
  | _ b ih =>
    by_cases hne : b = D.genesis
    · rw [hne, selectedParentChain_genesis]
      exact List.pairwise_singleton _ _
    obtain ⟨data, hdata⟩ := Maps.mem_iff_exists_lookup.mp (hD.data_mem.mpr hb)
    have hselected := hD.selected_mem hdata
    rw [hD.selectedParentChain_cons hdata hne, List.pairwise_cons]
    refine ⟨fun c hc x hx hx' => ?_, ih _ (hD.selected_edge hdata hne) hselected⟩
    have hx : x ∈ data.mergesetBlues.toFinset := by
      unfold bluesOf at hx
      rw [hdata] at hx
      exact List.mem_toFinset.mpr hx
    exact Finset.disjoint_left.mp (hD.disjoint_blues hdata hne) hx (mem_bluePast.mpr ⟨c, hc, hx'⟩)

/-- The score and the work of a block, from those of its selected parent. -/
theorem Valid.accumulates {b : BlockHash} {data : GhostdagData} (hdata : D.data.lookup b = some data)
    (hne : b ≠ D.genesis) :
    D.blueScore b = D.blueScore data.selectedParent + data.mergesetBlues.length ∧
      D.blueWork b = U256.saturatingAdd (data.mergesetBlues.tail.foldl
        (fun total blue => U256.saturatingAdd total (D.blockWork blue))
        (D.blueWork data.selectedParent)) (D.blockWork b) := by
  obtain ⟨header, hl⟩ := Maps.mem_iff_exists_lookup.mp (hD.data_mem.mp (Maps.mem_of_lookup hdata))
  obtain ⟨data', hdata', hcomp⟩ := hD.data_eq hl hne
  obtain rfl := Option.some.inj (hdata'.symm.trans hdata)
  obtain ⟨selectedData, mergeset, hselected, -, rfl⟩ := computeGhostdag_ok hcomp
  unfold blueScore blueWork blockWork
  rw [hdata, hl]
  -- both sums start at the stored data of the selected parent
  change _ = (D.data.lookup (D.selectParent header.parents)).elim 0 _ + _ ∧ _ =
    U256.saturatingAdd (List.foldl _ ((D.data.lookup (D.selectParent header.parents)).elim 0 _) _) _
  rw [hselected]
  exact ⟨rfl, rfl⟩

/-! ### Score and work -/

/-- **The blue score counts the blue past.** -/
theorem Valid.blueScore_eq {b : BlockHash} (hb : b ∈ D.headers) :
    D.blueScore b = (D.bluePast b).card := by
  -- down the selected chain, each block adding its own blues
  induction b using hD.layered.wellFounded.induction with
  | _ b ih =>
    by_cases hne : b = D.genesis
    · obtain ⟨genesis, -, hg⟩ := hD.genesis_stored
      rw [hne, hD.bluePast_genesis]
      unfold blueScore
      rw [hg]
      rfl
    obtain ⟨data, hdata⟩ := Maps.mem_iff_exists_lookup.mp (hD.data_mem.mpr hb)
    obtain ⟨-, -, hnodup, -⟩ := hD.blues_eq hdata hne
    rw [(hD.accumulates hdata hne).1, ih _ (hD.selected_edge hdata hne) (hD.selected_mem hdata),
      hD.bluePast_eq hdata hne, Finset.card_union_of_disjoint (hD.disjoint_blues hdata hne),
      List.toFinset_card_of_nodup hnodup, Nat.add_comm]

/-- **The blue work weighs the blue past and the block**, up to the largest value. -/
theorem Valid.blueWork_eq {b : BlockHash} (hb : b ∈ D.headers) :
    D.blueWork b = min (∑ x ∈ D.bluePast b, D.blockWork x + D.blockWork b) U256.max := by
  induction b using hD.layered.wellFounded.induction with
  | _ b ih =>
    by_cases hne : b = D.genesis
    · obtain ⟨genesis, hl, hg⟩ := hD.genesis_stored
      rw [hne, hD.bluePast_genesis, Finset.sum_empty, Nat.zero_add]
      unfold blueWork blockWork
      rw [hg, hl]
      exact (Nat.min_eq_left (headerWork_bounds genesis).2).symm
    obtain ⟨data, hdata⟩ := Maps.mem_iff_exists_lookup.mp (hD.data_mem.mpr hb)
    obtain ⟨blues, hblues, hnodup, -⟩ := hD.blues_eq hdata hne
    have hsum : ∑ x ∈ data.mergesetBlues.toFinset, D.blockWork x
        = D.blockWork data.selectedParent + (blues.map D.blockWork).sum := by
      rw [List.sum_toFinset _ hnodup, hblues, List.map_cons, List.sum_cons]
    rw [(hD.accumulates hdata hne).2, ih _ (hD.selected_edge hdata hne) (hD.selected_mem hdata),
      foldl_saturatingAdd, saturatingAdd_min, hD.bluePast_eq hdata hne,
      Finset.sum_union (hD.disjoint_blues hdata hne), hsum, hblues, List.tail_cons]
    -- the selected parent's own work was weighed with it
    congr 1
    omega

/-- **A block adds to what its selected parent has**: to the score, and its own work to the work. -/
theorem Valid.adds_to_selected {b : BlockHash} {data : GhostdagData}
    (hdata : D.data.lookup b = some data) (hne : b ≠ D.genesis) :
    D.blueScore data.selectedParent < D.blueScore b ∧
      U256.saturatingAdd (D.blueWork data.selectedParent) (D.blockWork b) ≤ D.blueWork b := by
  obtain ⟨hscore, hwork⟩ := hD.accumulates hdata hne
  obtain ⟨blues, hblues, -⟩ := hD.blues_eq hdata hne
  refine ⟨?_, ?_⟩
  · -- the selected parent is a blue block itself
    rw [hscore, hblues, List.length_cons]
    omega
  · have hfits : D.blueWork data.selectedParent = min (D.blueWork data.selectedParent) U256.max := by
      rw [hD.blueWork_eq (hD.selected_mem hdata), min_assoc, min_self]
    rw [hwork, hfits, foldl_saturatingAdd, saturatingAdd_min, saturatingAdd_min]
    apply min_le_min_right
    omega

end Facts

/-- The blue score and the blue work of a block count its blue past exactly. -/
structure CountsBluePast (D : DagStore) (b : BlockHash) : Prop where
  /-- No list of blues along the chain repeats a block. -/
  nodup : ∀ c ∈ D.selectedParentChain b, (D.bluesOf c).Nodup
  /-- No two lists along the chain share a block. -/
  disjoint : (D.selectedParentChain b).Pairwise fun c d => (D.bluesOf c).Disjoint (D.bluesOf d)
  score : D.blueScore b = (D.bluePast b).card
  work : D.blueWork b = min (2 ^ 256 - 1) (∑ x ∈ D.bluePast b, D.blockWork x + D.blockWork b)

/-- The work of a stored block: what its target asks for, and one when its bits do not decode. -/
structure WorkOfBits (D : DagStore) (header : Header) (b : BlockHash) : Prop where
  decoded : ∀ target, CompactTarget.toTarget header.bits = .ok target →
    D.blockWork b = 2 ^ 256 / (target + 1)
  undecodable : ∀ e, CompactTarget.toTarget header.bits = .error e → D.blockWork b = 1

/-- **Blue score and blue work count the blue past** in every run. -/
theorem countsBluePast_addBlocks [HeaderHash] (genesis : Header) (k : UInt16) (limit : ℕ)
    (headers : List Header) :
    ∀ b header, ((new genesis k limit).addBlocks headers).headers.lookup b = some header →
      ((new genesis k limit).addBlocks headers).CountsBluePast b ∧
        ((new genesis k limit).addBlocks headers).WorkOfBits header b := by
  intro b header hl
  have hvalid := (new_valid genesis k limit).addBlocks headers
  have hb := Maps.mem_of_lookup hl
  refine ⟨⟨fun c _ => hvalid.nodup_bluesOf c, hvalid.pairwise_disjoint_blues hb,
    hvalid.blueScore_eq hb, ?_⟩, ⟨fun target h => ?_, fun e h => ?_⟩⟩
  · -- the work is stated over the blue past, capped where the code saturates
    rw [hvalid.blueWork_eq hb, min_comm]
    rfl
  all_goals
    unfold blockWork
    rw [hl]
  · exact headerWork_of_ok h
  · exact headerWork_of_error h

open Sample

/-- The merging block of the diamond counts its blue past. -/
theorem countsBluePast_diamond :
    ((new root 2 10).addBlocks diamond).CountsBluePast (hashOf 3) ∧
      ((new root 2 10).addBlocks diamond).WorkOfBits (block 3 [1, 2] 0x2000ffff) (hashOf 3) :=
  countsBluePast_addBlocks root 2 10 diamond (hashOf 3) _ (by decide +kernel)

end Chainname.DagStore
